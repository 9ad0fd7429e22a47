import Trivalent.Proofs.Evaluation.Success
import Trivalent.Proofs.Store.Order
import Trivalent.Proofs.Work

/-!
# What holds throughout a session

A context can be used for one walk or evaluation after another, over arenas of any kind, and some of
these fail half-way. Whatever they are, the values in the store keep their form, none of them has
more rows than there are assignments of the atoms taken so far, and atoms are only ever added.

* `Value.Fits` -- a well-formed value over the first `n` atoms; `Value.regular_iff` -- the digits of
  well-formed values;
* `Value.Fits.negate`, `Value.Fits.or`, `Value.Fits.and`, `Value.fits_atomRows` -- no connective
  makes a table larger than its operands, and an atom is over the atoms up to itself;
* `Arena.Blames` -- a failure that is reported at a node;
* `Context.Sound`, `Context.Advances` -- what holds of a context, and how a computation may change
  it;
* `evaluateAt_evaluates`, `Context.walk_walks` -- **evaluations and walks keep to this**, whether
  they succeed or fail, and blame a node of their arena for what they fail with;
* `Context.session_sound` -- **so does any sequence of them**.
-/

namespace Trivalent

/-! ## 1. Values over the first atoms -/

namespace Value

/-- The digits of a value are `2` alone, `0` alone, or `1` before two, four, eight, … rows, each of
them `0` or `2`. -/
def Regular (v : Value) : Prop :=
  v.digits = [2] ∨ v.digits = [0]
    ∨ ∃ k rows, 1 ≤ k ∧ rows.length = 2 ^ k ∧ (∀ row ∈ rows, row = 0 ∨ row = 2)
      ∧ v.digits = 1 :: rows

theorem digit_eq (row : Bool) : digit row = 0 ∨ digit row = 2 := by
  cases row
  · exact .inl rfl
  · exact .inr rfl

/-- **The digits of well-formed values.** -/
theorem regular_iff (v : Value) : v.Regular ↔ v.WellFormed := by
  cases v with
  | const b => cases b <;> simp [Regular, WellFormed, digits, digit]
  | table rows =>
      constructor
      · rintro (h | h | ⟨k, digits, hk, hlen, -, h⟩)
        · injection h with h _
          cases h
        · injection h with h _
          cases h
        · have hdigits : rows.map digit = digits := List.tail_eq_of_cons_eq h
          rw [← hdigits, List.length_map] at hlen
          exact ⟨k - 1, by rw [hlen, Nat.sub_add_cancel hk]⟩
      · rintro ⟨k, hk⟩
        refine .inr (.inr ⟨k + 1, rows.map digit, by omega, by rw [List.length_map, hk], ?_, rfl⟩)
        intro row hrow
        obtain ⟨b, -, rfl⟩ := List.mem_map.mp hrow
        exact digit_eq b

/-- A well-formed value with at most one row for each assignment of `n` atoms. -/
structure Fits (v : Value) (n : Nat) : Prop where
  wellFormed : v.WellFormed
  length_le : v.rows.length ≤ 2 ^ n

theorem fits_const (b : Bool) (n : Nat) : (const b).Fits n := ⟨trivial, Nat.zero_le _⟩

theorem Fits.mono {v : Value} {n m : Nat} (h : v.Fits n) (hle : n ≤ m) : v.Fits m :=
  ⟨h.wellFormed, Nat.le_trans h.length_le (Nat.pow_le_pow_right (by omega) hle)⟩

theorem WellFormed.denotes {v : Value} (h : v.WellFormed) : v.Denotes v.truthAt := ⟨h, fun _ => rfl⟩

theorem Fits.negate {v : Value} {n : Nat} (h : v.Fits n) : v.negate.Fits n := by
  refine ⟨h.wellFormed.denotes.negate.1, ?_⟩
  have hle := h.length_le
  cases v with
  | const b => exact hle
  | table rows =>
      show (rows.map (!·)).length ≤ 2 ^ n
      rw [List.length_map]
      exact hle

theorem length_halve (v : Value) : v.halve.rows.length ≤ v.rows.length := by
  cases v with
  | const b => exact Nat.le_refl _
  | table rows =>
      show (Rows.halve rows).length ≤ rows.length
      unfold Rows.halve
      dsimp only
      split
      · rw [List.length_take]
        omega
      · exact Nat.le_refl _

theorem length_collapse (v : Value) : v.collapse.rows.length ≤ v.rows.length := by
  cases v with
  | const b => exact Nat.le_refl _
  | table rows =>
      unfold collapse
      dsimp only
      split
      · exact Nat.zero_le _
      · exact Nat.le_refl _

/-- Two tables that are brought to one size and combined are as long as the longer one. -/
theorem length_combined (op : Bool → Bool → Bool) {r s : List Bool} (hr : Rows.WellFormed r)
    (hs : Rows.WellFormed s) :
    (List.zipWith op (Rows.stretch s.length r)
      (Rows.stretch (Rows.stretch s.length r).length s)).length = max r.length s.length := by
  rw [List.length_zipWith, ← Rows.length_stretch_both hr hs, Nat.min_self]
  obtain ⟨m, hm⟩ := hs
  rw [hm, Rows.length_stretch hr]

theorem Fits.or {v w : Value} {n : Nat} (hv : v.Fits n) (hw : w.Fits n) : (v.or w).Fits n := by
  refine ⟨(hv.wellFormed.denotes.or hw.wellFormed.denotes).1, ?_⟩
  match v, w, hv, hw with
  | const true, _, _, _ => exact Nat.zero_le _
  | const false, const true, _, _ => exact Nat.zero_le _
  | const false, const false, _, _ => exact Nat.zero_le _
  | const false, table s, _, hw => exact hw.length_le
  | table r, const true, _, _ => exact Nat.zero_le _
  | table r, const false, hv, _ => exact hv.length_le
  | table r, table s, hv, hw =>
      unfold Value.or
      refine Nat.le_trans (length_collapse _) (Nat.le_trans (length_halve _) ?_)
      show (List.zipWith _ _ _).length ≤ _
      rw [length_combined _ hv.wellFormed hw.wellFormed]
      exact Nat.max_le.mpr ⟨hv.length_le, hw.length_le⟩

theorem Fits.and {v w : Value} {n : Nat} (hv : v.Fits n) (hw : w.Fits n) : (v.and w).Fits n := by
  refine ⟨(hv.wellFormed.denotes.and hw.wellFormed.denotes).1, ?_⟩
  match v, w, hv, hw with
  | const false, _, _, _ => exact Nat.zero_le _
  | const true, const true, _, _ => exact Nat.zero_le _
  | const true, const false, _, _ => exact Nat.zero_le _
  | const true, table s, _, hw => exact hw.length_le
  | table r, const true, hv, _ => exact hv.length_le
  | table r, const false, _, _ => exact Nat.zero_le _
  | table r, table s, hv, hw =>
      unfold Value.and
      refine Nat.le_trans (length_collapse _) ?_
      show (List.zipWith _ _ _).length ≤ _
      rw [Rows.stretchHalving_eq_stretch, length_combined _ hv.wellFormed hw.wellFormed]
      exact Nat.max_le.mpr ⟨hv.length_le, hw.length_le⟩

theorem fits_atomRows (n : Nat) : (table (Rows.atomRows (2 ^ n))).Fits (n + 1) := by
  refine ⟨Rows.wellFormed_atomRows n, ?_⟩
  show (List.replicate (2 ^ n) true ++ List.replicate (2 ^ n) false).length ≤ 2 ^ (n + 1)
  rw [List.length_append, List.length_replicate, List.length_replicate, Nat.pow_succ]
  omega

end Value

/-- Every value that is bound is over the first `n` atoms. -/
def Bindings.Fit (bindings : Bindings) (n : Nat) : Prop := ∀ entry ∈ bindings, entry.2.Fits n

namespace Bindings

theorem Fit.mono {bindings : Bindings} {n m : Nat} (h : bindings.Fit n) (hle : n ≤ m) :
    bindings.Fit m :=
  fun entry hentry => (h entry hentry).mono hle

theorem Fit.insert {bindings : Bindings} {n : Nat} (h : bindings.Fit n) {v : Value} (hv : v.Fits n)
    (name : String) : (bindings.insert name v).Fit n := by
  intro entry hentry
  rcases mem_insert hentry with rfl | hentry
  · exact hv
  · exact h entry hentry

end Bindings

/-! ## 2. Evaluations -/

/-- A failure is a fault, or it is reported at a node of the arena. -/
def Arena.Blames (arena : Arena) : Failure → Prop
  | .diagnostic d =>
    ∃ id node, arena.get? id = some node ∧ d.span = some node.span ∧ d.line = node.line
  | .fault _ => True

section Arena

variable {σ : Type} {arena : Arena} {id : NodeId} {node : Node}

theorem Arena.fetch_finds (arena : Arena) (id : NodeId) :
    Work.Finds (arena.fetch id : Work σ Node) (arena.get? id = some ·) arena.Blames := by
  unfold Arena.fetch
  cases hget : arena.get? id with
  | none => exact .throw trivial
  | some node => exact .pure rfl

theorem Arena.blames_report (h : arena.get? id = some node) (problem : Problem) :
    arena.Blames (.diagnostic ⟨problem, some node.span, node.line⟩) :=
  ⟨id, node, h, rfl, rfl⟩

theorem Arena.report_finds {α : Type} {Q : α → Prop} (h : arena.get? id = some node)
    (problem : Problem) : Work.Finds (node.report problem : Work σ α) Q arena.Blames :=
  .throw (arena.blames_report h problem)

theorem Arena.child_finds (h : arena.get? id = some node) (side : Side) :
    Work.Finds (node.child side : Work σ NodeId) (node.child? side = some ·) arena.Blames := by
  rcases node.child_cases (σ := σ) side with ⟨child, hsome, hchild⟩ | ⟨-, hchild⟩
  · rw [hchild]
    exact .pure hsome
  · rw [hchild]
    exact arena.report_finds h _

theorem variableName_finds (h : arena.get? id = some node) :
    Work.Finds (variableName arena node : Work σ String) (fun _ => True) arena.Blames := by
  unfold variableName
  cases node.left? with
  | none => exact arena.report_finds h _
  | some child =>
      refine (arena.fetch_finds child).bind fun leaf _ => ?_
      simp only [pure_bind]
      cases leaf.literal? with
      | none => exact arena.report_finds h _
      | some name => exact .pure trivial

theorem readVariable_finds {bindings : Bindings} {n : Nat} (hbindings : bindings.Fit n)
    (h : arena.get? id = some node) :
    Work.Finds (readVariable arena bindings node : Work σ Value) (·.Fits n) arena.Blames := by
  unfold readVariable
  refine (variableName_finds h).bind fun name _ => ?_
  cases hget : bindings.get? name with
  | none => exact arena.report_finds h _
  | some v => exact .pure (hbindings _ (Bindings.mem_of_get? hget))

theorem Limits.descend_meets {α : Type} {limits : Limits} {room : Nat} {s : σ} {next : Work σ α}
    {Q : α → σ → Prop} {E : Failure → σ → Prop} (h : Work.Meets s next Q E)
    (hfault : E (.fault .depthOverflow) s) : Work.Meets s (limits.descend room next) Q E := by
  unfold Limits.descend
  split
  · exact .throw hfault
  · exact h

end Arena

/-- Where there were `n` atoms there are `m` now, which the limits allow. -/
def Limits.Reach (limits : Limits) (n m : Nat) : Prop := n ≤ m ∧ m ≤ limits.maxUnsure

/-- From `n` atoms, an evaluation adds atoms within the limit. It gives a value over the atoms that
there are then, or blames a node. -/
def Evaluates (limits : Limits) (arena : Arena) (n : Nat) (work : Work Nat Value) : Prop :=
  Work.Meets n work (fun v m => limits.Reach n m ∧ v.Fits m)
    (fun e m => limits.Reach n m ∧ arena.Blames e)

section Evaluation

variable {limits : Limits} {arena : Arena} {bindings : Bindings} {n : Nat}

theorem freshAtom_evaluates (hlimit : limits.maxUnsure ≤ 62) (hn : n ≤ limits.maxUnsure)
    {id : NodeId} {node : Node} (h : arena.get? id = some node) :
    Evaluates limits arena n (freshAtom limits node) := by
  unfold Evaluates Work.Meets
  by_cases hfull : limits.maxUnsure ≤ n
  · rw [freshAtom_full hfull]
    exact ⟨⟨Nat.le_refl n, hn⟩, arena.blames_report h _⟩
  · rw [freshAtom_run (Nat.lt_of_not_le hfull) (by omega)]
    exact ⟨⟨Nat.le_succ n, by omega⟩, Value.fits_atomRows n⟩

/-- An operand below a node, one level further down. -/
theorem below_evaluates (hn : n ≤ limits.maxUnsure) {room : Nat} {work : Work Nat NodeId}
    {operand : NodeId → Work Nat Value} {Q : NodeId → Prop} (hwork : Work.Finds work Q arena.Blames)
    (hoperand : ∀ child, Evaluates limits arena n (operand child)) :
    Evaluates limits arena n (do limits.descend room (operand (← work))) :=
  hwork.seq (fun child _ => Limits.descend_meets (hoperand child) ⟨⟨Nat.le_refl n, hn⟩, trivial⟩)
    fun _ he => ⟨⟨Nat.le_refl n, hn⟩, he⟩

/-- What is made of the value of an operand. -/
theorem Evaluates.map {work : Work Nat Value} {f : Value → Value}
    (h : Evaluates limits arena n work) (hf : ∀ {v m}, v.Fits m → (f v).Fits m) :
    Evaluates limits arena n (do return f (← work)) :=
  Work.Meets.seq h (fun _ _ hv => ⟨hv.1, hf hv.2⟩) fun _ _ he => he

/-- What is made of the values of two operands; the second starts with the atoms of the first. -/
theorem Evaluates.join {left right : Work Nat Value} {f : Value → Value → Value}
    (hleft : Evaluates limits arena n left)
    (hright : ∀ m, limits.Reach n m → Evaluates limits arena m right)
    (hf : ∀ {v w m}, v.Fits m → w.Fits m → (f v w).Fits m) :
    Evaluates limits arena n (do return f (← left) (← right)) := by
  refine Work.Meets.seq hleft (fun v m hv => ?_) fun _ _ he => he
  obtain ⟨hm, hv⟩ := hv
  refine Work.Meets.seq (hright m hm) (fun w k hw => ?_) fun e k he => ?_
  · obtain ⟨hk, hw⟩ := hw
    -- the first value is also one over the atoms that the second operand has added
    exact ⟨⟨Nat.le_trans hm.1 hk.1, hk.2⟩, hf (hv.mono hk.1) hw⟩
  · exact ⟨⟨Nat.le_trans hm.1 he.1.1, he.1.2⟩, he.2⟩

/-- **Evaluations**, in an arena of any kind. -/
theorem evaluateAt_evaluates (hlimit : limits.maxUnsure ≤ 62) (arena : Arena) (room : Nat)
    (id : NodeId) (hn : n ≤ limits.maxUnsure) (hbindings : bindings.Fit n) :
    Evaluates limits arena n (evaluateAt limits arena bindings room id) := by
  have hstay : ∀ {m}, m ≤ limits.maxUnsure → ∀ e, arena.Blames e →
      limits.Reach m m ∧ arena.Blames e := fun hm e he => ⟨⟨Nat.le_refl _, hm⟩, he⟩
  induction room generalizing n id with
  | zero =>
      unfold evaluateAt
      refine (arena.fetch_finds id).seq (fun node hnode => ?_) (hstay hn)
      exact .throw (hstay hn _ (arena.blames_report hnode _))
  | succ room ih =>
      have hbelow : ∀ {m} {work : Work Nat NodeId} {Q}, limits.Reach n m →
          Work.Finds work Q arena.Blames → Evaluates limits arena m (do
            limits.descend room (evaluateAt limits arena bindings room (← work))) :=
        fun hm hwork => below_evaluates hm.2 hwork fun child =>
          ih child hm.2 (hbindings.mono hm.1)
      have hn' : limits.Reach n n := ⟨Nat.le_refl n, hn⟩
      unfold evaluateAt
      refine (arena.fetch_finds id).seq (fun node hnode => ?_) (hstay hn)
      have hleft := arena.child_finds (σ := Nat) hnode .left
      have hright := arena.child_finds (σ := Nat) hnode .right
      dsimp only
      -- a variable whatever its action is, and then one case for each action
      split
      · exact (readVariable_finds hbindings hnode n).mono
          (fun v m hv => ⟨hv.2 ▸ hn', hv.2 ▸ hv.1⟩) fun e m he => ⟨he.2 ▸ hn', he.1⟩
      · split
        · exact .pure ⟨hn', Value.fits_const true n⟩
        · exact .pure ⟨hn', Value.fits_const false n⟩
        · exact freshAtom_evaluates hlimit hn hnode
        · exact hbelow hn' hleft
        · have h := (hbelow hn' hleft).map (f := Value.negate) Value.Fits.negate
          rw [bind_assoc] at h
          exact h
        · have h := (hbelow hn' hleft).join (f := Value.or) (fun m hm => hbelow hm hright)
            Value.Fits.or
          simp only [bind_assoc] at h
          exact h
        · have h := (hbelow hn' hleft).join (f := Value.and) (fun m hm => hbelow hm hright)
            Value.Fits.and
          simp only [bind_assoc] at h
          exact h
        · exact .throw (hstay hn _ (arena.blames_report hnode _))

end Evaluation

/-! ## 3. Walks -/

namespace Context

/-- What holds of a context throughout a session: its limits are those of the session, there are no
more atoms than they allow, and every value is over these atoms. -/
structure Sound (limits : Limits) (c : Context) : Prop where
  limits_eq : c.limits = limits
  atoms_le : c.store.atoms ≤ limits.maxUnsure
  values : c.store.bindings.Fit c.store.atoms

/-- A context that a session goes on to from `c`. -/
structure Advances (limits : Limits) (c t : Context) : Prop where
  sound : t.Sound limits
  atoms_le : c.store.atoms ≤ t.store.atoms

theorem Sound.advances {limits : Limits} {c : Context} (h : c.Sound limits) :
    Advances limits c c :=
  ⟨h, Nat.le_refl _⟩

theorem Advances.trans {limits : Limits} {c t u : Context} (hct : Advances limits c t)
    (htu : Advances limits t u) : Advances limits c u :=
  ⟨htu.sound, Nat.le_trans hct.atoms_le htu.atoms_le⟩

/-- A computation leads on to a context of the session, and a failure is blamed on a node. -/
def Walks (limits : Limits) (arena : Arena) (c : Context) (work : Work Context Unit) : Prop :=
  Work.Meets c work (fun _ t => Advances limits c t)
    (fun e t => Advances limits c t ∧ arena.Blames e)

section Walks

variable {limits : Limits} {arena : Arena} {c : Context}

theorem withAtoms_meets (hc : c.Sound limits) {work : Work Nat Value}
    (h : Evaluates limits arena c.store.atoms work) :
    Work.Meets c (withAtoms work) (fun v t => Advances limits c t ∧ v.Fits t.store.atoms)
      (fun e t => Advances limits c t ∧ arena.Blames e) := by
  have hnext : ∀ {n}, limits.Reach c.store.atoms n →
      Advances limits c { c with store.atoms := n } :=
    fun hn => ⟨⟨hc.limits_eq, hn.2, hc.values.mono hn.1⟩, hn.1⟩
  unfold Work.Meets withAtoms EStateM.run
  dsimp only
  cases hrun : work c.store.atoms with
  | ok v n =>
      obtain ⟨hn, hv⟩ := Work.Meets.of_ok h hrun
      exact ⟨hnext hn, hv⟩
  | error e n =>
      obtain ⟨hn, he⟩ := Work.Meets.of_error h hrun
      exact ⟨hnext hn, he⟩

theorem Sound.assign (hc : c.Sound limits) {v : Value} (hv : v.Fits c.store.atoms) (name : String)
    (journal : Journal) :
    Advances limits c { c with store := c.store.assign name v, journal } :=
  ⟨⟨hc.limits_eq, hc.atoms_le, hc.values.insert hv name⟩, Nat.le_refl _⟩

theorem walkAssignment_walks (hlimit : limits.maxUnsure ≤ 62) (hc : c.Sound limits) {id : NodeId}
    {node : Node} (hnode : arena.get? id = some node) (room : Nat) :
    Walks limits arena c (walkAssignment limits arena room node) := by
  have hstay : ∀ e, arena.Blames e → Advances limits c c ∧ arena.Blames e :=
    fun e he => ⟨hc.advances, he⟩
  unfold walkAssignment
  refine (arena.child_finds hnode .left).seq (fun left _ => ?_) hstay
  refine (arena.fetch_finds left).seq (fun target htarget => ?_) hstay
  split
  · exact .throw (hstay _ (arena.blames_report htarget _))
  · refine (variableName_finds htarget).seq (fun name _ => ?_) hstay
    refine (arena.child_finds hnode .right).seq (fun right _ => ?_) hstay
    refine .bind ?_
    refine .seq (Limits.descend_meets (withAtoms_meets hc
      (evaluateAt_evaluates hlimit arena room right hc.atoms_le hc.values)) (hstay _ trivial))
      (fun v t ht => ?_) fun _ _ he => he
    exact ht.1.trans (ht.1.sound.assign ht.2 name _)

theorem spine_finds {σ : Type} (length : Nat) (first : NodeId) (later : List NodeId) :
    Work.Finds (spine arena length first later : Work σ (List NodeId)) (fun _ => True)
      arena.Blames := by
  induction length generalizing first later with
  | zero => exact .throw trivial
  | succ length ih =>
      unfold spine
      refine (arena.fetch_finds first).bind fun node hnode => ?_
      split
      · refine (arena.child_finds hnode .right).bind fun right _ => ?_
        exact (arena.child_finds hnode .left).bind fun left _ => ih left (right :: later)
      · exact .pure trivial

theorem blockParts_finds {σ : Type} {id : NodeId} {node : Node}
    (hnode : arena.get? id = some node) :
    Work.Finds (blockParts arena node : Work σ (List NodeId)) (fun _ => True) arena.Blames := by
  unfold blockParts
  refine (arena.child_finds hnode .right).bind fun right _ => ?_
  exact (arena.child_finds hnode .left).bind fun left _ => spine_finds _ left [right]

theorem walkLevel_walks (hlimit : limits.maxUnsure ≤ 62) {room : Nat}
    {deeper : NodeId → Work Context Unit}
    (hdeeper : ∀ child {c}, c.Sound limits → Walks limits arena c (deeper child)) (blocks : Nat)
    (id : NodeId) (hc : c.Sound limits) :
    Walks limits arena c (walkLevel limits arena room deeper blocks id) := by
  induction blocks generalizing c id with
  | zero => exact .throw ⟨hc.advances, trivial⟩
  | succ blocks ih =>
      have hstay : ∀ e, arena.Blames e → Advances limits c c ∧ arena.Blames e :=
        fun e he => ⟨hc.advances, he⟩
      unfold walkLevel
      refine (arena.fetch_finds id).seq (fun node hnode => ?_) hstay
      split
      · refine (blockParts_finds hnode).seq (fun parts _ => ?_) hstay
        -- a part starts from the context that the parts before it have led to
        exact .forM hc.advances Advances.trans (fun part t ht => ih part ht.sound) parts
      · exact (arena.child_finds hnode .left).seq (fun left _ => hdeeper left hc) hstay
      · exact (arena.child_finds hnode .right).seq (fun right _ => hdeeper right hc) hstay
      · exact walkAssignment_walks hlimit hc hnode room
      · exact .throw (hstay _ (arena.blames_report hnode _))

theorem walkAt_walks (hlimit : limits.maxUnsure ≤ 62) (arena : Arena) (room : Nat) (id : NodeId)
    (hc : c.Sound limits) : Walks limits arena c (walkAt limits arena room id) := by
  induction room generalizing c id with
  | zero =>
      unfold walkAt
      refine (arena.fetch_finds id).seq (fun node hnode => ?_) fun e he => ⟨hc.advances, he⟩
      exact .throw ⟨hc.advances, arena.blames_report hnode _⟩
  | succ room ih =>
      unfold walkAt
      refine walkLevel_walks hlimit (fun child {t} ht => ?_) _ id hc
      exact Limits.descend_meets (ih child ht) ⟨ht.advances, trivial⟩

/-- **Walks**, in an arena of any kind. -/
theorem walk_walks (hlimit : limits.maxUnsure ≤ 62) (hc : c.Sound limits) (arena : Arena)
    (root : NodeId) :
    Walks limits arena c (walk arena root) := by
  have h := walkAt_walks hlimit arena (c.limits.room 0) root hc
  rw [← hc.limits_eq] at h ⊢
  exact .bind h

theorem evaluate_meets (hlimit : limits.maxUnsure ≤ 62) (hc : c.Sound limits) (arena : Arena)
    (id : NodeId) (depth : Nat) :
    Work.Meets c (evaluate arena id depth) (fun v t => Advances limits c t ∧ v.Fits t.store.atoms)
      (fun e t => Advances limits c t ∧ arena.Blames e) := by
  have h := withAtoms_meets hc (evaluateAt_evaluates hlimit arena (limits.room depth) id
    hc.atoms_le hc.values)
  rw [← hc.limits_eq] at h ⊢
  exact .bind h

end Walks

/-! ## 4. Sessions -/

/-- Something that is asked of a context. -/
inductive Call where
  | walk (arena : Arena) (root : NodeId)
  | evaluate (arena : Arena) (id : NodeId) (depth : Nat)

/-- Carries out a call. Only an evaluation gives a value. -/
def Call.answer : Call → Work Context (Option Value)
  | .walk arena root => do
    Context.walk arena root
    return none
  | .evaluate arena id depth => do
    return some (← Context.evaluate arena id depth)

/-- The context after a call, whether it has succeeded or failed. -/
def Call.after (c : Context) (call : Call) : Context :=
  match call.answer.run c with
  | .ok _ t => t
  | .error _ t => t

/-- The context after calls one after another. -/
def session (c : Context) (calls : List Call) : Context := calls.foldl Call.after c

section Sessions

variable {limits : Limits} {c : Context}

theorem Call.answer_meets (hlimit : limits.maxUnsure ≤ 62) (hc : c.Sound limits) (call : Call) :
    Work.Meets c call.answer (fun v t => Advances limits c t ∧ ∀ u ∈ v, u.Fits t.store.atoms)
      (fun _ t => Advances limits c t) := by
  cases call with
  | walk arena root =>
      exact (walk_walks hlimit hc arena root).seq (fun _ t ht => ⟨ht, nofun⟩) fun _ _ he => he.1
  | evaluate arena id depth =>
      refine (evaluate_meets hlimit hc arena id depth).seq (fun v t ht => ⟨ht.1, ?_⟩)
        fun _ _ he => he.1
      rintro u ⟨⟩
      exact ht.2

theorem Call.after_advances (hlimit : limits.maxUnsure ≤ 62) (hc : c.Sound limits) (call : Call) :
    Advances limits c (call.after c) := by
  have h := call.answer_meets hlimit hc
  unfold Call.after
  cases hrun : call.answer.run c with
  | ok v t => exact (h.of_ok hrun).1
  | error e t => exact h.of_error hrun

theorem session_advances (hlimit : limits.maxUnsure ≤ 62) (hc : c.Sound limits)
    (calls : List Call) : Advances limits c (session c calls) := by
  induction calls generalizing c with
  | nil => exact hc.advances
  | cons call calls ih =>
      have hnext := call.after_advances hlimit hc
      exact hnext.trans (ih hnext.sound)

end Sessions

/-- **What holds throughout a session.** From a new context, after any calls, whether they have
succeeded or failed: every value in the store is regular and has at most one row for each assignment
of the atoms, and there are no more atoms than are allowed. Whatever is called next does not take
atoms back, and a value that it gives is regular and has at most one row for each assignment of the
atoms that there are then. -/
theorem session_sound {limits : Limits} {journal : Journal} (hlimit : limits.maxUnsure ≤ 62)
    (calls : List Call) (next : Call) :
    (∀ entry ∈ (session { limits, journal } calls).store.bindings, entry.2.Regular
        ∧ entry.2.rows.length ≤ 2 ^ (session { limits, journal } calls).store.atoms)
      ∧ (session { limits, journal } calls).store.atoms ≤ limits.maxUnsure
      ∧ (session { limits, journal } calls).store.atoms
        ≤ (session { limits, journal } (calls ++ [next])).store.atoms
      ∧ ∀ v c, next.answer.run (session { limits, journal } calls) = .ok (some v) c →
        v.Regular ∧ v.rows.length ≤ 2 ^ c.store.atoms := by
  have hstart : Sound limits { limits, journal } := ⟨rfl, Nat.zero_le _, nofun⟩
  obtain ⟨hsound, -⟩ := session_advances hlimit hstart calls
  refine ⟨fun entry hentry => ?_, hsound.atoms_le, ?_, fun v c hrun => ?_⟩
  · have hfits := hsound.values entry hentry
    exact ⟨entry.2.regular_iff.mpr hfits.wellFormed, hfits.length_le⟩
  · unfold session
    rw [List.foldl_append]
    exact (next.after_advances hlimit hsound).atoms_le
  · have hfits := ((next.answer_meets hlimit hsound).of_ok hrun).2 v rfl
    exact ⟨v.regular_iff.mpr hfits.wellFormed, hfits.length_le⟩

/-- The statement `def x as (U or U);` with one `U` for both operands. -/
def sharedOperand : Arena where
  nodes := #[⟨.identifier, .inert, ⟨4, 5⟩, 1, .leaf "x"⟩,
    ⟨.valVar, .left, ⟨4, 5⟩, 1, .branch (some 0) none⟩,
    ⟨.operand, .makeUnsure, ⟨10, 11⟩, 1, .leaf "U"⟩,
    ⟨.operand, .disjoin, ⟨10, 11⟩, 1, .branch (some 2) (some 2)⟩,
    ⟨.statement, .assign, ⟨0, 12⟩, 1, .branch (some 1) (some 3)⟩]

/-- With three atoms the statement is carried out once. The second time it fails, and has taken an
atom that no value in the store has heard of. -/
theorem session_sound_exhausted :
    ∃ v c, (Call.evaluate sharedOperand 1 0).answer.run
        (session { limits := ⟨256, 3⟩ } [.walk sharedOperand 4, .walk sharedOperand 4])
          = .ok (some v) c
      ∧ c.store.atoms = 3 ∧ v = .table [true, true, true, false] ∧ v.Regular
      ∧ v.rows.length ≤ 2 ^ 3 := by
  have hanswer : (match (Call.evaluate sharedOperand 1 0).answer.run
      (session { limits := ⟨256, 3⟩ } [.walk sharedOperand 4, .walk sharedOperand 4]) with
      | .ok v c => (v, c.store.atoms)
      | .error _ _ => (none, 0)) = (some (.table [true, true, true, false]), 3) := by
    decide +kernel
  split at hanswer
  · rename_i v c hrun
    simp only [Prod.mk.injEq] at hanswer
    obtain ⟨rfl, hatoms⟩ := hanswer
    obtain ⟨-, -, -, hvalue⟩ := @session_sound ⟨256, 3⟩ {} (by decide)
      [.walk sharedOperand 4, .walk sharedOperand 4] (.evaluate sharedOperand 1 0)
    obtain ⟨hregular, hlength⟩ := hvalue _ c hrun
    exact ⟨_, c, hrun, hatoms, rfl, hregular, hatoms ▸ hlength⟩
  · cases hanswer

end Context

end Trivalent
