import Trivalent.Proofs.Evaluation.Tree
import Trivalent.Proofs.Value.Reading

/-!
# What a program means

Once it is settled which `U` are true, a program is ordinary two-valued logic: a statement gives
its variable the truth of its expression, and a variable has the truth it was given last. The tables
that a run computes say this for all ways to settle the `U` at once. This file fixes

* `Derivation.truth` -- the truth of an expression; `Derivation.execute` -- what a sequence of
  statements leaves behind; neither knows of tables, atoms or limits;
* `unsurePositions` -- the `U` of a source, in source order; `unsureAt` -- the way to settle them
  that belongs to a row number;
* `Derivation.unsureIds` -- the `U` of a tree, from left to right;
  `Run.unsureIds_eq` -- **parsing keeps them and their order**;
* `Shaped.tabulated` -- an expression evaluates to the table of its truth, and takes one atom for
  each `U` in it; `Context.perform_tabulates`, `Context.forM_perform_tabulates` -- the same for a
  statement and along a sequence of statements;
* `Context.run_means` -- **a run leaves exactly the variables that are assigned, each with the table
  of what executing the program gives it**.
-/

namespace Trivalent

open Trivalent.Derivation

/-! ## 1. Two-valued programs -/

namespace Derivation

/-- The truth of an expression, where `env` has the variables and `unsure` settles each `U`. -/
def truth (env : String → Option Bool) (unsure : NodeId → Bool) : Derivation → Option Bool
  | .leaf id node =>
    match node.action with
    | .makeTrue => some true
    | .makeFalse => some false
    | .makeUnsure => some (unsure id)
    | _ => none
  | .unary _ node child =>
    if node.symbol = .valVar then child.node.literal?.bind env
    else
      match node.action with
      | .negate => (child.truth env unsure).map (!·)
      | .left => child.truth env unsure
      | _ => none
  | .binary _ node left right =>
    match node.action with
    | .disjoin => do return (← left.truth env unsure) || (← right.truth env unsure)
    | .conjoin => do return (← left.truth env unsure) && (← right.truth env unsure)
    | _ => none

/-- The variables after a statement. -/
def update (unsure : NodeId → Bool) (env : String → Option Bool) (s : Derivation) :
    String → Option Bool :=
  match s with
  | .binary _ _ target value => fun x =>
    if target.name? = some x then value.truth env unsure else env x
  | _ => env

/-- The variables after a sequence of statements, none of them having a value before. -/
def execute (unsure : NodeId → Bool) (statements : List Derivation) : String → Option Bool :=
  statements.foldl (update unsure) fun _ => none

end Derivation

/-! ## 2. The unsure values of a source -/

/-- Whether a leaf is a `U`. -/
def Node.isUnsure (n : Node) : Bool := n.lexeme? == some Constant.unsure.lexeme

/-- Where the `U` of a source stand among its leaves, in source order. -/
def unsurePositions (leaves : List Node) : List NodeId :=
  (leaves.zipIdx.filter (·.1.isUnsure)).map (·.2)

/-- Settles every `U` by a row number: the first one is true if the lowest bit is zero, the next one
by the next bit, and so on. -/
def unsureAt (leaves : List Node) (i : Nat) (id : NodeId) : Bool :=
  !i.testBit ((unsurePositions leaves).idxOf id)

/-- The `U` of a derivation, from left to right. -/
def Derivation.unsureIds : Derivation → List NodeId
  | .leaf id node => if node.isUnsure then [id] else []
  | .unary _ _ child => child.unsureIds
  | .binary _ _ left right => left.unsureIds ++ right.unsureIds

theorem Shaped.unsureIds_eq_nil {d : Derivation} (h : Shaped d) (hs : d.symbol.isFolded = false) :
    d.unsureIds = [] := by
  obtain ⟨id, node, l, rfl, hlexeme, hgenuine, hsymbol⟩ := h.eq_leaf hs
  have hne : ¬ node.isUnsure := by
    intro heq
    have hl := (eq_of_beq heq).symm.trans hlexeme
    rw [← hsymbol, ← Option.some.inj hl] at hs
    cases hs
  exact if_neg hne

theorem Folds.unsureIds_eq {next : NodeId} {window : List Derivation} {new : Derivation}
    (h : Folds next window new) (hparts : ∀ d ∈ window, Shaped d) :
    new.unsureIds = window.flatMap unsureIds := by
  have hnil : ∀ {d : Derivation} {s : Symbol}, d ∈ window → d.symbol = s → s.isFolded = false →
      d.unsureIds = [] := by
    intro d s hd hs hfolded
    subst hs
    exact (hparts d hd).unsureIds_eq_nil hfolded
  cases h with
  | block hl hr => simp [above, unsureIds]
  | single hs => simp [above, unsureIds]
  | assign hk hv ha hr he =>
      simp [above, unsureIds, hnil _ hk rfl, hnil _ ha rfl, hnil _ he rfl]
  | declare hk hi => simp [above, unsureIds, hnil _ hk rfl]
  | negate hk ha => simp [above, unsureIds, hnil _ hk rfl]
  | group ho ha he => simp [above, unsureIds, hnil _ ho rfl, hnil _ he rfl]
  | lift ha => simp [above, unsureIds]
  | plain c ha hk hb =>
      have hword : c.word.isFolded = false := by cases c <;> rfl
      simp [above, unsureIds, hnil _ hk hword]
  | pair c ho ha hk hb he =>
      have hword : c.word.isFolded = false := by cases c <;> rfl
      simp [above, unsureIds, hnil _ ho rfl, hnil _ hk hword, hnil _ he rfl]

theorem unsureIds_leafRow (leaves : List Node) :
    (leafRow leaves).flatMap unsureIds = unsurePositions leaves := by
  unfold leafRow unsurePositions
  rw [List.mapIdx_eq_zipIdx_map, List.flatMap_map]
  induction leaves.zipIdx with
  | nil => rfl
  | cons entry rest ih =>
      rw [List.flatMap_cons, ih, List.filter_cons]
      unfold unsureIds
      split <;> rfl

/-- **A parse keeps every `U` and their order.** -/
theorem Run.unsureIds_eq {leaves : List Node} {steps : Nat} {names : List String}
    {row : List Derivation} (hgenuine : GenuineLeaves leaves)
    (h : Run .standard .bind steps (leafRow leaves) names row) :
    row.flatMap unsureIds = unsurePositions leaves := by
  obtain ⟨-, heq⟩ := h.flatMap_eq (f := unsureIds) (fun hfold hparts => hfold.unsureIds_eq hparts)
    (fun _ _ _ _ => rfl) (shaped_leafRow hgenuine)
  rw [heq, unsureIds_leafRow]

/-- The numbers given to the `U` of a derivation go on from `n`. -/
def Follow (number : NodeId → Nat) (n : Nat) (ids : List NodeId) : Prop :=
  ids.map number = List.range' n ids.length

theorem follow_append {number : NodeId → Nat} {n : Nat} {a b : List NodeId} :
    Follow number n (a ++ b) ↔ Follow number n a ∧ Follow number (n + a.length) b := by
  unfold Follow
  rw [List.map_append, List.length_append, ← List.range'_append_1]
  refine ⟨fun h => List.append_inj h (by simp), fun ⟨ha, hb⟩ => by rw [ha, hb]⟩

/-- **The `U` of a source are settled by the bits in order.** -/
theorem follow_unsurePositions (leaves : List Node) :
    Follow (unsurePositions leaves).idxOf 0 (unsurePositions leaves) := by
  have hnodup : (unsurePositions leaves).Nodup := by
    have hsub : (unsurePositions leaves).Sublist (leaves.zipIdx.map (·.2)) :=
      List.filter_sublist.map _
    rw [List.zipIdx_map_snd] at hsub
    exact (List.nodup_range' 1).sublist hsub
  refine List.ext_getElem (by simp) fun k hk _ => ?_
  rw [List.getElem_map, List.getElem_range', hnodup.idxOf_getElem]
  omega

/-! ## 3. Expressions -/

/-- A value has the rows of a function of the row number. -/
def Value.Tabulates (v : Value) (t : Nat → Option Bool) : Prop :=
  v.WellFormed ∧ ∀ i, t i = some (v.truthAt i)

namespace Value

theorem Denotes.tabulates {v : Value} {f : Nat → Bool} {t : Nat → Option Bool} (h : v.Denotes f)
    (ht : ∀ i, t i = some (f i)) : v.Tabulates t :=
  ⟨h.1, fun i => by rw [ht, h.2]⟩

theorem Tabulates.denotes {v : Value} {t : Nat → Option Bool} (h : v.Tabulates t) :
    v.Denotes v.truthAt := ⟨h.1, fun _ => rfl⟩

theorem Tabulates.negate {v : Value} {t : Nat → Option Bool} (h : v.Tabulates t) :
    v.negate.Tabulates fun i => (t i).map (!·) :=
  h.denotes.negate.tabulates fun i => by rw [h.2]; rfl

theorem Tabulates.or {v w : Value} {t u : Nat → Option Bool} (hv : v.Tabulates t)
    (hw : w.Tabulates u) : (v.or w).Tabulates fun i => do return (← t i) || (← u i) :=
  (hv.denotes.or hw.denotes).tabulates fun i => by rw [hv.2, hw.2]; rfl

theorem Tabulates.and {v w : Value} {t u : Nat → Option Bool} (hv : v.Tabulates t)
    (hw : w.Tabulates u) : (v.and w).Tabulates fun i => do return (← t i) && (← u i) :=
  (hv.denotes.and hw.denotes).tabulates fun i => by rw [hv.2, hw.2]; rfl

end Value

/-- Variables have the tables of their truths. -/
def Bindings.Tabulates (bindings : Bindings) (env : Nat → String → Option Bool) : Prop :=
  ∀ x v, bindings.get? x = some v → v.Tabulates (env · x)

theorem Work.exists_of_bind {σ α β : Type} {work : Work σ α} {next : α → Work σ β} {s u : σ} {b : β}
    (h : (work >>= next).run s = .ok b u) :
    ∃ a t, work.run s = .ok a t ∧ (next a).run t = .ok b u := by
  rw [EStateM.run_bind] at h
  cases hwork : work.run s with
  | ok a t =>
      rw [hwork] at h
      exact ⟨a, t, rfl, h⟩
  | error e t =>
      rw [hwork] at h
      cases h

/-- An atom that is given out is the next one. -/
theorem freshAtom_ok {limits : Limits} {node : Node} {n n' : Nat} {v : Value}
    (h : (freshAtom limits node).run n = .ok v n') :
    n < limits.maxUnsure ∧ n' = n + 1 ∧ Value.atom (n + 1) = .ok v := by
  unfold freshAtom at h
  obtain ⟨m, t, hget, h⟩ := Work.exists_of_bind h
  cases hget
  split at h
  · cases h
  · rename_i hlt
    obtain ⟨_, t, hmodify, h⟩ := Work.exists_of_bind h
    cases hmodify
    obtain ⟨m, t, hget, h⟩ := Work.exists_of_bind h
    cases hget
    split at h
    · rename_i value hatom
      cases h
      exact ⟨Nat.lt_of_not_le hlt, rfl, hatom⟩
    · cases h

section Expressions

variable {limits : Limits} {bindings : Bindings} {number : NodeId → Nat}
  {env : Nat → String → Option Bool} {room : Nat}

/-- Evaluation gives the table of the truth of an expression, and takes one atom for each `U`. -/
def Derivation.Tabulated (limits : Limits) (bindings : Bindings) (number : NodeId → Nat)
    (env : Nat → String → Option Bool) (room : Nat) (d : Derivation) : Prop :=
  ∀ (n n' : Nat) (v : Value), Follow number n d.unsureIds →
    (d.evaluate limits bindings room).run n = .ok v n' → n' = n + d.unsureIds.length
      ∧ v.Tabulates fun i => d.truth (env i) fun id => !i.testBit (number id)

theorem tabulated_zero (d : Derivation) : d.Tabulated limits bindings number env 0 := by
  intro n n' v _ h
  cases d <;> cases h

theorem tabulated_constant {id : NodeId} {node : Node} (hlimit : limits.maxUnsure ≤ 62)
    {k : Constant} (hlexeme : node.lexeme? = some k.lexeme) :
    (leaf id node).Tabulated limits bindings number env (room + 1) := by
  intro n n' v hnumber h
  have haction := (Node.lexeme?_eq_some hlexeme).2.1
  unfold evaluate at h
  unfold truth
  unfold unsureIds Node.isUnsure at hnumber ⊢
  rw [haction] at h ⊢
  rw [hlexeme] at hnumber ⊢
  rcases k with (_ | _) | _
  · cases h
    exact ⟨rfl, (Value.denotes_const false).tabulates fun _ => rfl⟩
  · cases h
    exact ⟨rfl, (Value.denotes_const true).tabulates fun _ => rfl⟩
  · obtain ⟨hlt, rfl, hatom⟩ := freshAtom_ok h
    have hid : number id = n := List.head_eq_of_cons_eq hnumber
    refine ⟨rfl, (Value.denotes_atom (Nat.succ_pos n) (by omega) hatom).tabulates fun i => ?_⟩
    show some (!i.testBit (number id)) = some (!i.testBit (n + 1 - 1))
    rw [hid, Nat.add_sub_cancel]

theorem tabulated_variable {id : NodeId} {node : Node} {child : Derivation}
    (hbindings : bindings.Tabulates env)
    (hs : node.symbol = .valVar) (hchild : Shaped child) (hi : child.symbol = .identifier) :
    (unary id node child).Tabulated limits bindings number env (room + 1) := by
  intro n n' v _ h
  have hnil : child.unsureIds = [] := hchild.unsureIds_eq_nil (by rw [hi]; rfl)
  unfold evaluate at h
  rw [if_pos hs] at h
  cases hname : child.node.literal? with
  | none => rw [hname] at h; cases h
  | some name =>
      rw [hname] at h
      unfold Node.recall at h
      cases hget : bindings.get? name with
      | none => simp only [hget] at h; cases h
      | some value =>
          simp only [hget] at h
          cases h
          refine ⟨by rw [unsureIds, hnil]; rfl, ?_⟩
          have hvalue := hbindings name v hget
          refine ⟨hvalue.1, fun i => ?_⟩
          have htruth : (unary id node child).truth (env i) (fun id => !i.testBit (number id))
              = env i name := by
            unfold truth
            rw [if_pos hs, hname]
            rfl
          exact htruth.trans (hvalue.2 i)

theorem tabulated_binary {id : NodeId} {node : Node} {left right : Derivation} (c : Connective)
    (ha : node.action = c.action) (hleft : left.Tabulated limits bindings number env room)
    (hright : right.Tabulated limits bindings number env room) :
    (binary id node left right).Tabulated limits bindings number env (room + 1) := by
  intro n n' v hnumber h
  obtain ⟨hl, hr⟩ := follow_append.mp hnumber
  unfold evaluate at h
  obtain ⟨a, t, ha', h⟩ := Work.exists_of_bind h
  obtain ⟨b, u, hb', h⟩ := Work.exists_of_bind h
  obtain ⟨rfl, hta⟩ := hleft _ _ _ hl (Limits.ok_of_descend ha')
  obtain ⟨rfl, htb⟩ := hright _ _ _ hr (Limits.ok_of_descend hb')
  unfold truth unsureIds
  cases c with
  | or =>
      rw [ha] at h ⊢
      cases h
      exact ⟨by rw [List.length_append, Nat.add_assoc], hta.or htb⟩
  | and =>
      rw [ha] at h ⊢
      cases h
      exact ⟨by rw [List.length_append, Nat.add_assoc], hta.and htb⟩

/-- **An expression evaluates to the table of its truth.** -/
theorem Shaped.tabulated (hlimit : limits.maxUnsure ≤ 62)
    (hbindings : bindings.Tabulates env) {d : Derivation}
    (hshaped : Shaped d) (hs : d.symbol.Valued) : d.Tabulated limits bindings number env room := by
  induction hshaped generalizing room with
  | @token id node l lexeme genuine =>
      rw [symbol_leaf, (Node.lexeme?_eq_some lexeme).1] at hs
      obtain ⟨k, rfl⟩ := genuine.exists_constant hs
      cases room with
      | zero => exact tabulated_zero _
      | succ room => exact tabulated_constant hlimit lexeme
  | @occurrence id i name raw child ih =>
      have hi := symbol_of_isIdentifier raw
      cases room with
      | zero => exact tabulated_zero _
      | succ room => exact tabulated_variable hbindings rfl child hi
  | folded fold parts ih =>
      cases room with
      | zero => exact tabulated_zero _
      | succ room =>
          cases fold with
          | @declare k i hk hi => exact tabulated_variable hbindings rfl (parts i (by simp)) hi
          | @negate k a hk ha =>
              intro n n' v hnumber h
              obtain ⟨w, t, hw, hok⟩ := Work.exists_of_bind h
              cases hok
              obtain ⟨hn, ht⟩ := ih a (by simp) (.inl ha) _ _ _ hnumber (Limits.ok_of_descend hw)
              exact ⟨hn, ht.negate⟩
          | @group o a e ho ha he =>
              intro n n' v hnumber h
              exact ih a (by simp) (.inl ha) n n' v hnumber (Limits.ok_of_descend h)
          | @lift a ha =>
              intro n n' v hnumber h
              exact ih a (by simp) (.inl (.inl ha)) n n' v hnumber (Limits.ok_of_descend h)
          | @plain c a k b ha hk hb =>
              exact tabulated_binary c rfl (ih a (by simp) (.inl ha)) (ih b (by simp) (.inl hb))
          | @pair c o a k b e ho ha hk hb he =>
              exact tabulated_binary c rfl (ih a (by simp) (.inl ha)) (ih b (by simp) (.inl hb))
          | _ => rcases hs with (hs | hs) | hs <;> cases hs

end Expressions

/-! ## 4. Statements -/

theorem Shaped.unsureIds_valVar {d : Derivation} (h : Shaped d) (hs : d.symbol = .valVar) :
    d.unsureIds = [] := by
  cases h with
  | @token id node l lexeme genuine =>
      rw [symbol_leaf, (Node.lexeme?_eq_some lexeme).1] at hs
      have hoperand := genuine.symbol_eq_operand (by rw [hs]; rfl)
      rw [hs] at hoperand
      cases hoperand
  | @occurrence id i name raw child =>
      have hi := symbol_of_isIdentifier raw
      exact child.unsureIds_eq_nil (by rw [hi]; rfl)
  | folded fold parts =>
      cases fold with
      | @declare k i hk hi => exact (parts i (by simp)).unsureIds_eq_nil (by rw [hi]; rfl)
      | _ => cases hs

/-- The `U` of a statement are in its expression. -/
theorem Shaped.unsureIds_assignment {id : NodeId} {target value : Derivation} (h : Shaped target)
    (hs : target.symbol = .valVar) :
    (above id .statement .assign target (some value)).unsureIds = value.unsureIds := by
  show target.unsureIds ++ value.unsureIds = _
  rw [h.unsureIds_valVar hs, List.nil_append]

namespace Context

theorem withAtoms_ok {α : Type} {work : Work Nat α} {a : α} {c c' : Context}
    (h : (withAtoms work).run c = .ok a c') :
    ∃ n, work.run c.store.atoms = .ok a n ∧ c' = { c with store.atoms := n } := by
  unfold withAtoms EStateM.run at h
  dsimp only at h
  split at h
  · rename_i b n hwork
    cases h
    exact ⟨n, hwork, rfl⟩
  · cases h

/-- A statement that succeeds evaluates its expression and then assigns the value. -/
theorem perform_ok {limits : Limits} {c c' : Context} {id : NodeId} {target value : Derivation}
    {name : String} (hname : target.name? = some name)
    (h : ((above id .statement .assign target (some value)).perform limits).run c = .ok () c') :
    ∃ room v n, limits.maxDepth = room + 1
      ∧ (value.evaluate limits c.store.bindings room).run c.store.atoms = .ok v n
      ∧ c'.store = { c.store with atoms := n }.assign name v ∧ c'.limits = c.limits := by
  unfold perform at h
  cases hdepth : limits.maxDepth with
  | zero =>
      rw [hdepth] at h
      cases h
  | succ room =>
      rw [hdepth] at h
      simp only [above, hname] at h
      obtain ⟨_, _, hget, h⟩ := Work.exists_of_bind h
      cases hget
      obtain ⟨v, t, hvalue, h⟩ := Work.exists_of_bind h
      obtain ⟨n, hrun, rfl⟩ := withAtoms_ok (Limits.ok_of_descend hvalue)
      cases h
      exact ⟨room, v, n, rfl, hrun, rfl, rfl⟩

section Statements

variable {limits : Limits} {number : NodeId → Nat} {env : Nat → String → Option Bool}
  {c c' : Context}

/-- **A statement does to the tables what it does to the truths.** -/
theorem perform_tabulates (hlimit : limits.maxUnsure ≤ 62) {s : Derivation} (hshaped : Shaped s)
    (hs : s.symbol = .statement) (hstore : c.store.bindings.Tabulates env)
    (hnumber : Follow number c.store.atoms s.unsureIds)
    (h : (s.perform limits).run c = .ok () c') :
    c'.store.atoms = c.store.atoms + s.unsureIds.length
      ∧ (c'.store.bindings.Tabulates fun i => update (fun id => !i.testBit (number id)) (env i) s)
      ∧ ∀ x, (c'.store.get? x).isSome ↔ (c.store.get? x).isSome ∨ s.target? = some x := by
  obtain ⟨id, target, value, name, rfl, htarget, hvar, hname, hvalue, hvalued⟩ :=
    hshaped.exists_assignment hs
  obtain ⟨room, v, n, -, hrun, hstore', -⟩ := perform_ok hname h
  rw [htarget.unsureIds_assignment hvar] at hnumber ⊢
  obtain ⟨rfl, htable⟩ := hvalue.tabulated hlimit hstore hvalued _ _ _ hnumber hrun
  have hget : ∀ x, c'.store.bindings.get? x
      = if x = name then some v else c.store.bindings.get? x := by
    intro x
    rw [hstore']
    exact Bindings.get?_insert _ name v x
  refine ⟨by rw [hstore']; rfl, fun x w hw => ?_, fun x => ?_⟩
  · rw [hget] at hw
    show w.Tabulates fun i => if target.name? = some x then _ else env i x
    by_cases hx : x = name
    · rw [if_pos hx] at hw
      cases hw
      simp only [hx, hname, if_true]
      exact htable
    · rw [if_neg hx] at hw
      have hne : target.name? ≠ some x := fun heq => hx (Option.some.inj (heq.symm.trans hname))
      simp only [if_neg hne]
      exact hstore x w hw
  · show (c'.store.bindings.get? x).isSome
      ↔ (c.store.bindings.get? x).isSome ∨ target.name? = some x
    rw [hget, hname]
    by_cases hx : x = name
    · rw [if_pos hx]
      simp [hx]
    · rw [if_neg hx]
      simp [Ne.symm hx]

/-- **So does a sequence of statements.** -/
theorem forM_perform_tabulates (hlimit : limits.maxUnsure ≤ 62) {ss : List Derivation}
    (hss : ∀ s ∈ ss, Shaped s ∧ s.symbol = .statement) (hstore : c.store.bindings.Tabulates env)
    (hnumber : Follow number c.store.atoms (ss.flatMap unsureIds))
    (h : (ss.forM (perform limits)).run c = .ok () c') :
    (c'.store.bindings.Tabulates fun i =>
        ss.foldl (update fun id => !i.testBit (number id)) (env i))
      ∧ ∀ x, (c'.store.get? x).isSome
        ↔ (c.store.get? x).isSome ∨ ∃ s ∈ ss, s.target? = some x := by
  induction ss generalizing c env with
  | nil =>
      cases h
      exact ⟨hstore, fun x => by simp⟩
  | cons s ss ih =>
      obtain ⟨_, t, hs, hrest⟩ := Work.exists_of_bind h
      -- the first statement takes its atoms, and the numbers of the others go on after them
      obtain ⟨hfirst, hfollow⟩ := follow_append.mp hnumber
      obtain ⟨hshaped, hsymbol⟩ := hss s (by simp)
      obtain ⟨hatoms, htable, hbound⟩ := perform_tabulates hlimit hshaped hsymbol hstore hfirst hs
      rw [← hatoms] at hfollow
      obtain ⟨htables, hbounds⟩ :=
        ih (fun s' hs' => hss s' (List.mem_cons_of_mem s hs')) htable hfollow hrest
      refine ⟨htables, fun x => ?_⟩
      rw [hbounds, hbound]
      simp [or_assoc]

end Statements

end Context

/-! ## 5. Runs -/

theorem Shaped.flatMap_statements {d : Derivation} (h : Shaped d) (hs : d.symbol = .codeBlock) :
    d.statements.flatMap unsureIds = d.unsureIds :=
  h.flatMap_block (fun _ _ => rfl) (fun _ _ _ => rfl) hs

namespace Context

theorem withJournal_ok {α : Type} {parse : Journal → EStateM.Result Failure Workspace α}
    {a : α} {arena : Arena} {c c' : Context} (h : (withJournal parse).run c = .ok (a, arena) c') :
    ∃ w, parse c.journal = .ok a w ∧ arena = w.arena ∧ c' = { c with journal := w.journal } := by
  unfold withJournal EStateM.run at h
  dsimp only at h
  split at h
  · rename_i b w hparse
    cases h
    exact ⟨w, hparse, rfl, rfl⟩
  · cases h

/-- The tree of a source is what its leaves have been parsed to. -/
theorem parseSource_ok {source : String} {tree : Tree} {c c' : Context}
    (h : (parseSource source).run c = .ok tree c') :
    ∃ leaves w, tokenize source = .ok leaves ∧ parse leaves c.journal = .ok tree.root w
      ∧ tree.arena = w.arena ∧ c' = { c with journal := w.journal } := by
  obtain ⟨leaves, u, hscan, hparse⟩ := Work.exists_of_bind h
  obtain ⟨⟨root, arena⟩, u', hjournal, hpure⟩ := Work.exists_of_bind hparse
  cases hpure
  unfold scanSource at hscan
  split at hscan
  · rename_i leaves' htokens
    cases hscan
    obtain ⟨w, hw, rfl, rfl⟩ := withJournal_ok hjournal
    exact ⟨leaves, w, htokens, hw, rfl, rfl⟩
  · cases hscan

/-- A run that succeeds has scanned and parsed its source and has walked the tree. -/
theorem run_ok {source : String} {c c' : Context} (h : (run source).run c = .ok () c') :
    ∃ leaves root w, tokenize source = .ok leaves ∧ parse leaves c.journal = .ok root w
      ∧ (walk w.arena root).run { c with journal := w.journal } = .ok () c' := by
  obtain ⟨tree, t, htree, hwalk⟩ := Work.exists_of_bind h
  obtain ⟨leaves, w, htokens, hparse, harena, rfl⟩ := parseSource_ok htree
  exact ⟨leaves, tree.root, w, htokens, hparse, harena ▸ hwalk⟩

/-- A tree that can be walked is a block: nothing is left to be folded. -/
theorem symbol_eq_codeBlock {arena : Arena} {d : Derivation} {c c' : Context} (hshaped : Shaped d)
    (hholds : arena.Holds d) (hnone : Grammar.standard.find [d.symbol] = none)
    (h : (walk arena d.id).run c = .ok () c') : d.symbol = .codeBlock := by
  obtain ⟨_, _, hget, hwalk⟩ := Work.exists_of_bind h
  cases hget
  rcases symbol_of_walkAt hshaped hholds hwalk with hs | hs
  · exact hs
  · rw [hs] at hnone
    cases hnone

/-- **What a run means.** A run that succeeds leaves exactly the variables that its statements
assign. The table of each of them says, row by row, what two-valued logic makes of the program: the
statements are executed in order, and the `U` of the source, counted in source order, are settled by
the bits of the row number. -/
theorem run_means {source : String} {limits : Limits} {journal : Journal} {c : Context}
    (hlimit : limits.maxUnsure ≤ 62)
    (h : (run source).run { limits, journal } = .ok () c) :
    ∃ leaves root w d, tokenize source = .ok leaves ∧ Token.InOrder leaves
      ∧ parse leaves journal = .ok root w ∧ w.arena.Unfolds root d
      ∧ d.unsureIds = unsurePositions leaves
      ∧ ∀ x, ((c.store.get? x).isSome ↔ ∃ s ∈ d.statements, s.target? = some x)
        ∧ ∀ v, c.store.get? x = some v → v.WellFormed
          ∧ ∀ i, execute (unsureAt leaves i) d.statements x = some (v.truthAt i) := by
  obtain ⟨leaves, root, w, htokens, hparse, hwalk⟩ := run_ok h
  obtain ⟨steps, names, d, hrun, rfl, hgrown, hnone⟩ := parse_ok hparse
  have hgenuine := tokenize_genuine htokens
  have hshaped : Shaped d := (hrun.spells hgenuine).1 d List.mem_cons_self
  have hholds := hgrown.holds d List.mem_cons_self
  have hids : d.unsureIds = unsurePositions leaves :=
    (List.append_nil _).symm.trans (hrun.unsureIds_eq hgenuine)
  have hblock := symbol_eq_codeBlock hshaped hholds hnone hwalk
  rw [walk_eq hshaped hblock hholds] at hwalk
  obtain ⟨_, _, hget, hstatements⟩ := Work.exists_of_bind hwalk
  cases hget
  have hnumber : Follow (unsurePositions leaves).idxOf 0 (d.statements.flatMap unsureIds) := by
    rw [hshaped.flatMap_statements hblock, hids]
    exact follow_unsurePositions leaves
  have hss : ∀ s ∈ d.statements, Shaped s ∧ s.symbol = .statement := by
    intro s hs
    obtain ⟨hs, hsymbol, -⟩ := hshaped.of_mem_statements hholds hs
    exact ⟨hs, hsymbol⟩
  have hempty : Bindings.Tabulates [] fun _ _ => none := nofun
  obtain ⟨htables, hbound⟩ := forM_perform_tabulates hlimit hss hempty hnumber hstatements
  refine ⟨leaves, d.id, w, d, htokens, tokenize_inOrder htokens, hparse, hshaped.unfolds hholds,
    hids, fun x => ⟨?_, ?_⟩⟩
  · rw [hbound]
    exact or_iff_right nofun
  · exact htables x

/-- A variable that is assigned again reads its old value, and the second `U` is another one. -/
theorem run_means_reassigned :
    ∃ c leaves root w d, (run "def val x as U; def x as (x and not U);").run {} = .ok () c
      ∧ tokenize "def val x as U; def x as (x and not U);" = .ok leaves
      ∧ parse leaves {} = .ok root w ∧ w.arena.Unfolds root d
      ∧ ∀ i, execute (unsureAt leaves i) d.statements "x"
        = some (Rows.truthAt [false, false, true, false] i) := by
  have hvalue : (match (run "def val x as U; def x as (x and not U);").run {} with
      | .ok _ c => c.store.get? "x"
      | .error _ _ => none) = some (.table [false, false, true, false]) := by
    decide +kernel
  cases hrun : (run "def val x as U; def x as (x and not U);").run {} with
  | error e c => rw [hrun] at hvalue; cases hvalue
  | ok u c =>
      rw [hrun] at hvalue
      obtain ⟨leaves, root, w, d, htokens, -, hparse, hunfolds, -, hmeans⟩ :=
        run_means (by decide) hrun
      exact ⟨c, leaves, root, w, d, rfl, htokens, hparse, hunfolds, ((hmeans "x").2 _ hvalue).2⟩

end Context

end Trivalent
