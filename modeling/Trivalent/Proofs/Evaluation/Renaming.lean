import Mathlib.Logic.Equiv.Basic
import Trivalent.Program
import Trivalent.Proofs.Parse.Renaming
import Trivalent.Proofs.Store.Order
import Trivalent.Proofs.Work

/-!
# Running programs under other names

A walk uses a name to write a value and to read it again, and to say which name has no value. Under
other names it does the same, as long as no two names become one.

* `Failure.renamed` -- a failure in terms of the new names; only an unknown variable is reported by
  its name;
* `Store.renamed`, `Store.Renames` -- the same values under the new names, and as many atoms;
* `evaluateAt_renamed`, `Context.walk_renamed` -- an evaluation and a walk under other names;
* `Context.run_renamed` -- **names matter up to renaming only**: scanned leaves whose identifiers
  are renamed are parsed to the renamed tree, which is walked to the renamed store.
-/

namespace Trivalent

/-! ## 1. Failures and stores under other names -/

/-- What is wrong, in terms of the new names. -/
def Problem.renamed (ρ : String → String) : Problem → Problem
  | .unknownVariable name => .unknownVariable (ρ name)
  | problem => problem

/-- A failure in terms of the new names. -/
def Failure.renamed (ρ : String → String) : Failure → Failure
  | .diagnostic d => .diagnostic { d with problem := d.problem.renamed ρ }
  | .fault f => .fault f

/-- A store with other names for its values. -/
def Store.renamed (ρ : String → String) (store : Store) : Store :=
  { store with bindings := store.bindings.renamed ρ }

/-- The second store is the first one under other names: each of its values is that of an old
name. -/
def Store.Renames (ρ : String → String) (store store' : Store) : Prop :=
  store' = store.renamed ρ ∧ ∀ asked value,
    store'.get? asked = some value ↔ ∃ name, ρ name = asked ∧ store.get? name = some value

section Settled

variable {σ : Type} (ρ : String → String) (node : Node)

theorem Node.child_renamed (side : Side) :
    ((node.renamed ρ).child side : Work σ NodeId) = node.child side := by
  have hchild : (node.renamed ρ).child? side = node.child? side := by
    cases side with
    | left => exact node.left?_renamed ρ
    | right => exact node.right?_renamed ρ
  unfold child
  rw [hchild]
  rfl

theorem Node.child_settled (side : Side) :
    Work.Settled (Failure.renamed ρ) (node.child side : Work σ NodeId) fun _ => True := by
  rcases node.child_cases (σ := σ) side with ⟨id, -, hchild⟩ | ⟨-, hchild⟩
  · rw [hchild]
    exact .pure trivial
  · rw [hchild]
    exact .throw rfl

/-- Going one level down fails on both sides or on neither. -/
theorem Limits.descend_parallel {α : Type} {ρ : String → String} {R : σ → σ → Prop} {s t : σ}
    (hR : R s t) {limits : Limits} {room : Nat} {work other : Work σ α} {P : α → σ → Prop}
    (h : Work.Parallel R (Failure.renamed ρ) s t work other P) :
    Work.Parallel R (Failure.renamed ρ) s t (limits.descend room work)
      (limits.descend room other) P := by
  unfold descend
  by_cases hword : maxWord ≤ limits.maxDepth - room
  · rw [if_pos hword, if_pos hword]
    exact .throw hR rfl
  · rw [if_neg hword, if_neg hword]
    exact h

end Settled

section Renamed

variable {ρ : String → String} {names : Set String} {arena : Arena}

/-- A variable has the name of the identifier below it, or there is none. -/
theorem variableName_renamed {σ : Type} (h : arena.Named names) {id : NodeId} {node : Node}
    (hget : arena.get? id = some node) (hsymbol : node.symbol = .valVar) :
    (∃ name ∈ names, (variableName arena node : Work σ String) = pure name
        ∧ (variableName (arena.renamed ρ) (node.renamed ρ) : Work σ String) = pure (ρ name))
      ∨ ((variableName arena node : Work σ String) = node.report (.nameless node.symbol)
        ∧ (variableName (arena.renamed ρ) (node.renamed ρ) : Work σ String)
          = node.report (.nameless node.symbol)) := by
  -- the name is looked up in the way in which a declaration looks it up
  have hlookup : ∀ (a : Arena) (n : Node), (variableName a n : Work σ String)
      = Workspace.declaredName? a n
        >>= fun name => name.elim (n.report (.nameless n.symbol)) pure := by
    intro a n
    unfold variableName Workspace.declaredName?
    cases n.left? with
    | none => rfl
    | some child =>
        simp only [bind_assoc, pure_bind]
        congr
        funext m
        cases m.literal? <;> rfl
  obtain ⟨name, hknown, hdeclared, hrenamed⟩ :=
    @Workspace.declaredName?_renamed ρ names σ _ h _ _ hget hsymbol
  rw [hlookup, hlookup, hdeclared, hrenamed, pure_bind, pure_bind]
  cases name with
  | none => exact .inr ⟨rfl, rfl⟩
  | some name => exact .inl ⟨name, hknown name rfl, rfl, rfl⟩

/-! ## 2. Expressions -/

/-- Both computations come to the same result with as many atoms, or to the same failure in terms of
the new names. -/
def Echoes (ρ : String → String) {α : Type} (n : Nat) (work other : Work Nat α) : Prop :=
  Work.Parallel Eq (Failure.renamed ρ) n n work other fun _ _ => True

variable {limits : Limits} {bindings : Bindings}

theorem readVariable_renamed (hρ : Set.InjOn ρ names) (h : arena.Named names)
    (hbindings : bindings.Within names) {id : NodeId} {node : Node}
    (hget : arena.get? id = some node) (hsymbol : node.symbol = .valVar) (n : Nat) :
    Echoes ρ n (readVariable arena bindings node)
      (readVariable (arena.renamed ρ) (bindings.renamed ρ) (node.renamed ρ)) := by
  unfold readVariable
  rcases @variableName_renamed ρ _ _ Nat h _ _ hget hsymbol with
    ⟨name, hname, hold, hnew⟩ | ⟨hold, hnew⟩
  · rw [hold, hnew, pure_bind, pure_bind, Bindings.get?_renamed hρ hbindings hname]
    cases bindings.get? name with
    | none => exact .throw rfl rfl
    | some value => exact .pure rfl trivial
  · rw [hold, hnew]
    exact .throw rfl rfl

theorem freshAtom_echoes (node : Node) (n : Nat) :
    Echoes ρ n (freshAtom limits node) (freshAtom limits (node.renamed ρ)) := by
  refine .get ?_
  by_cases hfull : limits.maxUnsure ≤ n
  · rw [if_pos hfull, if_pos hfull]
    exact .throw rfl rfl
  · rw [if_neg hfull, if_neg hfull]
    show Work.Parallel _ _ (n + 1) (n + 1) _ _ _
    refine .get ?_
    cases Value.atom (n + 1) with
    | ok value => exact .pure rfl trivial
    | error fault => exact .throw rfl rfl

/-- Two operands, the left one first. -/
theorem join_echoes {below below' : NodeId → Work Nat Value}
    (h : ∀ child n, Echoes ρ n (below child) (below' child)) (join : Value → Value → Value)
    (node : Node) (n : Nat) :
    Echoes ρ n
      (do
        let left ← below (← node.child .left)
        let right ← below (← node.child .right)
        return join left right)
      (do
        let left ← below' (← node.child .left)
        let right ← below' (← node.child .right)
        return join left right) := by
  refine (node.child_settled ρ .left).parallel rfl fun l _ => ?_
  refine (h l n).bind ?_
  rintro left m _ rfl _
  refine (node.child_settled ρ .right).parallel rfl fun r _ => ?_
  refine (h r m).bind ?_
  rintro right k _ rfl _
  exact .pure rfl trivial

/-- **An expression has the same value under other names**, or fails in the same way. -/
theorem evaluateAt_renamed (hρ : Set.InjOn ρ names) (h : arena.Named names)
    (hbindings : bindings.Within names) (limits : Limits) (room : Nat) :
    ∀ (id : NodeId) (n : Nat), Echoes ρ n (evaluateAt limits arena bindings room id)
      (evaluateAt limits (arena.renamed ρ) (bindings.renamed ρ) room id) := by
  induction room with
  | zero =>
      intro id n
      rw [evaluateAt, evaluateAt, Arena.fetch_renamed, bind_assoc]
      refine (arena.fetch_settled (fun _ => rfl) id).parallel rfl fun node _ => ?_
      exact .throw rfl rfl
  | succ room ih =>
      intro id n
      rw [evaluateAt, evaluateAt, Arena.fetch_renamed, bind_assoc]
      refine (arena.fetch_settled (fun _ => rfl) id).parallel rfl fun node hnode => ?_
      have hbelow : ∀ (child : NodeId) (n : Nat),
          Echoes ρ n (limits.descend room (evaluateAt limits arena bindings room child))
            (limits.descend room
              (evaluateAt limits (arena.renamed ρ) (bindings.renamed ρ) room child)) :=
        fun child n => Limits.descend_parallel rfl (ih child n)
      simp only [pure_bind, Node.symbol_renamed, Node.action_renamed, Node.child_renamed]
      by_cases hvar : node.symbol = .valVar
      · rw [if_pos hvar, if_pos hvar]
        exact readVariable_renamed hρ h hbindings hnode hvar n
      · rw [if_neg hvar, if_neg hvar]
        cases node.action with
        | makeTrue => exact .pure rfl trivial
        | makeFalse => exact .pure rfl trivial
        | makeUnsure => exact freshAtom_echoes node n
        | left => exact (node.child_settled ρ .left).parallel rfl fun l _ => hbelow l n
        | negate =>
            refine (node.child_settled ρ .left).parallel rfl fun l _ => ?_
            refine (hbelow l n).bind ?_
            rintro value m _ rfl _
            exact .pure rfl trivial
        | disjoin => exact join_echoes hbelow Value.or node n
        | conjoin => exact join_echoes hbelow Value.and node n
        | _ => exact .throw rfl rfl

/-! ## 3. Statements -/

namespace Context

/-- The second context has the store of the first one under other names, and the same limits. Their
journals may differ in any way. -/
structure Renamed (ρ : String → String) (names : Set String) (c c' : Context) : Prop where
  store : c'.store = c.store.renamed ρ
  limits : c'.limits = c.limits
  within : c.store.bindings.Within names

/-- Both walks succeed, or both fail, the second one in terms of the new names; and they leave
contexts that differ in names and journals only. -/
def Follows (ρ : String → String) (names : Set String) (c c' : Context) {α : Type}
    (work other : Work Context α) : Prop :=
  Work.Parallel (Renamed ρ names) (Failure.renamed ρ) c c' work other fun _ _ => True

variable {c c' : Context}

theorem Renamed.bindings_eq (h : Renamed ρ names c c') :
    c'.store.bindings = c.store.bindings.renamed ρ := by
  rw [h.store]
  rfl

theorem withAtoms_renamed (h : Renamed ρ names c c') {α : Type} {work other : Work Nat α}
    (hwork : Echoes ρ c.store.atoms work other) :
    Follows ρ names c c' (withAtoms work) (withAtoms other) := by
  have hatoms : c'.store.atoms = c.store.atoms := by rw [h.store]; rfl
  have hleft : ∀ n, Renamed ρ names { c with store.atoms := n } { c' with store.atoms := n } := by
    refine fun n => ⟨?_, h.limits, h.within⟩
    simp only [h.bindings_eq]
    rfl
  unfold Echoes Work.Parallel EStateM.run at hwork
  unfold Follows Work.Parallel withAtoms EStateM.run
  simp only [hatoms]
  cases hw : work c.store.atoms with
  | ok a n =>
      rw [hw] at hwork
      obtain ⟨_, _, hother, rfl, rfl, -⟩ := hwork.of_ok
      rw [hother]
      exact ⟨rfl, hleft _, trivial⟩
  | error e n =>
      rw [hw] at hwork
      obtain ⟨_, _, hother, rfl, rfl⟩ := hwork.of_error
      rw [hother]
      exact ⟨rfl, hleft _⟩

theorem assign_renamed (hρ : Set.InjOn ρ names) (h : Renamed ρ names c c') {name : String}
    (hname : name ∈ names) (value : Value) :
    Follows ρ names c c' (assign name value) (assign (ρ name) value) := by
  refine ⟨rfl, ⟨?_, h.limits, h.within.insert hname value⟩, trivial⟩
  show c'.store.assign (ρ name) value = (c.store.assign name value).renamed ρ
  rw [h.store]
  unfold Store.assign Store.renamed
  rw [Bindings.renamed_insert hρ h.within hname]

theorem walkAssignment_renamed (hρ : Set.InjOn ρ names) (harena : arena.Named names)
    (h : Renamed ρ names c c') (room : Nat) (node : Node) :
    Follows ρ names c c' (walkAssignment limits arena room node)
      (walkAssignment limits (arena.renamed ρ) room (node.renamed ρ)) := by
  unfold walkAssignment
  rw [Node.child_renamed]
  refine (node.child_settled ρ .left).parallel h fun l _ => ?_
  rw [Arena.fetch_renamed, bind_assoc]
  refine (arena.fetch_settled (fun _ => rfl) l).parallel h fun target htarget => ?_
  rw [pure_bind, Node.symbol_renamed]
  by_cases hvar : target.symbol ≠ .valVar
  · rw [if_pos hvar, if_pos hvar]
    exact .throw h rfl
  · rw [if_neg hvar, if_neg hvar]
    rcases @variableName_renamed ρ _ _ Context harena _ _ htarget (not_not.mp hvar) with
      ⟨name, hname, hold, hnew⟩ | ⟨hold, hnew⟩
    · rw [hold, hnew, pure_bind, pure_bind, Node.child_renamed]
      refine (node.child_settled ρ .right).parallel h fun r _ => .get ?_
      simp only [h.bindings_eq]
      have hvalue := withAtoms_renamed h (evaluateAt_renamed hρ harena h.within limits room r _)
      refine (Limits.descend_parallel h hvalue).bind fun value d d' hd _ => ?_
      exact assign_renamed hρ hd hname value
    · rw [hold, hnew]
      exact .throw h rfl

theorem spine_renamed {σ : Type} (length : Nat) :
    ∀ (first : NodeId) (later : List NodeId),
      (spine (arena.renamed ρ) length first later : Work σ (List NodeId))
        = spine arena length first later := by
  induction length with
  | zero => exact fun first later => rfl
  | succ length ih =>
      intro first later
      simp only [spine, Arena.fetch_renamed, bind_assoc, pure_bind, Node.action_renamed,
        Node.child_renamed, ih]

theorem spine_settled {σ : Type} (length : Nat) :
    ∀ (first : NodeId) (later : List NodeId),
      Work.Settled (Failure.renamed ρ) (spine arena length first later : Work σ (List NodeId))
        fun _ => True := by
  induction length with
  | zero => exact fun first later => .throw rfl
  | succ length ih =>
      intro first later
      unfold spine
      refine (arena.fetch_settled (fun _ => rfl) first).bind fun node _ => ?_
      by_cases hboth : node.action = .both
      · rw [if_pos hboth]
        refine (node.child_settled ρ .right).bind fun r _ => ?_
        exact (node.child_settled ρ .left).bind fun l _ => ih l _
      · rw [if_neg hboth]
        exact .pure trivial

theorem blockParts_renamed {σ : Type} (node : Node) :
    (blockParts (arena.renamed ρ) (node.renamed ρ) : Work σ (List NodeId))
      = blockParts arena node := by
  simp only [blockParts, Node.child_renamed, spine_renamed,
    Arena.size_renamed]

theorem blockParts_settled {σ : Type} (node : Node) :
    Work.Settled (Failure.renamed ρ) (blockParts arena node : Work σ (List NodeId))
      fun _ => True := by
  refine (node.child_settled ρ .right).bind fun r _ => ?_
  exact (node.child_settled ρ .left).bind fun l _ => spine_settled _ l _

/-- All that is walked at one depth, where the walks further down keep together. -/
theorem walkLevel_renamed (hρ : Set.InjOn ρ names) (harena : arena.Named names) (room : Nat)
    {deeper deeper' : NodeId → Work Context Unit}
    (hdeeper : ∀ child c c', Renamed ρ names c c' →
      Follows ρ names c c' (deeper child) (deeper' child))
    (blocks : Nat) :
    ∀ (id : NodeId) (c c' : Context), Renamed ρ names c c' →
      Follows ρ names c c' (walkLevel limits arena room deeper blocks id)
        (walkLevel limits (arena.renamed ρ) room deeper' blocks id) := by
  induction blocks with
  | zero => exact fun id c c' h => .throw h rfl
  | succ blocks ih =>
      intro id c c' h
      unfold walkLevel
      rw [Arena.fetch_renamed, bind_assoc]
      refine (arena.fetch_settled (fun _ => rfl) id).parallel h fun node _ => ?_
      rw [pure_bind, Node.action_renamed]
      cases node.action with
      | both =>
          show Follows ρ names c c' (blockParts arena node >>= _)
            (blockParts (arena.renamed ρ) (node.renamed ρ) >>= _)
          rw [blockParts_renamed]
          exact (blockParts_settled node).parallel h fun parts _ => .forM parts ih h
      | left =>
          show Follows ρ names c c' (node.child .left >>= _) ((node.renamed ρ).child .left >>= _)
          rw [Node.child_renamed]
          exact (node.child_settled ρ .left).parallel h fun l _ => hdeeper l c c' h
      | right =>
          show Follows ρ names c c' (node.child .right >>= _) ((node.renamed ρ).child .right >>= _)
          rw [Node.child_renamed]
          exact (node.child_settled ρ .right).parallel h fun r _ => hdeeper r c c' h
      | assign => exact walkAssignment_renamed hρ harena h room node
      | _ => exact .throw h rfl

theorem walkAt_renamed (hρ : Set.InjOn ρ names) (harena : arena.Named names) (room : Nat) :
    ∀ (id : NodeId) (c c' : Context), Renamed ρ names c c' →
      Follows ρ names c c' (walkAt limits arena room id)
        (walkAt limits (arena.renamed ρ) room id) := by
  induction room with
  | zero =>
      intro id c c' h
      unfold walkAt
      rw [Arena.fetch_renamed, bind_assoc]
      refine (arena.fetch_settled (fun _ => rfl) id).parallel h fun node _ => ?_
      exact .throw h rfl
  | succ room ih =>
      intro id c c' h
      unfold walkAt blockBound
      rw [Arena.size_renamed]
      refine walkLevel_renamed hρ harena room (fun child d d' hd => ?_) _ id c c' h
      exact Limits.descend_parallel hd (ih child d d' hd)

/-- **A walk under other names does the same**, or fails in the same way. -/
theorem walk_renamed (hρ : Set.InjOn ρ names) (harena : arena.Named names)
    (h : Renamed ρ names c c') (root : NodeId) :
    Follows ρ names c c' (walk arena root) (walk (arena.renamed ρ) root) := by
  refine .get ?_
  simp only [h.limits]
  exact walkAt_renamed hρ harena _ root c c' h

end Context

end Renamed

/-! ## 4. Programs -/

namespace Context

/-- A walk from an empty store leaves the renamed store, whatever the journals. -/
theorem walk_empty_renamed {ρ : String → String} {names : Set String} (hρ : Set.InjOn ρ names)
    {arena : Arena} (harena : arena.Named names) (root : NodeId) (limits : Limits)
    (journal journal' : Journal) :
    Alike (fun _ c _ c' => c.store.Renames ρ c'.store)
      (fun e c e' c' => e' = e.renamed ρ ∧ c.store.Renames ρ c'.store)
      ((walk arena root).run { limits, journal })
      ((walk (arena.renamed ρ) root).run { limits, journal := journal' }) := by
  have hstart : Renamed ρ names { limits, journal } { limits, journal := journal' } :=
    ⟨rfl, rfl, nofun⟩
  have hrenames : ∀ {c c' : Context}, Renamed ρ names c c' → c.store.Renames ρ c'.store := by
    intro c c' h
    refine ⟨h.store, fun asked value => ?_⟩
    rw [h.store]
    exact Bindings.get?_renamed_eq_some hρ h.within
  refine Alike.mono (walk_renamed hρ harena hstart root) ?_ ?_
  · exact fun _ c _ c' ⟨_, h, _⟩ => hrenames h
  · exact fun e c e' c' ⟨he, h⟩ => ⟨he, hrenames h⟩

/-- **Names matter up to renaming only.** Let the identifiers of a scanned source be given other
names, no two of them the same. Then the parse comes to the same root or to the same failure, and it
leaves the renamed arena and the renamed list of bound names. From an empty store, under any limits,
the walk of the renamed tree leaves the renamed store, with the same values and as many atoms; and
if the one walk fails, so does the other one, with the same failure in terms of the new names. -/
theorem run_renamed {source : String} {leaves : List Node} (htokens : tokenize source = .ok leaves)
    {ρ : String → String} (hρ : Set.InjOn ρ {name | ∃ n ∈ leaves, n.isIdentifier name})
    (journal journal' : Journal) :
    Alike
      (fun root w root' w' => root' = root ∧ w'.arena = w.arena.renamed ρ ∧ w'.bound = w.bound.map ρ
        ∧ ∀ limits journal journal',
          Alike (fun _ c _ c' => c.store.Renames ρ c'.store)
            (fun e c e' c' => e' = e.renamed ρ ∧ c.store.Renames ρ c'.store)
            ((walk w.arena root).run { limits, journal })
            ((walk w'.arena root').run { limits, journal := journal' }))
      (fun e w e' w' => e' = e ∧ w'.arena = w.arena.renamed ρ ∧ w'.bound = w.bound.map ρ)
      (parse leaves journal) (parse (leaves.map (Node.renamed ρ)) journal') := by
  refine (parse_renamed (tokenize_genuine htokens) hρ journal journal').mono ?_ ?_
  · rintro root w _ w' ⟨rfl, hw⟩
    refine ⟨rfl, hw.arena, hw.bound, fun limits journal journal' => ?_⟩
    rw [hw.arena]
    exact walk_empty_renamed hρ hw.named _ limits journal journal'
  · rintro e w _ w' ⟨rfl, hw⟩
    exact ⟨rfl, hw.arena, hw.bound⟩

/-- Three names of which two change places. The third statement fails, and the bindings that are
left come in another order. -/
theorem run_renamed_swapped :
    ∃ leaves root w c, tokenize "def val a as U; def val b as T; def a as a or val c;" = .ok leaves
      ∧ parse (leaves.map (Node.renamed (Equiv.swap "a" "c"))) {} = .ok root w
      ∧ w.bound = ["c", "b", "a"]
      ∧ (walk w.arena root).run {}
        = .error (.diagnostic ⟨.unknownVariable "a", some ⟨50, 51⟩, 1⟩) c
      ∧ c.store = ⟨[("b", .const true), ("c", .table [true, false])], 1⟩ := by
  have hcomputed : ((tokenize "def val a as U; def val b as T; def a as a or val c;").toOption.bind
      fun leaves => (Work.succeeded (parse leaves {})).bind
        fun p => (Work.failed ((walk p.2.arena p.1).run {})).map
          fun q => (p.2.bound, q.1, q.2.store))
      = some (["a", "b", "c"], .diagnostic ⟨.unknownVariable "c", some ⟨50, 51⟩, 1⟩,
          ⟨[("a", .table [true, false]), ("b", .const true)], 1⟩) := by
    decide +kernel
  obtain ⟨leaves, htokens, hcomputed⟩ := Option.bind_eq_some_iff.mp hcomputed
  obtain ⟨⟨root, w⟩, hparse, hcomputed⟩ := Option.bind_eq_some_iff.mp hcomputed
  obtain ⟨⟨e, c⟩, hwalk, hcomputed⟩ := Option.map_eq_some_iff.mp hcomputed
  simp only [Prod.mk.injEq] at hcomputed
  obtain ⟨hbound, rfl, hstore⟩ := hcomputed
  have htokens := Work.eq_ok_of_toOption htokens
  have h := run_renamed htokens (Equiv.swap "a" "c").injective.injOn {} {}
  rw [Work.eq_ok_of_succeeded hparse] at h
  obtain ⟨_, w', hparse', rfl, -, hbound', hwalks⟩ := h.of_ok
  have hwalks := hwalks {} {} {}
  rw [Work.eq_error_of_failed hwalk] at hwalks
  obtain ⟨_, c', hwalk', rfl, hstore', -⟩ := hwalks.of_error
  refine ⟨leaves, _, w', c', htokens, hparse', ?_, hwalk', ?_⟩
  · rw [hbound', hbound]
    decide
  · rw [hstore', hstore]
    decide +kernel

end Context

end Trivalent
