import Mathlib.Data.List.Induction
import Trivalent.Proofs.Evaluation.Meaning

/-!
# When a run succeeds

Three things can go wrong when a program is run that has been parsed: a variable has no value, there
are too many `U`, or an expression is nested too deeply. The first of them depends on the program
alone, the others on the limits; each has its own condition, and together they are exact.

* `Derivation.references`, `Derivation.height` -- the variables that an expression reads, and how
  deep it goes;
* `ReadsAssigned`, `FirstUnassigned` -- every variable is assigned before it is read, or there is a
  first one that is not;
* `Limits.Allow` -- the limits suffice for a program;
* `Shaped.expression_induction` -- the five ways to build an expression;
* `Shaped.evaluate_ok`, `Shaped.evaluate_error`, `Shaped.fits_of_evaluate` -- what an evaluation
  gives within the limits, and that one which gives a value was within them;
* `Context.forM_perform_ok`, `Context.forM_perform_error`, `Context.forM_perform_fits` -- the
  same for statements;
* `Context.run_succeeds_iff` -- **a run succeeds exactly if every variable is assigned before it is
  read and the limits suffice**. What it leaves does not depend on the limits, and a run within the
  limits that fails names the first variable that is not assigned.
-/

namespace Trivalent

open Trivalent.Derivation

/-! ## 1. Conditions -/

namespace Derivation

/-- The variables that an expression reads, from left to right. -/
def references : Derivation → List Derivation
  | .leaf _ _ => []
  | .unary id node child =>
    if node.symbol = .valVar then [.unary id node child] else child.references
  | .binary _ _ left right => left.references ++ right.references

/-- The number of edges to the deepest node, where a variable counts as a leaf. -/
def height : Derivation → Nat
  | .leaf _ _ => 0
  | .unary _ node child => if node.symbol = .valVar then 0 else child.height + 1
  | .binary _ _ left right => max left.height right.height + 1

/-- The variables that a statement reads. -/
def reads : Derivation → List Derivation
  | .binary _ _ _ value => value.references
  | _ => []

/-- The height of the expression of a statement. -/
def valueHeight : Derivation → Nat
  | .binary _ _ _ value => value.height
  | _ => 0

end Derivation

/-- Some statement assigns the variable. -/
def AssignedIn (ss : List Derivation) (x : Derivation) : Prop := ∃ t ∈ ss, t.target? = x.name?

instance (ss : List Derivation) (x : Derivation) : Decidable (AssignedIn ss x) :=
  inferInstanceAs (Decidable (∃ t ∈ ss, t.target? = x.name?))

/-- Whatever a statement reads, an earlier one assigns. -/
def ReadsAssigned (ss : List Derivation) : Prop :=
  ∀ before s after, ss = before ++ s :: after → ∀ x ∈ s.reads, AssignedIn before x

/-- The first variable, in the order of the source, that is read and that no earlier statement
assigns. -/
def FirstUnassigned (ss : List Derivation) (x : Derivation) : Prop :=
  ∃ before s after, ss = before ++ s :: after ∧ ReadsAssigned before
    ∧ ∃ xs ys, s.reads = xs ++ x :: ys ∧ (∀ y ∈ xs, AssignedIn before y) ∧ ¬ AssignedIn before x

/-- The limits suffice for a program: for the `U` among its leaves and, whatever the number of
statements, for the deepest node of each expression. Statements are two levels above that. -/
structure Limits.Allow (limits : Limits) (leaves : List Node) (d : Derivation) : Prop where
  atoms : leaves.countP Node.isUnsure ≤ limits.maxUnsure
  depth : ∀ s ∈ d.statements, 2 + s.valueHeight ≤ limits.maxDepth

theorem readsAssigned_append_singleton {ss : List Derivation} {s : Derivation} :
    ReadsAssigned (ss ++ [s]) ↔ ReadsAssigned ss ∧ ∀ x ∈ s.reads, AssignedIn ss x := by
  constructor
  · intro h
    refine ⟨fun before t after hsplit => ?_, h ss s [] rfl⟩
    exact h before t (after ++ [s]) (by rw [hsplit, List.append_assoc]; rfl)
  · rintro ⟨hss, hs⟩ before t after hsplit
    cases after using List.reverseRecOn with
    | nil =>
        obtain ⟨rfl, heq⟩ := List.append_inj' hsplit rfl
        cases heq
        exact hs
    | append_singleton init last =>
        have hsplit : ss ++ [s] = (before ++ t :: init) ++ [last] := by
          rw [hsplit, List.append_assoc]
          rfl
        exact hss before t init (List.append_inj' hsplit rfl).1

/-- Where not everything is assigned before it is read, there is a first variable that is not. -/
theorem readsAssigned_or_firstUnassigned (ss : List Derivation) :
    ReadsAssigned ss ∨ ∃ x, FirstUnassigned ss x := by
  induction ss using List.reverseRecOn with
  | nil => exact .inl fun before s after hsplit => absurd hsplit (by simp)
  | append_singleton ss s ih =>
      rcases ih with hss | ⟨x, before, t, after, rfl, hfirst⟩
      · cases hfind : s.reads.find? fun x => !decide (AssignedIn ss x) with
        | none =>
            refine .inl (readsAssigned_append_singleton.mpr ⟨hss, fun x hx => ?_⟩)
            simpa using List.find?_eq_none.mp hfind x hx
        | some x =>
            obtain ⟨hx, xs, ys, hsplit, hxs⟩ := List.find?_eq_some_iff_append.mp hfind
            refine .inr ⟨x, ss, s, [], rfl, hss, xs, ys, hsplit, fun y hy => ?_, by simpa using hx⟩
            simpa using hxs y hy
      · exact .inr ⟨x, before, t, after ++ [s], by rw [List.append_assoc]; rfl, hfirst⟩

/-! ## 2. Expressions -/

/-- **Expressions are built in five ways.** -/
theorem Shaped.expression_induction {P : Derivation → Prop}
    (constant : ∀ id node (k : Constant), node.lexeme? = some k.lexeme → P (.leaf id node))
    (reference : ∀ id node child name, node.symbol = .valVar → Shaped child →
      child.symbol = .identifier → child.node.literal? = some name → P (.unary id node child))
    (negation : ∀ id node a, node.symbol ≠ .valVar → node.action = .negate → P a →
      P (.unary id node a))
    (passage : ∀ id node a, node.symbol ≠ .valVar → node.action = .left → P a →
      P (.unary id node a))
    (connection : ∀ id node (c : Connective) a b, node.action = c.action → Shaped a →
      a.symbol.Valued → P a → P b → P (.binary id node a b))
    {d : Derivation} (h : Shaped d) (hs : d.symbol.Valued) : P d := by
  have hoperand : Symbol.operand ≠ .valVar := by decide
  have hexpression : Symbol.expression ≠ .valVar := by decide
  have hname : ∀ {i : Derivation}, Shaped i → i.symbol = .identifier →
      ∃ name, i.node.literal? = some name := by
    intro i hi hsymbol
    obtain ⟨id, node, name, rfl, hlexeme⟩ := hi.unparse_identifier hsymbol
    exact ⟨name, (Node.lexeme?_eq_some hlexeme).2.2⟩
  induction h with
  | @token id node l lexeme genuine =>
      rw [symbol_leaf, (Node.lexeme?_eq_some lexeme).1] at hs
      obtain ⟨k, rfl⟩ := genuine.exists_constant hs
      exact constant id node k lexeme
  | @occurrence id i _ raw child ih =>
      have hi := symbol_of_isIdentifier raw
      obtain ⟨name, htext⟩ := hname child hi
      exact reference _ _ i name rfl child hi htext
  | folded fold parts ih =>
      cases fold with
      | @declare k i hk hi =>
          obtain ⟨name, htext⟩ := hname (parts i (by simp)) hi
          exact reference _ _ i name rfl (parts i (by simp)) hi htext
      | @negate k a hk ha => exact negation _ _ a hoperand rfl (ih a (by simp) (.inl ha))
      | @group o a e ho ha he => exact passage _ _ a hoperand rfl (ih a (by simp) (.inl ha))
      | @lift a ha => exact passage _ _ a hexpression rfl (ih a (by simp) (.inl (.inl ha)))
      | @plain c a k b ha hk hb =>
          exact connection _ _ c a b rfl (parts a (by simp)) (.inl ha) (ih a (by simp) (.inl ha))
            (ih b (by simp) (.inl hb))
      | @pair c o a k b e ho ha hk hb he =>
          exact connection _ _ c a b rfl (parts a (by simp)) (.inl ha) (ih a (by simp) (.inl ha))
            (ih b (by simp) (.inl hb))
      | _ => rcases hs with (hs | hs) | hs <;> cases hs

/-- Whether a variable has no value. -/
def Bindings.lacks (bindings : Bindings) (x : Derivation) : Bool :=
  (x.name?.bind bindings.get?).isNone

/-- The limits suffice for an expression where `room` levels are left and `n` atoms are taken. -/
structure Limits.Fit (limits : Limits) (room n : Nat) (d : Derivation) : Prop where
  word : limits.maxDepth ≤ maxWord
  depth : d.height < room
  atoms : n + d.unsureIds.length ≤ limits.maxUnsure

namespace Limits.Fit

variable {limits : Limits} {room n : Nat} {id : NodeId} {node : Node} {a b d : Derivation}

theorem exists_room (h : limits.Fit room n d) : ∃ below, room = below + 1 :=
  Nat.exists_eq_succ_of_ne_zero (Nat.ne_zero_of_lt h.depth)

/-- Where the limits suffice, the depth is no reason not to go on. -/
theorem descend_eq {σ α : Type} (h : limits.Fit room n d) (next : Work σ α) :
    limits.descend room next = next := by
  have hword := h.word
  have hdepth := h.depth
  exact Limits.descend_of_lt (by omega) next

theorem below (h : limits.Fit (room + 1) n (.unary id node a)) (hvar : node.symbol ≠ .valVar) :
    limits.Fit room n a where
  word := h.word
  depth := by
    have hdepth := h.depth
    rw [height, if_neg hvar] at hdepth
    omega
  atoms := h.atoms

theorem left (h : limits.Fit (room + 1) n (.binary id node a b)) : limits.Fit room n a where
  word := h.word
  depth := by
    have hdepth := h.depth
    rw [height] at hdepth
    omega
  atoms := by
    have hatoms := h.atoms
    rw [unsureIds, List.length_append] at hatoms
    omega

theorem right (h : limits.Fit (room + 1) n (.binary id node a b)) :
    limits.Fit room (n + a.unsureIds.length) b where
  word := h.word
  depth := by
    have hdepth := h.depth
    rw [height] at hdepth
    omega
  atoms := by
    have hatoms := h.atoms
    rw [unsureIds, List.length_append] at hatoms
    omega

end Limits.Fit

/-- Within the limit, and as long as its table can be counted, there is a next atom. -/
theorem freshAtom_run {limits : Limits} {n : Nat} (hn : n < limits.maxUnsure) (hle : n + 1 ≤ 62)
    (node : Node) :
    (freshAtom limits node).run n = .ok (.table (Rows.atomRows (2 ^ n))) (n + 1) := by
  unfold freshAtom
  rw [EStateM.run_bind, EStateM.run_get]
  simp only [if_neg (Nat.not_le.mpr hn)]
  unfold nextAtom
  simp only [EStateM.run_bind, EStateM.run_modify, EStateM.run_get,
    Value.atom_eq (Nat.succ_pos n) hle]
  rfl

/-- Beyond the limit there is none, and none is counted. -/
theorem freshAtom_full {limits : Limits} {n : Nat} (hn : limits.maxUnsure ≤ n) (node : Node) :
    (freshAtom limits node).run n
      = .error (.diagnostic ⟨.unsureLimit limits.maxUnsure, some node.span, node.line⟩) n := by
  unfold freshAtom
  rw [EStateM.run_bind, EStateM.run_get]
  simp only [if_pos hn]
  rfl

section Evaluation

variable {limits : Limits} {bindings : Bindings} {id room n : Nat} {node : Node}
  {a b child : Derivation}

/-- What a connective makes of two values. -/
def Connective.join : Connective → Value → Value → Value
  | or => Value.or
  | and => Value.and

theorem unsureIds_constant {k : Constant} (h : node.lexeme? = some k.lexeme) :
    (leaf id node).unsureIds = if k = .unsure then [id] else [] := by
  unfold unsureIds Node.isUnsure
  rw [h]
  rcases k with (_ | _) | _ <;> rfl

theorem evaluate_constant {k : Constant} (h : node.lexeme? = some k.lexeme) :
    (leaf id node).evaluate limits bindings (room + 1)
      = match k with
        | .certain truth => pure (.const truth)
        | .unsure => freshAtom limits node := by
  unfold evaluate
  rw [(Node.lexeme?_eq_some h).2.1]
  rcases k with (_ | _) | _ <;> rfl

theorem evaluate_reference (hvar : node.symbol = .valVar) :
    (unary id node child).evaluate limits bindings (room + 1)
      = node.recall bindings child.node.literal? := by
  unfold evaluate
  rw [if_pos hvar]

theorem evaluate_negation (hvar : node.symbol ≠ .valVar) (haction : node.action = .negate) :
    (unary id node a).evaluate limits bindings (room + 1) = (do
      return (← limits.descend room (a.evaluate limits bindings room)).negate) := by
  rw [evaluate.eq_def]
  simp only [if_neg hvar, haction]

theorem evaluate_passage (hvar : node.symbol ≠ .valVar) (haction : node.action = .left) :
    (unary id node a).evaluate limits bindings (room + 1)
      = limits.descend room (a.evaluate limits bindings room) := by
  rw [evaluate.eq_def]
  simp only [if_neg hvar, haction]

theorem evaluate_connection (c : Connective) (haction : node.action = c.action) :
    (binary id node a b).evaluate limits bindings (room + 1) = (do
      let left ← limits.descend room (a.evaluate limits bindings room)
      let right ← limits.descend room (b.evaluate limits bindings room)
      return c.join left right) := by
  rw [evaluate.eq_def]
  simp only [haction]
  cases c <;> rfl

/-- Where every variable has a value, an expression has one as well. It does not depend on the
limits, as long as they suffice. -/
theorem Shaped.evaluate_ok {d : Derivation} (h : Shaped d) (hs : d.symbol.Valued)
    (hknown : d.references.find? bindings.lacks = none) (hle : n + d.unsureIds.length ≤ 62) :
    ∃ v, ∀ limits room, limits.Fit room n d →
      (d.evaluate limits bindings room).run n = .ok v (n + d.unsureIds.length) := by
  revert n
  refine h.expression_induction (P := fun d => d.references.find? bindings.lacks = none →
    ∀ {n}, n + d.unsureIds.length ≤ 62 → ∃ v, ∀ limits room, limits.Fit room n d →
      (d.evaluate limits bindings room).run n = .ok v (n + d.unsureIds.length))
    ?constant ?reference ?negation ?passage ?connection hs hknown
  case constant =>
    intro id node k hlexeme _ n hle
    rw [unsureIds_constant hlexeme] at hle ⊢
    cases k with
    | certain truth =>
        refine ⟨.const truth, fun limits room hfit => ?_⟩
        obtain ⟨below, rfl⟩ := hfit.exists_room
        rw [evaluate_constant hlexeme]
        rfl
    | unsure =>
        refine ⟨.table (Rows.atomRows (2 ^ n)), fun limits room hfit => ?_⟩
        obtain ⟨below, rfl⟩ := hfit.exists_room
        have hatoms := hfit.atoms
        rw [unsureIds_constant hlexeme] at hatoms
        rw [evaluate_constant hlexeme]
        exact freshAtom_run hatoms hle node
  case reference =>
    intro id node child name hvar hchild hi htext hknown n _
    have hnil : (unary id node child).unsureIds = [] := hchild.unsureIds_eq_nil (by rw [hi]; rfl)
    have hget : (bindings.get? name).isSome := by
      simpa [references, hvar, Bindings.lacks, name?, htext, Option.isSome_iff_ne_none] using hknown
    obtain ⟨v, hv⟩ := Option.isSome_iff_exists.mp hget
    refine ⟨v, fun limits room hfit => ?_⟩
    obtain ⟨below, rfl⟩ := hfit.exists_room
    rw [evaluate_reference hvar, htext, hnil]
    simp only [Node.recall, hv]
    rfl
  case negation =>
    intro id node a hvar haction ih hknown n hle
    rw [references, if_neg hvar] at hknown
    obtain ⟨v, hv⟩ := ih hknown hle
    refine ⟨v.negate, fun limits room hfit => ?_⟩
    obtain ⟨below, rfl⟩ := hfit.exists_room
    have hbelow := hfit.below hvar
    rw [evaluate_negation hvar haction, hbelow.descend_eq, EStateM.run_bind, hv _ _ hbelow]
    rfl
  case passage =>
    intro id node a hvar haction ih hknown n hle
    rw [references, if_neg hvar] at hknown
    obtain ⟨v, hv⟩ := ih hknown hle
    refine ⟨v, fun limits room hfit => ?_⟩
    obtain ⟨below, rfl⟩ := hfit.exists_room
    have hbelow := hfit.below hvar
    rw [evaluate_passage hvar haction, hbelow.descend_eq]
    exact hv _ _ hbelow
  case connection =>
    intro id node c a b haction _ _ iha ihb hknown n hle
    rw [references, List.find?_append, Option.or_eq_none_iff] at hknown
    rw [unsureIds, List.length_append, ← Nat.add_assoc] at hle ⊢
    obtain ⟨v, hv⟩ := iha hknown.1 (Nat.le_trans (Nat.le_add_right _ _) hle)
    obtain ⟨w, hw⟩ := ihb hknown.2 hle
    refine ⟨c.join v w, fun limits room hfit => ?_⟩
    obtain ⟨below, rfl⟩ := hfit.exists_room
    rw [evaluate_connection c haction, hfit.left.descend_eq, EStateM.run_bind, hv _ _ hfit.left]
    simp only [hfit.left.descend_eq, EStateM.run_bind]
    rw [hw _ _ hfit.right]
    rfl

/-- The first variable without a value is what an evaluation within the limits reports. -/
theorem Shaped.evaluate_error {d x : Derivation} (h : Shaped d) (hs : d.symbol.Valued)
    (hfirst : d.references.find? bindings.lacks = some x) (hle : n + d.unsureIds.length ≤ 62)
    (hfit : limits.Fit room n d) :
    ∃ name n', x.name? = some name ∧ (d.evaluate limits bindings room).run n
      = .error (.diagnostic ⟨.unknownVariable name, some x.node.span, x.node.line⟩) n' := by
  revert room n
  refine h.expression_induction (P := fun d => d.references.find? bindings.lacks = some x →
    ∀ {room n}, n + d.unsureIds.length ≤ 62 → limits.Fit room n d →
      ∃ name n', x.name? = some name ∧ (d.evaluate limits bindings room).run n
        = .error (.diagnostic ⟨.unknownVariable name, some x.node.span, x.node.line⟩) n')
    ?constant ?reference ?negation ?passage ?connection hs hfirst
  case constant =>
    intro id node k _ hfirst
    cases hfirst
  case reference =>
    intro id node child name hvar _ _ htext hfirst room n _ hfit
    rw [references, if_pos hvar] at hfirst
    have hlacks := List.find?_some hfirst
    obtain rfl := List.mem_singleton.mp (List.mem_of_find?_eq_some hfirst)
    have hget : bindings.get? name = none := by
      simpa [Bindings.lacks, name?, htext] using hlacks
    obtain ⟨below, rfl⟩ := hfit.exists_room
    refine ⟨name, n, htext, ?_⟩
    rw [evaluate_reference hvar, htext]
    simp only [Node.recall, hget]
    rfl
  case negation =>
    intro id node a hvar haction ih hfirst room n hle hfit
    rw [references, if_neg hvar] at hfirst
    obtain ⟨below, rfl⟩ := hfit.exists_room
    have hbelow := hfit.below hvar
    obtain ⟨name, n', hname, hrun⟩ := ih hfirst hle hbelow
    refine ⟨name, n', hname, ?_⟩
    rw [evaluate_negation hvar haction, hbelow.descend_eq, EStateM.run_bind, hrun]
  case passage =>
    intro id node a hvar haction ih hfirst room n hle hfit
    rw [references, if_neg hvar] at hfirst
    obtain ⟨below, rfl⟩ := hfit.exists_room
    have hbelow := hfit.below hvar
    rw [evaluate_passage hvar haction, hbelow.descend_eq]
    exact ih hfirst hle hbelow
  case connection =>
    intro id node c a b haction ha hvalued iha ihb hfirst room n hle hfit
    rw [references, List.find?_append, Option.or_eq_some_iff] at hfirst
    rw [unsureIds, List.length_append, ← Nat.add_assoc] at hle
    have hlea : n + a.unsureIds.length ≤ 62 := Nat.le_trans (Nat.le_add_right _ _) hle
    obtain ⟨below, rfl⟩ := hfit.exists_room
    rw [evaluate_connection c haction]
    simp only [hfit.left.descend_eq, EStateM.run_bind]
    rcases hfirst with hfirst | ⟨hknown, hfirst⟩
    · obtain ⟨name, n', hname, hrun⟩ := iha hfirst hlea hfit.left
      exact ⟨name, n', hname, by rw [hrun]⟩
    · obtain ⟨v, hv⟩ := ha.evaluate_ok hvalued hknown hlea
      obtain ⟨name, n', hname, hrun⟩ := ihb hfirst hle hfit.right
      refine ⟨name, n', hname, ?_⟩
      rw [hv _ _ hfit.left]
      simp only
      rw [hrun]

/-- An evaluation that gives a value was within the limits. -/
theorem Shaped.fits_of_evaluate {d : Derivation} (h : Shaped d) (hs : d.symbol.Valued) {v : Value}
    {n' : Nat} (hrun : (d.evaluate limits bindings room).run n = .ok v n') :
    d.height < room ∧ n' = n + d.unsureIds.length
      ∧ (n ≤ limits.maxUnsure → n' ≤ limits.maxUnsure) := by
  revert room n n' v
  refine h.expression_induction (P := fun d => ∀ {room n v n'},
    (d.evaluate limits bindings room).run n = .ok v n' → d.height < room
      ∧ n' = n + d.unsureIds.length ∧ (n ≤ limits.maxUnsure → n' ≤ limits.maxUnsure))
    ?constant ?reference ?negation ?passage ?connection hs
  case constant =>
    intro id node k hlexeme room n v n' hrun
    cases room with
    | zero => cases hrun
    | succ room =>
        rw [evaluate_constant hlexeme] at hrun
        rw [unsureIds_constant hlexeme]
        cases k with
        | certain truth =>
            cases hrun
            exact ⟨Nat.succ_pos _, rfl, fun hn => hn⟩
        | unsure =>
            obtain ⟨hlt, rfl, -⟩ := freshAtom_ok hrun
            exact ⟨Nat.succ_pos _, rfl, fun _ => hlt⟩
  case reference =>
    intro id node child name hvar hchild hi htext room n v n' hrun
    cases room with
    | zero => cases hrun
    | succ room =>
        have hnil : (unary id node child).unsureIds = [] :=
          hchild.unsureIds_eq_nil (by rw [hi]; rfl)
        rw [evaluate_reference hvar, htext] at hrun
        rw [hnil, height, if_pos hvar]
        unfold Node.recall at hrun
        cases hget : bindings.get? name with
        | none => simp only [hget] at hrun; cases hrun
        | some value =>
            simp only [hget] at hrun
            cases hrun
            exact ⟨Nat.succ_pos _, rfl, fun hn => hn⟩
  case negation =>
    intro id node a hvar haction ih room n v n' hrun
    cases room with
    | zero => cases hrun
    | succ room =>
        rw [evaluate_negation hvar haction] at hrun
        obtain ⟨w, t, hw, hok⟩ := Work.exists_of_bind hrun
        cases hok
        obtain ⟨hdepth, hatoms⟩ := ih (Limits.ok_of_descend hw)
        rw [height, if_neg hvar]
        exact ⟨Nat.succ_lt_succ hdepth, hatoms⟩
  case passage =>
    intro id node a hvar haction ih room n v n' hrun
    cases room with
    | zero => cases hrun
    | succ room =>
        rw [evaluate_passage hvar haction] at hrun
        obtain ⟨hdepth, hatoms⟩ := ih (Limits.ok_of_descend hrun)
        rw [height, if_neg hvar]
        exact ⟨Nat.succ_lt_succ hdepth, hatoms⟩
  case connection =>
    intro id node c a b haction _ _ iha ihb room n v n' hrun
    cases room with
    | zero => cases hrun
    | succ room =>
        rw [evaluate_connection c haction] at hrun
        obtain ⟨x, t, hx, hrun⟩ := Work.exists_of_bind hrun
        obtain ⟨y, u, hy, hok⟩ := Work.exists_of_bind hrun
        cases hok
        obtain ⟨hleft, rfl, hlefts⟩ := iha (Limits.ok_of_descend hx)
        obtain ⟨hright, rfl, hrights⟩ := ihb (Limits.ok_of_descend hy)
        rw [height, unsureIds, List.length_append]
        exact ⟨by omega, by omega, fun hn => hrights (hlefts hn)⟩

end Evaluation

/-! ## 3. Statements -/

/-- The limits suffice for a sequence of statements. -/
structure Limits.Suffice (limits : Limits) (ss : List Derivation) : Prop where
  word : limits.maxDepth ≤ maxWord
  atoms : (ss.flatMap unsureIds).length ≤ limits.maxUnsure
  depth : ∀ s ∈ ss, 2 + s.valueHeight ≤ limits.maxDepth

theorem Limits.Suffice.left {limits : Limits} {ss ss' : List Derivation}
    (h : limits.Suffice (ss ++ ss')) : limits.Suffice ss where
  word := h.word
  atoms := by
    have hatoms := h.atoms
    rw [List.flatMap_append, List.length_append] at hatoms
    omega
  depth := fun s hs => h.depth s (List.mem_append_left _ hs)

/-- Limits that suffice have room for the expression of each statement. -/
theorem Limits.Suffice.exists_fit {limits : Limits} {ss after : List Derivation} {id : NodeId}
    {target value : Derivation} (htarget : Shaped target) (hvar : target.symbol = .valVar)
    (h : limits.Suffice (ss ++ above id .statement .assign target (some value) :: after)) :
    ∃ room, limits.maxDepth = room + 1 ∧ limits.Fit room (ss.flatMap unsureIds).length value := by
  have hdepth : 2 + value.height ≤ limits.maxDepth :=
    h.depth (above id .statement .assign target (some value)) (by simp)
  have hatoms := h.atoms
  rw [List.flatMap_append, List.flatMap_cons, htarget.unsureIds_assignment hvar, List.length_append,
    List.length_append] at hatoms
  exact ⟨limits.maxDepth - 1, by omega, h.word, by omega, by omega⟩

theorem Store.isSome_get?_assign (store : Store) (name : String) (v : Value) (x : String) :
    ((store.assign name v).get? x).isSome ↔ (store.get? x).isSome ∨ name = x := by
  show ((store.bindings.insert name v).get? x).isSome ↔ (store.bindings.get? x).isSome ∨ name = x
  rw [Bindings.get?_insert]
  by_cases hx : x = name
  · simp [hx]
  · simp [hx, Ne.symm hx]

/-- The store has values for just the variables that the statements assign. -/
def Store.Binds (store : Store) (ss : List Derivation) : Prop :=
  ∀ x, (store.get? x).isSome ↔ ∃ s ∈ ss, s.target? = some x

theorem Store.Binds.lacks_iff {store : Store} {ss : List Derivation} (h : store.Binds ss)
    (hss : ∀ s ∈ ss, Shaped s ∧ s.symbol = .statement) {x : Derivation} :
    store.bindings.lacks x ↔ ¬ AssignedIn ss x := by
  unfold Bindings.lacks AssignedIn
  cases hname : x.name? with
  | none =>
      -- every statement assigns some variable, hence none without a name
      refine ⟨fun _ ⟨s, hs, htarget⟩ => ?_, fun _ => rfl⟩
      obtain ⟨hshaped, hsymbol⟩ := hss s hs
      obtain ⟨id, target, value, name, rfl, -, -, hname', -⟩ := hshaped.exists_assignment hsymbol
      have heq : target.name? = none := htarget
      rw [hname'] at heq
      cases heq
  | some name =>
      rw [← h name, Option.bind_some]
      show (store.get? name).isNone ↔ _
      simp

theorem forM_append_run {σ α : Type} {f : α → Work σ Unit} {xs ys : List α} {s t : σ}
    (h : (xs.forM f).run s = .ok () t) : ((xs ++ ys).forM f).run s = (ys.forM f).run t := by
  have happend : (xs ++ ys).forM f = (xs.forM f >>= fun _ => ys.forM f) := List.forM_append
  rw [happend, EStateM.run_bind, h]

namespace Context

section Statements

variable {limits : Limits} {c : Context} {id room n : Nat} {target value : Derivation}
  {name : String}

theorem perform_run (hname : target.name? = some name) (hdepth : limits.maxDepth = room + 1)
    (hfit : limits.Fit room n value) :
    ((above id .statement .assign target (some value)).perform limits).run c
      = match (value.evaluate limits c.store.bindings room).run c.store.atoms with
        | .ok v atoms => (assign name v).run { c with store.atoms := atoms }
        | .error e atoms => .error e { c with store.atoms := atoms } := by
  unfold perform
  rw [hdepth]
  simp only [above, hname, hfit.descend_eq]
  rw [EStateM.run_bind, EStateM.run_get]
  simp only [EStateM.run_bind]
  unfold withAtoms
  simp only [EStateM.run]
  cases value.evaluate limits c.store.bindings room c.store.atoms <;> rfl

end Statements

/-- **Statements that read only what is assigned are carried out**, and what they leave does not
depend on the limits, as long as they suffice. -/
theorem forM_perform_ok {ss : List Derivation} (hss : ∀ s ∈ ss, Shaped s ∧ s.symbol = .statement)
    (hreads : ReadsAssigned ss) (hle : (ss.flatMap unsureIds).length ≤ 62) :
    ∃ store : Store, store.atoms = (ss.flatMap unsureIds).length ∧ store.Binds ss
      ∧ ∀ (limits : Limits) (c : Context), c.store = {} → limits.Suffice ss →
        ∃ c', (ss.forM (perform limits)).run c = .ok () c' ∧ c'.store = store := by
  induction ss using List.reverseRecOn with
  | nil =>
      refine ⟨{}, rfl, fun x => ?_, fun limits c hc _ => ⟨c, rfl, hc⟩⟩
      simp [Store.get?, Bindings.get?]
  | append_singleton ss s ih =>
      obtain ⟨hbefore, hs⟩ := readsAssigned_append_singleton.mp hreads
      have hss' : ∀ t ∈ ss, Shaped t ∧ t.symbol = .statement := fun t ht =>
        hss t (List.mem_append_left _ ht)
      obtain ⟨hshaped, hsymbol⟩ := hss s (by simp)
      obtain ⟨id, target, value, name, rfl, htarget, hvar, hname, hvalue, hvalued⟩ :=
        hshaped.exists_assignment hsymbol
      rw [List.flatMap_append, List.flatMap_singleton, htarget.unsureIds_assignment hvar,
        List.length_append] at hle ⊢
      obtain ⟨store, hatoms, hbinds, hrun⟩ :=
        ih hss' hbefore (Nat.le_trans (Nat.le_add_right _ _) hle)
      have hknown : value.references.find? store.bindings.lacks = none := by
        rw [List.find?_eq_none]
        exact fun x hx hlacks => (hbinds.lacks_iff hss').mp hlacks (hs x hx)
      obtain ⟨v, hv⟩ := hvalue.evaluate_ok hvalued hknown (hatoms ▸ hle)
      refine ⟨{ store with atoms := store.atoms + value.unsureIds.length }.assign name v, ?_,
        fun x => ?_, fun limits c hc hsuffice => ?_⟩
      · rw [← hatoms]
        rfl
      · have hbound := hbinds x
        rw [Store.isSome_get?_assign]
        simp only [Store.get?] at hbound ⊢
        simp [hbound, above, target?, hname]
      · obtain ⟨c', hc', rfl⟩ := hrun limits c hc hsuffice.left
        obtain ⟨room, hdepth, hfit⟩ := hsuffice.exists_fit htarget hvar
        rw [← hatoms] at hfit
        rw [forM_append_run hc']
        show ∃ c'', (perform limits _ >>= fun _ => pure ()).run c' = _ ∧ _
        rw [bind_pure_unit, perform_run hname hdepth hfit, hv limits room hfit]
        exact ⟨_, rfl, rfl⟩

/-- **The first variable that is read and not assigned is reported.** -/
theorem forM_perform_error {limits : Limits} {c : Context} {ss : List Derivation} {x : Derivation}
    (hss : ∀ s ∈ ss, Shaped s ∧ s.symbol = .statement) (hfirst : FirstUnassigned ss x)
    (hle : (ss.flatMap unsureIds).length ≤ 62) (hc : c.store = {}) (hsuffice : limits.Suffice ss) :
    ∃ name c', x.name? = some name ∧ (ss.forM (perform limits)).run c
      = .error (.diagnostic ⟨.unknownVariable name, some x.node.span, x.node.line⟩) c' := by
  obtain ⟨before, s, after, rfl, hreads, xs, ys, hsplit, hxs, hx⟩ := hfirst
  have hbefore : ∀ t ∈ before, Shaped t ∧ t.symbol = .statement := fun t ht =>
    hss t (List.mem_append_left _ ht)
  obtain ⟨hshaped, hsymbol⟩ := hss s (by simp)
  obtain ⟨id, target, value, name, rfl, htarget, hvar, hname, hvalue, hvalued⟩ :=
    hshaped.exists_assignment hsymbol
  obtain ⟨room, hdepth, hfit⟩ := hsuffice.exists_fit htarget hvar
  rw [List.flatMap_append, List.flatMap_cons, htarget.unsureIds_assignment hvar, List.length_append,
    List.length_append] at hle
  obtain ⟨store, hatoms, hbinds, hrun⟩ := forM_perform_ok hbefore hreads (by omega)
  obtain ⟨c', hc', rfl⟩ := hrun limits c hc hsuffice.left
  have hlacks : value.references.find? c'.store.bindings.lacks = some x := by
    refine List.find?_eq_some_iff_append.mpr
      ⟨(hbinds.lacks_iff hbefore).mpr hx, xs, ys, hsplit, fun y hy => ?_⟩
    rw [Bool.not_eq_true', Bool.eq_false_iff]
    exact fun hlacks => (hbinds.lacks_iff hbefore).mp hlacks (hxs y hy)
  rw [← hatoms] at hfit hle
  obtain ⟨unknown, n, hunknown, herror⟩ :=
    hvalue.evaluate_error hvalued hlacks (by omega) hfit
  refine ⟨unknown, { c' with store.atoms := n }, hunknown, ?_⟩
  rw [forM_append_run hc']
  show (perform limits _ >>= fun _ => after.forM (perform limits)).run c' = _
  rw [EStateM.run_bind, perform_run hname hdepth hfit, herror]

/-- **Statements that are carried out were within the limits.** -/
theorem forM_perform_fits {limits : Limits} {c c' : Context} {ss : List Derivation}
    (hss : ∀ s ∈ ss, Shaped s ∧ s.symbol = .statement)
    (h : (ss.forM (perform limits)).run c = .ok () c') :
    (∀ s ∈ ss, 2 + s.valueHeight ≤ limits.maxDepth)
      ∧ c'.store.atoms = c.store.atoms + (ss.flatMap unsureIds).length
      ∧ (c.store.atoms ≤ limits.maxUnsure → c'.store.atoms ≤ limits.maxUnsure) := by
  induction ss generalizing c with
  | nil =>
      cases h
      exact ⟨nofun, rfl, fun hn => hn⟩
  | cons s ss ih =>
      obtain ⟨_, t, hs, hrest⟩ := Work.exists_of_bind h
      obtain ⟨hdepths, hatoms, hlimit⟩ :=
        ih (fun s' hs' => hss s' (List.mem_cons_of_mem s hs')) hrest
      obtain ⟨hshaped, hsymbol⟩ := hss s (by simp)
      obtain ⟨id, target, value, name, rfl, htarget, hvar, hname, hvalue, hvalued⟩ :=
        hshaped.exists_assignment hsymbol
      obtain ⟨room, v, n, hdepth, hrun, hstore, -⟩ := perform_ok hname hs
      obtain ⟨hheight, rfl, hvalues⟩ := hvalue.fits_of_evaluate hvalued hrun
      have ht : t.store.atoms = c.store.atoms + value.unsureIds.length := by rw [hstore]; rfl
      rw [List.flatMap_cons, htarget.unsureIds_assignment hvar, List.length_append]
      refine ⟨fun s' hs' => ?_, by omega, fun hn => hlimit (by rw [ht]; exact hvalues hn)⟩
      rcases List.mem_cons.mp hs' with rfl | hs'
      · show 2 + value.height ≤ limits.maxDepth
        omega
      · exact hdepths s' hs'

end Context

/-! ## 4. Runs -/

theorem length_unsurePositions (leaves : List Node) :
    (unsurePositions leaves).length = leaves.countP Node.isUnsure := by
  unfold unsurePositions
  rw [List.length_map, ← List.countP_eq_length_filter]
  have hfst : leaves.zipIdx.map Prod.fst = leaves := List.zipIdx_map_fst 0 leaves
  nth_rewrite 2 [← hfst]
  rw [List.countP_map]
  rfl

/-- What lies below the root of an accepted source. -/
theorem parse_shaped {source : String} {leaves : List Node} {journal : Journal} {root : NodeId}
    {w : Workspace} {d : Derivation} (htokens : tokenize source = .ok leaves)
    (hparse : parse leaves journal = .ok root w) (hunfolds : w.arena.Unfolds root d) :
    Shaped d ∧ d.unsureIds = unsurePositions leaves := by
  have hgenuine := tokenize_genuine htokens
  obtain ⟨hshaped, steps, names, hrun⟩ := exists_run_of_unfolds hgenuine hparse hunfolds
  exact ⟨hshaped, (List.append_nil _).symm.trans (hrun.unsureIds_eq hgenuine)⟩

namespace Context

/-- The tree of a source that is accepted. -/
theorem parseSource_run {source : String} {leaves : List Node} {root : NodeId} {w : Workspace}
    {c : Context} (htokens : tokenize source = .ok leaves)
    (hparse : parse leaves c.journal = .ok root w) :
    (parseSource source).run c = .ok ⟨w.arena, root⟩ { c with journal := w.journal } := by
  have hscan : (scanSource source : Work Context (List Node)) = pure leaves := by
    unfold scanSource
    rw [htokens]
  have htree : (withJournal (parse leaves)).run c
      = .ok (root, w.arena) { c with journal := w.journal } := by
    unfold withJournal EStateM.run
    simp only [hparse]
  unfold parseSource parseTree
  rw [hscan, pure_bind, EStateM.run_bind, htree]
  rfl

/-- A run of a source that is accepted performs its statements. -/
theorem run_eq_forM {source : String} {leaves : List Node} {root : NodeId} {w : Workspace}
    {d : Derivation} {c : Context} (htokens : tokenize source = .ok leaves)
    (hparse : parse leaves c.journal = .ok root w) (hunfolds : w.arena.Unfolds root d)
    (hblock : d.symbol = .codeBlock) :
    (run source).run c
      = (d.statements.forM (perform c.limits)).run { c with journal := w.journal } := by
  obtain ⟨hholds, rfl, -⟩ := id hunfolds
  unfold run
  rw [EStateM.run_bind, parseSource_run htokens hparse]
  simp only
  rw [walk_eq (parse_shaped htokens hparse hunfolds).1 hblock hholds]
  rfl

/-- A source that a run succeeds with is a block. -/
theorem exists_block_of_run {source : String} {c c' : Context}
    (h : (run source).run c = .ok () c') :
    ∃ leaves root w d, tokenize source = .ok leaves ∧ parse leaves c.journal = .ok root w
      ∧ w.arena.Unfolds root d ∧ d.symbol = .codeBlock := by
  obtain ⟨leaves, root, w, htokens, hparse, hwalk⟩ := run_ok h
  obtain ⟨d, hshaped, hunfolds, hnone⟩ := exists_unfolds (tokenize_genuine htokens) hparse
  obtain ⟨hholds, rfl, -⟩ := id hunfolds
  exact ⟨leaves, d.id, w, d, htokens, hparse, hunfolds,
    symbol_eq_codeBlock hshaped hholds hnone hwalk⟩

/-- **When a run succeeds.** A run of a source that is accepted succeeds exactly if every variable
is assigned by a statement before the one that reads it and the limits suffice. Then it has taken an
atom for each `U` and leaves values for just the variables that are assigned; any other limits that
suffice give the same store. If the limits suffice and it fails nevertheless, it is for the first
variable, in the order of the source, that is read and not assigned. -/
theorem run_succeeds_iff {source : String} {leaves : List Node} {journal : Journal} {root : NodeId}
    {w : Workspace} {d : Derivation} {limits : Limits} (htokens : tokenize source = .ok leaves)
    (hparse : parse leaves journal = .ok root w) (hunfolds : w.arena.Unfolds root d)
    (hblock : d.symbol = .codeBlock) (hword : limits.maxDepth ≤ maxWord)
    (hlimit : limits.maxUnsure ≤ 62) :
    ((∃ c, (run source).run { limits, journal } = .ok () c)
        ↔ ReadsAssigned d.statements ∧ limits.Allow leaves d)
      ∧ (∀ c, (run source).run { limits, journal } = .ok () c →
          c.store.atoms = leaves.countP Node.isUnsure
          ∧ (∀ x, (c.store.get? x).isSome ↔ ∃ s ∈ d.statements, s.target? = some x)
          ∧ ∀ other : Limits, other.maxDepth ≤ maxWord → other.Allow leaves d →
            ∃ c', (run source).run { limits := other, journal } = .ok () c' ∧ c'.store = c.store)
      ∧ (limits.Allow leaves d → ¬ ReadsAssigned d.statements →
          ∃ x name c, FirstUnassigned d.statements x ∧ x.name? = some name
            ∧ (run source).run { limits, journal }
              = .error (.diagnostic ⟨.unknownVariable name, some x.node.span, x.node.line⟩) c) := by
  obtain ⟨hshaped, hids⟩ := parse_shaped htokens hparse hunfolds
  have hss : ∀ s ∈ d.statements, Shaped s ∧ s.symbol = .statement := by
    intro s hs
    obtain ⟨hs, hsymbol, -⟩ := hshaped.of_mem_statements hunfolds.1 hs
    exact ⟨hs, hsymbol⟩
  have hcount : (d.statements.flatMap unsureIds).length = leaves.countP Node.isUnsure := by
    rw [hshaped.flatMap_statements hblock, hids, length_unsurePositions]
  have hrun : ∀ limits : Limits, (run source).run { limits, journal }
      = (d.statements.forM (perform limits)).run { limits, journal := w.journal } :=
    fun limits => run_eq_forM (c := { limits, journal }) htokens hparse hunfolds hblock
  have hsuffice : ∀ {limits : Limits}, limits.maxDepth ≤ maxWord → limits.Allow leaves d →
      limits.Suffice d.statements :=
    fun hword hallow => ⟨hword, hcount ▸ hallow.atoms, hallow.depth⟩
  have hallow : ∀ {c}, (run source).run { limits, journal } = .ok () c →
      limits.Allow leaves d ∧ c.store.atoms = leaves.countP Node.isUnsure := by
    intro c hok
    rw [hrun] at hok
    obtain ⟨hdepth, hatoms, hle⟩ := forM_perform_fits hss hok
    have hatoms : c.store.atoms = leaves.countP Node.isUnsure := by
      rw [hatoms, hcount]
      exact Nat.zero_add _
    exact ⟨⟨hatoms ▸ hle (Nat.zero_le _), hdepth⟩, hatoms⟩
  have hfails : limits.Allow leaves d → ∀ {x}, FirstUnassigned d.statements x →
      ∃ name c, x.name? = some name ∧ (run source).run { limits, journal }
        = .error (.diagnostic ⟨.unknownVariable name, some x.node.span, x.node.line⟩) c := by
    intro hallow x hx
    rw [hrun]
    exact forM_perform_error hss hx (hcount ▸ Nat.le_trans hallow.atoms hlimit) rfl
      (hsuffice hword hallow)
  -- a run that succeeds has read nothing that was not assigned
  have hreads : ∀ {c}, (run source).run { limits, journal } = .ok () c →
      ReadsAssigned d.statements := by
    intro c hok
    rcases readsAssigned_or_firstUnassigned d.statements with hreads | ⟨x, hx⟩
    · exact hreads
    · obtain ⟨name, c', -, herror⟩ := hfails (hallow hok).1 hx
      rw [hok] at herror
      cases herror
  have hstore : limits.Allow leaves d → ReadsAssigned d.statements →
      ∃ store : Store, store.Binds d.statements ∧ ∀ other : Limits, other.maxDepth ≤ maxWord →
        other.Allow leaves d →
        ∃ c, (run source).run { limits := other, journal } = .ok () c ∧ c.store = store := by
    intro hallow hreads
    obtain ⟨store, -, hbinds, hperform⟩ :=
      forM_perform_ok hss hreads (hcount ▸ Nat.le_trans hallow.atoms hlimit)
    refine ⟨store, hbinds, fun other hword hallow => ?_⟩
    rw [hrun]
    exact hperform other _ rfl (hsuffice hword hallow)
  refine ⟨⟨fun ⟨c, hok⟩ => ⟨hreads hok, (hallow hok).1⟩, fun ⟨hreads, hallow⟩ => ?_⟩,
    fun c hok => ?_, fun hallow hnot => ?_⟩
  · obtain ⟨store, -, hother⟩ := hstore hallow hreads
    obtain ⟨c, hok, -⟩ := hother limits hword hallow
    exact ⟨c, hok⟩
  · obtain ⟨hallow, hatoms⟩ := hallow hok
    obtain ⟨store, hbinds, hother⟩ := hstore hallow (hreads hok)
    obtain ⟨c', hok', rfl⟩ := hother limits hword hallow
    rw [hok] at hok'
    cases hok'
    exact ⟨hatoms, hbinds, hother⟩
  · rcases readsAssigned_or_firstUnassigned d.statements with hreads | ⟨x, hx⟩
    · exact absurd hreads hnot
    · obtain ⟨name, c, hname, herror⟩ := hfails hallow hx
      exact ⟨x, name, c, hx, hname, herror⟩

/-- Two atoms and five levels are just enough. -/
theorem run_succeeds_iff_tight :
    ∃ leaves root w d, tokenize "def val x as U; def val y as (x and not U);" = .ok leaves
      ∧ parse leaves {} = .ok root w ∧ w.arena.Unfolds root d ∧ d.symbol = .codeBlock
      ∧ ReadsAssigned d.statements ∧ Limits.Allow ⟨5, 2⟩ leaves d
      ∧ ¬ Limits.Allow ⟨4, 2⟩ leaves d ∧ ¬ Limits.Allow ⟨5, 1⟩ leaves d := by
  have hruns : [(⟨5, 2⟩ : Limits), ⟨4, 2⟩, ⟨5, 1⟩].map (fun limits =>
      match (run "def val x as U; def val y as (x and not U);").run { limits } with
      | .ok _ _ => true
      | .error _ _ => false) = [true, false, false] := by
    decide +kernel
  simp only [List.map_cons, List.map_nil, List.cons.injEq, and_true] at hruns
  obtain ⟨hok, hdeep, hmany⟩ := hruns
  split at hok
  · rename_i _ c hrun
    obtain ⟨leaves, root, w, d, htokens, hparse, hunfolds, hblock⟩ := exists_block_of_run hrun
    have hiff := fun (limits : Limits) (hword : limits.maxDepth ≤ maxWord) hlimit =>
      (run_succeeds_iff htokens hparse hunfolds hblock hword hlimit).1
    obtain ⟨hreads, hallow⟩ := (hiff ⟨5, 2⟩ (by decide) (by decide)).mp ⟨c, hrun⟩
    refine ⟨leaves, root, w, d, htokens, hparse, hunfolds, hblock, hreads, hallow, ?_, ?_⟩
    · intro hallow
      obtain ⟨c, hrun⟩ := (hiff ⟨4, 2⟩ (by decide) (by decide)).mpr ⟨hreads, hallow⟩
      rw [hrun] at hdeep
      cases hdeep
    · intro hallow
      obtain ⟨c, hrun⟩ := (hiff ⟨5, 1⟩ (by decide) (by decide)).mpr ⟨hreads, hallow⟩
      rw [hrun] at hmany
      cases hmany
  · cases hok

end Context

end Trivalent
