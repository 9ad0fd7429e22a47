import Trivalent.Proofs.Evaluation.Session

/-!
# Evaluation and three-valued logic

To strong Kleene logic a `U` is unknown and nothing else, and two of them are unknown in the same
way. An evaluation tells them apart and computes with tables, so it can decide more: `x and not x`
is `F` if `x` is a table, where Kleene logic knows nothing. What it decides lies between two bounds,
which are given here for any arena and any node of it.

* `Formula`, `Arena.Expresses` -- an expression, and the one that lies below a node. There is at
  most one (`Expresses.unique`), also where nodes have children in common;
* `Kleene.or`, `Kleene.and`, `Formula.kleene` -- strong Kleene logic; `Formula.truthAt` -- two-valued
  logic, with one atom for each `U`, in the order of evaluation;
* `Value.Refines` -- a value is at least as definite as a truth value of Kleene logic;
  `Refines.negate`, `Refines.join` -- the connectives keep to this;
* `evaluateAt_gives` -- an evaluation that succeeds has evaluated an expression, and gives a value
  that has the truth of the expression in its rows and refines its truth in Kleene logic;
* `Context.evaluate_refines` -- **what Kleene logic decides, an evaluation gives as a constant, and
  what it gives as a constant is right at every row**.
-/

namespace Trivalent

/-! ## 1. Expressions -/

/-- An expression without the parentheses. -/
inductive Formula where
  | constant (k : Constant)
  | reference (name : String)
  | negation (a : Formula)
  | connection (c : Connective) (a b : Formula)
  deriving DecidableEq, Repr

/-- The number of `U` in an expression. -/
def Formula.atoms : Formula → Nat
  | .constant .unsure => 1
  | .constant (.certain _) => 0
  | .reference _ => 0
  | .negation a => a.atoms
  | .connection _ a b => a.atoms + b.atoms

/-- The expression below a node. A variable is told by its symbol, every other node by its action,
and children that the action does not ask for do not count. -/
inductive Arena.Expresses (arena : Arena) : NodeId → Formula → Prop
  | reference {id i : NodeId} {node leaf : Node} {name : String} (get : arena.get? id = some node)
      (symbol : node.symbol = .valVar) (child : node.left? = some i)
      (getChild : arena.get? i = some leaf) (text : leaf.literal? = some name) :
      Expresses arena id (.reference name)
  | constant {id : NodeId} {node : Node} {k : Constant} (get : arena.get? id = some node)
      (symbol : node.symbol ≠ .valVar) (action : node.action = k.lexeme.action) :
      Expresses arena id (.constant k)
  | passage {id i : NodeId} {node : Node} {a : Formula} (get : arena.get? id = some node)
      (symbol : node.symbol ≠ .valVar) (action : node.action = .left)
      (child : node.left? = some i) (below : Expresses arena i a) : Expresses arena id a
  | negation {id i : NodeId} {node : Node} {a : Formula} (get : arena.get? id = some node)
      (symbol : node.symbol ≠ .valVar) (action : node.action = .negate)
      (child : node.left? = some i) (below : Expresses arena i a) :
      Expresses arena id (.negation a)
  | connection {id i j : NodeId} {node : Node} {c : Connective} {a b : Formula}
      (get : arena.get? id = some node) (symbol : node.symbol ≠ .valVar)
      (action : node.action = c.action) (left : node.left? = some i) (right : node.right? = some j)
      (first : Expresses arena i a) (second : Expresses arena j b) :
      Expresses arena id (.connection c a b)

theorem Constant.action_cases (k : Constant) :
    (k.lexeme.action = .makeTrue ∧ k = .certain true)
      ∨ (k.lexeme.action = .makeFalse ∧ k = .certain false)
      ∨ (k.lexeme.action = .makeUnsure ∧ k = .unsure) := by
  rcases k with (_ | _) | _ <;> simp [Constant.lexeme]

theorem Connective.action_cases (c : Connective) :
    (c.action = .disjoin ∧ c = .or) ∨ (c.action = .conjoin ∧ c = .and) := by
  cases c <;> simp [Connective.action]

/-- **Below a node there is only one expression.** -/
theorem Arena.Expresses.unique {arena : Arena} {id : NodeId} {f g : Formula}
    (hf : arena.Expresses id f) (hg : arena.Expresses id g) : f = g := by
  -- the node and its action leave one way to go on, and the children are given by the node
  induction hf generalizing g with
  | reference => cases hg <;> grind
  | constant => cases hg <;> grind [Constant.action_cases, Connective.action_cases]
  | passage => cases hg <;> grind [Constant.action_cases, Connective.action_cases]
  | negation => cases hg <;> grind [Constant.action_cases, Connective.action_cases]
  | connection => cases hg <;> grind [Constant.action_cases, Connective.action_cases]

/-! ## 2. Two logics -/

namespace Kleene

/-- Disjunction in strong Kleene logic; `none` is the unknown truth value. -/
def or : Option Bool → Option Bool → Option Bool
  | some true, _ => some true
  | _, some true => some true
  | some false, some false => some false
  | _, _ => none

/-- Conjunction in strong Kleene logic. -/
def and : Option Bool → Option Bool → Option Bool
  | some false, _ => some false
  | _, some false => some false
  | some true, some true => some true
  | _, _ => none

end Kleene

/-- A connective in strong Kleene logic. -/
def Connective.kleene : Connective → Option Bool → Option Bool → Option Bool
  | or => Kleene.or
  | and => Kleene.and

/-- A connective in two-valued logic. -/
def Connective.truth : Connective → Bool → Bool → Bool
  | or => Bool.or
  | and => Bool.and

/-- The truth of a constant; a table has none. -/
def Value.certain? : Value → Option Bool
  | const b => some b
  | table _ => none

namespace Formula

/-- The truth of an expression in strong Kleene logic: every `U` is unknown, and so is a variable
unless it has a constant value. -/
def kleene (bindings : Bindings) : Formula → Option Bool
  | constant (.certain b) => some b
  | constant .unsure => none
  | reference name => (bindings.get? name).bind Value.certain?
  | negation a => (a.kleene bindings).map (!·)
  | connection c a b => c.kleene (a.kleene bindings) (b.kleene bindings)

/-- The truth of an expression in two-valued logic at row `i`, where `n` atoms have been taken
before. A `U` takes the next atom, which is true if bit `n` of the row number is zero; the right
operand of a connective comes after all the `U` of the left one. -/
def truthAt (bindings : Bindings) (i : Nat) : Formula → Nat → Option Bool
  | constant (.certain b), _ => some b
  | constant .unsure, n => some (!i.testBit n)
  | reference name, _ => (bindings.get? name).map (·.truthAt i)
  | negation a, n => (a.truthAt bindings i n).map (!·)
  | connection c a b, n => do
    return c.truth (← a.truthAt bindings i n) (← b.truthAt bindings i (n + a.atoms))

end Formula

/-! ## 3. Values -/

namespace Value

/-- If a truth value of Kleene logic is known, the value is that constant. -/
def Refines (v : Value) (k : Option Bool) : Prop := ∀ b, k = some b → v = const b

theorem refines_const (b : Bool) : (const b).Refines (some b) :=
  fun _ h => congrArg const (Option.some.inj h)

theorem refines_certain? (v : Value) : v.Refines v.certain? := by
  intro b h
  cases v with
  | const c => exact congrArg const (Option.some.inj h)
  | table rows => cases h

theorem Refines.negate {v : Value} {k : Option Bool} (h : v.Refines k) :
    v.negate.Refines (k.map (!·)) := by
  intro b hb
  obtain ⟨c, hc, rfl⟩ := Option.map_eq_some_iff.mp hb
  rw [h c hc]
  rfl

theorem or_true (v : Value) : v.or (const true) = const true := by
  cases v with
  | const b => cases b <;> rfl
  | table rows => rfl

theorem and_false (v : Value) : v.and (const false) = const false := by
  cases v with
  | const b => cases b <;> rfl
  | table rows => rfl

section Join

variable {v w : Value} {k l : Option Bool}

/-- A disjunction that Kleene logic decides has an operand `T`, or two operands `F`. -/
theorem Refines.or (hv : v.Refines k) (hw : w.Refines l) : (v.or w).Refines (Kleene.or k l) := by
  intro b h
  rcases k with _ | _ | _
  · rcases l with _ | _ | _
    · cases h
    · cases h
    · cases h
      rw [hw true rfl, or_true]
  · rcases l with _ | _ | _
    · cases h
    · cases h
      rw [hv false rfl, hw false rfl]
      rfl
    · cases h
      rw [hw true rfl, or_true]
  · cases h
    rw [hv true rfl]
    rfl

/-- A conjunction that Kleene logic decides has an operand `F`, or two operands `T`. -/
theorem Refines.and (hv : v.Refines k) (hw : w.Refines l) :
    (v.and w).Refines (Kleene.and k l) := by
  intro b h
  rcases k with _ | _ | _
  · rcases l with _ | _ | _
    · cases h
    · cases h
      rw [hw false rfl, and_false]
    · cases h
  · cases h
    rw [hv false rfl]
    rfl
  · rcases l with _ | _ | _
    · cases h
    · cases h
      rw [hw false rfl, and_false]
    · cases h
      rw [hv true rfl, hw true rfl]
      rfl

/-- **The connectives are at least as definite as those of Kleene logic.** -/
theorem Refines.join (c : Connective) (hv : v.Refines k) (hw : w.Refines l) :
    (c.join v w).Refines (c.kleene k l) := by
  cases c with
  | or => exact hv.or hw
  | and => exact hv.and hw

theorem Tabulates.join (c : Connective) {t u : Nat → Option Bool} (hv : v.Tabulates t)
    (hw : w.Tabulates u) : (c.join v w).Tabulates fun i => do return c.truth (← t i) (← u i) := by
  cases c with
  | or => exact hv.or hw
  | and => exact hv.and hw

end Join

end Value

/-! ## 4. Evaluations -/

/-- What an evaluation gives that has `n` atoms before and `m` after it: an atom has been taken for
each `U`, the rows of the value are the truth of the expression, and the value refines its truth in
Kleene logic. -/
structure Formula.Gives (bindings : Bindings) (f : Formula) (n : Nat) (v : Value) (m : Nat) :
    Prop where
  atoms_eq : m = n + f.atoms
  tabulates : v.Tabulates fun i => f.truthAt bindings i n
  refines : v.Refines (f.kleene bindings)

/-- Started with `n` atoms, a computation that succeeds gives a value of the expression below a
node. -/
def Arena.Evaluated (arena : Arena) (bindings : Bindings) (id : NodeId) (n : Nat)
    (work : Work Nat Value) : Prop :=
  Work.Meets n work (fun v m => ∃ f, arena.Expresses id f ∧ f.Gives bindings n v m)
    fun _ _ => True

section Evaluation

variable {limits : Limits} {arena : Arena} {bindings : Bindings} {id n : Nat} {node : Node}

theorem Formula.gives_certain (b : Bool) :
    (Formula.constant (.certain b)).Gives bindings n (.const b) n :=
  ⟨rfl, (Value.denotes_const b).tabulates fun _ => rfl, Value.refines_const b⟩

theorem Formula.gives_unsure (n : Nat) :
    (Formula.constant .unsure).Gives bindings n (.table (Rows.atomRows (2 ^ n))) (n + 1) :=
  ⟨rfl, ⟨Rows.wellFormed_atomRows n, fun i => congrArg some (Rows.truthAt_atomRows n i).symm⟩,
    nofun⟩

theorem Formula.gives_reference {name : String} {v : Value} (hget : bindings.get? name = some v)
    (hv : v.WellFormed) : (Formula.reference name).Gives bindings n v n where
  atoms_eq := rfl
  tabulates := hv.denotes.tabulates fun i => by rw [truthAt, hget]; rfl
  refines := by
    rw [kleene, hget]
    exact v.refines_certain?

theorem Formula.Gives.connection (c : Connective) {a b : Formula} {v w : Value} {m k : Nat}
    (ha : a.Gives bindings n v m) (hb : b.Gives bindings m w k) :
    (Formula.connection c a b).Gives bindings n (c.join v w) k := by
  obtain ⟨rfl, hv, hkv⟩ := ha
  obtain ⟨rfl, hw, hkw⟩ := hb
  exact ⟨Nat.add_assoc _ _ _, hv.join c hw, hkv.join c hkw⟩

theorem freshAtom_gives (hlimit : limits.maxUnsure ≤ 62) (hnode : arena.get? id = some node)
    (hs : node.symbol ≠ .valVar) (haction : node.action = .makeUnsure) :
    arena.Evaluated bindings id n (freshAtom limits node) := by
  unfold Arena.Evaluated Work.Meets
  by_cases hfull : limits.maxUnsure ≤ n
  · rw [freshAtom_full hfull]
    trivial
  · rw [freshAtom_run (Nat.lt_of_not_le hfull) (by omega)]
    exact ⟨_, .constant (k := .unsure) hnode hs haction, Formula.gives_unsure n⟩

theorem readVariable_gives (hbindings : ∀ x v, bindings.get? x = some v → v.WellFormed)
    (hnode : arena.get? id = some node) (hs : node.symbol = .valVar) :
    arena.Evaluated bindings id n (readVariable arena bindings node) := by
  unfold Arena.Evaluated readVariable variableName
  cases hleft : node.left? with
  | none => exact trivial
  | some i =>
      simp only [bind_assoc]
      refine (arena.fetch_finds i).seq (fun leaf hleaf => ?_) fun _ _ => trivial
      simp only [pure_bind]
      cases htext : leaf.literal? with
      | none => exact trivial
      | some name =>
          simp only [pure_bind]
          cases hget : bindings.get? name with
          | none => exact trivial
          | some v =>
              exact .pure ⟨_, .reference hnode hs hleft hleaf htext,
                Formula.gives_reference hget (hbindings name v hget)⟩

/-- A connective whose operands are evaluated, the right one with the atoms of the left one. -/
theorem connection_gives {operand : NodeId → Work Nat Value} (c : Connective)
    (hoperand : ∀ child m, arena.Evaluated bindings child m (operand child))
    (hnode : arena.get? id = some node) (hs : node.symbol ≠ .valVar)
    (haction : node.action = c.action) :
    arena.Evaluated bindings id n (do
      let left ← operand (← node.child .left)
      let right ← operand (← node.child .right)
      return c.join left right) := by
  refine (arena.child_finds hnode .left).seq (fun i hi => ?_) fun _ _ => trivial
  refine Work.Meets.seq (hoperand i n) (fun v m ⟨a, ha, hv⟩ => ?_) fun _ _ _ => trivial
  refine (arena.child_finds hnode .right).seq (fun j hj => ?_) fun _ _ => trivial
  refine Work.Meets.seq (hoperand j m) (fun w k ⟨b, hb, hw⟩ => ?_) fun _ _ _ => trivial
  exact ⟨_, .connection hnode hs haction hi hj ha hb, hv.connection c hw⟩

/-- **An evaluation that succeeds has evaluated the expression below its node**, in an arena of any
kind. -/
theorem evaluateAt_gives (hlimit : limits.maxUnsure ≤ 62)
    (hbindings : ∀ x v, bindings.get? x = some v → v.WellFormed) (room : Nat) (id n : Nat) :
    arena.Evaluated bindings id n (evaluateAt limits arena bindings room id) := by
  induction room generalizing id n with
  | zero =>
      unfold evaluateAt
      exact (arena.fetch_finds id).seq (fun _ _ => trivial) fun _ _ => trivial
  | succ room ih =>
      have hoperand : ∀ child m, arena.Evaluated bindings child m
          (limits.descend room (evaluateAt limits arena bindings room child)) :=
        fun child m => Limits.descend_meets (ih child m) trivial
      unfold evaluateAt
      refine (arena.fetch_finds id).seq (fun node hnode => ?_) fun _ _ => trivial
      dsimp only
      split
      · rename_i hs
        exact readVariable_gives hbindings hnode hs
      · rename_i hs
        split
        · rename_i haction
          exact .pure ⟨_, .constant (k := .certain true) hnode hs haction, Formula.gives_certain true⟩
        · rename_i haction
          exact .pure
            ⟨_, .constant (k := .certain false) hnode hs haction, Formula.gives_certain false⟩
        · rename_i haction
          exact freshAtom_gives hlimit hnode hs haction
        · rename_i haction
          refine (arena.child_finds hnode .left).seq (fun i hi => ?_) fun _ _ => trivial
          refine (hoperand i n).mono (fun v m ⟨a, ha, hv⟩ => ?_) fun _ _ _ => trivial
          exact ⟨a, .passage hnode hs haction hi ha, hv⟩
        · rename_i haction
          refine (arena.child_finds hnode .left).seq (fun i hi => ?_) fun _ _ => trivial
          refine Work.Meets.seq (hoperand i n) (fun v m ⟨a, ha, hv⟩ => ?_) fun _ _ _ => trivial
          exact ⟨_, .negation hnode hs haction hi ha, hv.atoms_eq, hv.tabulates.negate,
            hv.refines.negate⟩
        · rename_i haction
          exact connection_gives .or hoperand hnode hs haction
        · rename_i haction
          exact connection_gives .and hoperand hnode hs haction
        · exact trivial

end Evaluation

namespace Context

/-- **What an evaluation decides lies between Kleene logic and two-valued logic.** In any arena, at
any node and depth, and in any context whose values are regular, an evaluation that succeeds has
evaluated the one expression below the node and has taken an atom for each `U` in it. If strong
Kleene logic decides the expression, the value is that constant. If the value is a constant, it is
the truth of the expression in two-valued logic at every row. -/
theorem evaluate_refines {arena : Arena} {id : NodeId} {depth : Nat} {c c' : Context} {v : Value}
    (hstore : ∀ x w, c.store.get? x = some w → w.Regular) (hlimit : c.limits.maxUnsure ≤ 62)
    (h : (evaluate arena id depth).run c = .ok v c') :
    (∃ f, arena.Expresses id f) ∧ ∀ f, arena.Expresses id f →
      c'.store.atoms = c.store.atoms + f.atoms
        ∧ (∀ b, f.kleene c.store.bindings = some b → v = .const b)
        ∧ ∀ b, v = .const b →
          ∀ i, f.truthAt c.store.bindings i c.store.atoms = some b := by
  have hbindings : ∀ x w, c.store.bindings.get? x = some w → w.WellFormed :=
    fun x w hw => w.regular_iff.mp (hstore x w hw)
  obtain ⟨_, _, hget, h⟩ := Work.exists_of_bind h
  cases hget
  obtain ⟨n, hrun, rfl⟩ := withAtoms_ok h
  have hmeets : arena.Evaluated c.store.bindings id c.store.atoms
      (evaluateAt c.limits arena c.store.bindings (c.limits.room depth) id) :=
    evaluateAt_gives hlimit hbindings _ id _
  obtain ⟨f, hf, hgives⟩ := hmeets.of_ok hrun
  refine ⟨⟨f, hf⟩, fun g hg => ?_⟩
  obtain rfl := hf.unique hg
  refine ⟨hgives.atoms_eq, hgives.refines, ?_⟩
  rintro b rfl i
  exact hgives.tabulates.2 i

/-- The expressions `x and not x`, at node 3, and `T or U`, at node 6. -/
def opposites : Arena where
  nodes := #[⟨.identifier, .inert, ⟨0, 1⟩, 1, .leaf "x"⟩,
    ⟨.valVar, .left, ⟨0, 1⟩, 1, .branch (some 0) none⟩,
    ⟨.operand, .negate, ⟨6, 11⟩, 1, .branch (some 1) none⟩,
    ⟨.expression, .conjoin, ⟨0, 11⟩, 1, .branch (some 1) (some 2)⟩,
    ⟨.operand, .makeTrue, ⟨12, 13⟩, 1, .leaf "T"⟩,
    ⟨.operand, .makeUnsure, ⟨17, 18⟩, 1, .leaf "U"⟩,
    ⟨.expression, .disjoin, ⟨12, 18⟩, 1, .branch (some 4) (some 5)⟩]

/-- A context in which `x` is the first atom. -/
def withAtom : Context where
  store := { bindings := [("x", .table [true, false])], atoms := 1 }

theorem regular_withAtom (x : String) (w : Value) (h : withAtom.store.get? x = some w) :
    w.Regular := by
  have h : (if x = "x" then some (Value.table [true, false]) else none) = some w := h
  split at h
  · cases h
    exact (Value.regular_iff _).mpr ⟨0, rfl⟩
  · cases h

/-- The first expression is `F` there, although Kleene logic does not decide it. The second one is
`T` as it is in Kleene logic, and has taken an atom all the same. -/
theorem evaluate_refines_opposites :
    ∃ v w c₁ c₂, (evaluate opposites 3 0).run withAtom = .ok v c₁
      ∧ (evaluate opposites 6 0).run withAtom = .ok w c₂
      ∧ (∃ f, opposites.Expresses 3 f ∧ f.kleene withAtom.store.bindings = none
        ∧ v = .const false ∧ ∀ i, f.truthAt withAtom.store.bindings i 1 = some false)
      ∧ ∃ f, opposites.Expresses 6 f ∧ f.kleene withAtom.store.bindings = some true
        ∧ w = .const true ∧ c₂.store.atoms = 2 := by
  have hfirst : (match (evaluate opposites 3 0).run withAtom with
      | .ok v _ => some v
      | .error _ _ => none) = some (.const false) := by
    decide +kernel
  have hsecond : (match (evaluate opposites 6 0).run withAtom with
      | .ok _ _ => true
      | .error _ _ => false) = true := by
    decide +kernel
  have hx : opposites.Expresses 1 (.reference "x") := .reference rfl rfl rfl rfl rfl
  have hand : opposites.Expresses 3
      (.connection .and (.reference "x") (.negation (.reference "x"))) :=
    .connection rfl nofun rfl rfl rfl hx (.negation rfl nofun rfl rfl hx)
  have hor : opposites.Expresses 6
      (.connection .or (.constant (.certain true)) (.constant .unsure)) :=
    .connection rfl nofun rfl rfl rfl (.constant rfl nofun rfl) (.constant rfl nofun rfl)
  split at hfirst
  · rename_i v c₁ hrun
    cases hfirst
    split at hsecond
    · rename_i w c₂ hrun'
      obtain ⟨-, -, htruth⟩ := (evaluate_refines regular_withAtom (by decide) hrun).2 _ hand
      obtain ⟨hatoms, hdecided, -⟩ :=
        (evaluate_refines regular_withAtom (by decide) hrun').2 _ hor
      exact ⟨_, w, c₁, c₂, hrun, hrun', ⟨_, hand, rfl, rfl, htruth false rfl⟩,
        ⟨_, hor, rfl, hdecided true rfl, hatoms⟩⟩
    · cases hsecond
  · cases hfirst

end Context

end Trivalent
