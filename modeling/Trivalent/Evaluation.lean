import Trivalent.Arena
import Trivalent.Store

/-!
# Evaluating expressions

The value of the expression below a node. Variables are read from the store; every other node is
evaluated by its action, the left operand before the right one, and both always. The order fixes
how unsure atoms are numbered.

Evaluation reads the store and changes nothing in it but the number of atoms, so its state is that
number alone.

* `Limits` -- how deep expressions may nest and how many atoms a run may use;
* `Limits.room` -- how many levels are left at a given depth; evaluation descends along it, and
  ends because it does;
* `nextAtom` -- the next unsure atom of a run;
* `evaluateAt` -- the value of an expression.
-/

namespace Trivalent

/-! ## 1. Limits -/

/-- The limits of a run. Both are machine words. -/
structure Limits where
  /-- The deepest level that is still evaluated. -/
  maxDepth : Nat := 256
  /-- The most unsure atoms a run may use. -/
  maxUnsure : Nat := 20
  deriving DecidableEq, Repr

namespace Limits

/-- Levels left at a depth, the present one included. None are left beyond the limit. -/
def room (limits : Limits) (depth : Nat) : Nat := limits.maxDepth + 1 - depth

/-- Goes one level down, where `room` levels are left below the present one, which makes
`maxDepth - room` the present depth. The next depth has to be a machine word as well. -/
def descend {σ α : Type} (limits : Limits) (room : Nat) (next : Work σ α) : Work σ α :=
  if maxWord ≤ limits.maxDepth - room then Work.refuse .depthOverflow else next

/-- As long as the depth is a machine word, it is no reason not to go on. -/
theorem descend_of_lt {σ α : Type} {limits : Limits} {room : Nat}
    (hword : limits.maxDepth < maxWord + room) (next : Work σ α) :
    limits.descend room next = next := by
  have hpos : 0 < maxWord := by decide
  exact if_neg (by omega)

end Limits

/-! ## 2. Variables and atoms -/

/-- The name of a variable: the text of the identifier below it. -/
def variableName {σ : Type} (arena : Arena) (node : Node) : Work σ String := do
  let name ← match node.left? with
    | some id => do pure (← arena.fetch id).literal?
    | none => pure none
  match name with
  | some name => return name
  | none => node.report (.nameless node.symbol)

/-- The value of the variable at a node. -/
def readVariable {σ : Type} (arena : Arena) (bindings : Bindings) (node : Node) :
    Work σ Value := do
  let name ← variableName arena node
  match bindings.get? name with
  | some value => return value
  | none => node.report (.unknownVariable name)

/-- The next unsure atom. It is counted first, and counts even if its table is too large. -/
def nextAtom : Work Nat Value := do
  modify (· + 1)
  match Value.atom (← get) with
  | .ok value => return value
  | .error fault => Work.refuse fault

/-- A fresh unsure atom for a node, if the limit allows one more. -/
def freshAtom (limits : Limits) (node : Node) : Work Nat Value := do
  if limits.maxUnsure ≤ (← get) then node.report (.unsureLimit limits.maxUnsure) else nextAtom

/-! ## 3. Expressions -/

/-- The value of the expression at a node, where `room` levels are left. -/
def evaluateAt (limits : Limits) (arena : Arena) (bindings : Bindings) :
    Nat → NodeId → Work Nat Value
  | 0, id => do
    let node ← arena.fetch id
    node.report (.depthLimit limits.maxDepth)
  | room + 1, id => do
    let node ← arena.fetch id
    let below (child : NodeId) : Work Nat Value :=
      limits.descend room (evaluateAt limits arena bindings room child)
    if node.symbol = .valVar then readVariable arena bindings node
    else
      match node.action with
      | .makeTrue => return .const true
      | .makeFalse => return .const false
      | .makeUnsure => freshAtom limits node
      | .left => below (← node.child .left)
      | .negate => return (← below (← node.child .left)).negate
      | .disjoin => do
        let left ← below (← node.child .left)
        let right ← below (← node.child .right)
        return left.or right
      | .conjoin => do
        let left ← below (← node.child .left)
        let right ← below (← node.child .right)
        return left.and right
      | action => node.report (.unexpectedAction node.symbol action)

end Trivalent
