import Trivalent.Evaluation
import Trivalent.Journal

/-!
# Running statements

A program tree is walked from its root, and every assignment in it is carried out. A statement
that fails leaves what the statements before it have done.

* `Context` -- the store, the limits and the journal of a run;
* `spine` -- statements in sequence hang from a chain of `BOTH` nodes as long as the program. The
  chain is unrolled instead of descended, so that only the statements count towards the depth;
* `walkLevel` -- all that is walked at one depth; a block inside a block stays at its depth;
* `walk` -- the whole tree.

On a tree every block holds smaller blocks only. A node may also be reached again from itself, in
an arena that was put together by hand; such a walk ends only if it runs out of atoms, and
`blockBound` leaves room for that. Beyond it the walk has no end (`Fault.endless`).
-/

namespace Trivalent

/-- The store, the limits and the journal of a run. -/
structure Context where
  store : Store := {}
  limits : Limits := {}
  journal : Journal := {}
  deriving DecidableEq, Repr

namespace Context

/-- Does something that changes the number of atoms only. -/
def withAtoms {α : Type} (work : Work Nat α) : Work Context α := fun c =>
  match work.run c.store.atoms with
  | .ok a atoms => .ok a { c with store.atoms := atoms }
  | .error e atoms => .error e { c with store.atoms := atoms }

/-- The value of the expression at a node, at the given depth. -/
def evaluate (arena : Arena) (id : NodeId) (depth : Nat) : Work Context Value := do
  let c ← get
  withAtoms (evaluateAt c.limits arena c.store.bindings (c.limits.room depth) id)

/-- Gives a variable a value and says so. -/
def assign (name : String) (value : Value) : Work Context Unit :=
  modify fun c =>
    { c with store := c.store.assign name value, journal := c.journal.note (.assigned name value) }

/-- Carries out the assignment at a node, where `room` levels are left below it. The target is
looked at before the expression is evaluated. -/
def walkAssignment (limits : Limits) (arena : Arena) (room : Nat) (node : Node) :
    Work Context Unit := do
  let target ← arena.fetch (← node.child .left)
  if target.symbol ≠ .valVar then target.report (.notAssignable target.symbol)
  else
    let name ← variableName arena target
    let expression ← node.child .right
    let bindings := (← get).store.bindings
    let value ← limits.descend room
      (withAtoms (evaluateAt limits arena bindings room expression))
    assign name value

/-- The parts of the chain of `BOTH` nodes that starts at `first`, in source order, before `later`.
A chain longer than the arena goes round in a circle. -/
def spine {σ : Type} (arena : Arena) : Nat → NodeId → List NodeId → Work σ (List NodeId)
  | 0, _, _ => Work.refuse .endless
  | length + 1, first, later => do
    let node ← arena.fetch first
    if node.action = .both then
      let right ← node.child .right
      let left ← node.child .left
      spine arena length left (right :: later)
    else return first :: later

/-- The statements of a block in source order. -/
def blockParts {σ : Type} (arena : Arena) (node : Node) : Work σ (List NodeId) := do
  let right ← node.child .right
  let left ← node.child .left
  spine arena (arena.size + 1) left [right]

/-- Walks a node at a depth with `room` levels below it. `deeper` walks a node one level further
down, and `blocks` bounds how many blocks may be nested at this depth. -/
def walkLevel (limits : Limits) (arena : Arena) (room : Nat) (deeper : NodeId → Work Context Unit) :
    Nat → NodeId → Work Context Unit
  | 0, _ => Work.refuse .endless
  | blocks + 1, id => do
    let node ← arena.fetch id
    match node.action with
    | .both => (← blockParts arena node).forM (walkLevel limits arena room deeper blocks)
    | .left => deeper (← node.child .left)
    | .right => deeper (← node.child .right)
    | .assign => walkAssignment limits arena room node
    | action => node.report (.unexpectedAction node.symbol action)

/-- More nested blocks than a walk that ends can have at one depth: between two atoms it enters
each block of the arena at most once. -/
def blockBound (limits : Limits) (arena : Arena) : Nat :=
  (arena.size + 1) * (limits.maxUnsure + 2)

/-- Walks a node where `room` levels are left. -/
def walkAt (limits : Limits) (arena : Arena) : Nat → NodeId → Work Context Unit
  | 0, id => do
    let node ← arena.fetch id
    node.report (.depthLimit limits.maxDepth)
  | room + 1, id =>
    walkLevel limits arena room (fun child => limits.descend room (walkAt limits arena room child))
      (blockBound limits arena) id

/-- Walks the tree below a node and carries out every assignment in it. -/
def walk (arena : Arena) (root : NodeId) : Work Context Unit := do
  let limits := (← get).limits
  walkAt limits arena (limits.room 0) root

end Context

end Trivalent
