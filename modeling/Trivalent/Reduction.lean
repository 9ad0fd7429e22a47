import Trivalent.Binding
import Trivalent.Grammar

/-!
# Reduction

A parse starts with the leaves of a program in a row. Again and again the widest, leftmost window
of the row that is a frame of the grammar is replaced by one node over it, until no window is a
frame. There is no way back: a row on which an early choice blocks a later one is simply rejected.

* `reduceWindow` -- one reduction, and the binding it sets off if it declares a variable;
* `reduceRow` -- reductions until none applies;
* `stepBound` -- more reductions than a parse that ends can make. A longer one goes round in a
  circle of one-symbol rules, and that is the fault `Fault.endless`;
* `reduce` -- the parse of a row of nodes: the one node that is left, or what could not be reduced;
* `parse` -- the parse of a whole program by the standard grammar.
-/

namespace Trivalent

/-- What a declaration does when it is reduced. -/
inductive BindingMode where
  /-- Nothing. -/
  | ignore
  /-- It binds the other occurrences of its name. -/
  | bind
  deriving DecidableEq, Repr

/-- A node of the row that is being reduced, with its symbol. -/
structure Slot where
  id : NodeId
  symbol : Symbol
  deriving DecidableEq, Repr

namespace Workspace

/-- The slots for a row of nodes, all of which are required to exist. -/
def slots (row : List NodeId) : Work Workspace (List Slot) := do
  let arena := (← get).arena
  row.mapM fun id => do return ⟨id, (← arena.fetch id).symbol⟩

/-- A slot of a window by its position. -/
def pick {σ : Type} (window : List Slot) (position : Nat) : Work σ Slot :=
  match window[position]? with
  | some slot => pure slot
  | none => Work.refuse (.outOfRange window.length position)

/-- The children that a production takes from a window. -/
def pickChildren {σ : Type} (window : List Slot) (p : Production) : Work σ (Slot × Option Slot) := do
  let left ← pick window p.left
  if p.hasRight then return (left, some (← pick window p.right)) else return (left, none)

/-- Replaces a window by one node over its children, then binds what the node declares. -/
def reduceWindow (mode : BindingMode) (row : List Slot) (w : Grammar.Window) :
    Work Workspace (List NodeId) := do
  let window := (row.drop w.position).take w.width
  let (left, right) ← pickChildren window w.production
  let reduced ← pushParent w.production.result w.production.action left.id (right.map (·.id))
  note (.reduced w.production.result (left.symbol :: (right.map (·.symbol)).toList)
    (window.map (·.symbol)))
  let row := (row.take w.position).map (·.id)
    ++ reduced :: (row.drop (w.position + w.width)).map (·.id)
  if w.production.declares && mode == .bind then
    return (← bindName reduced row).2
  else
    return row

/-- A row that cannot be reduced any further is a success if it is one node. -/
def conclude (row : List Slot) : Work Workspace NodeId :=
  match row with
  | [] => throw (.diagnostic ⟨.unexpectedEnd, none, 1⟩)
  | [slot] => pure slot.id
  | first :: second :: rest => do
    let arena := (← get).arena
    let head ← arena.fetch first.id
    let last ← arena.fetch ((second :: rest).getLast (by simp)).id
    Work.report (.irreducible (row.map (·.symbol))) (head.span.union last.span) head.line

/-- Reduces a row until no window is a frame, in at most `steps` reductions. -/
def reduceRow (g : Grammar) (mode : BindingMode) : Nat → List Slot → Work Workspace NodeId
  | steps, row =>
    match g.find (row.map (·.symbol)) with
    | none => conclude row
    | some window =>
      match steps with
      | 0 => Work.refuse .endless
      | steps + 1 => do
        let row ← slots (← reduceWindow mode row window)
        note (.remaining (row.map (·.symbol)))
        reduceRow g mode steps row

/-- A row of `n` nodes shrinks at most `n - 1` times and has at most `n` identifiers to bind. In
between, each of its nodes can change its symbol by one-symbol rules, and does so less often than
there are symbols unless the rules run in a circle. -/
def stepBound (n : Nat) : Nat := (2 * n + 1) * (Symbol.all.length * (n + 1) + 1)

/-- Parses a row of nodes to the one node that is left. -/
def reduce (g : Grammar) (mode : BindingMode) (row : List NodeId) : Work Workspace NodeId :=
  if row.isEmpty then throw (.diagnostic ⟨.unexpectedEnd, none, 1⟩)
  else do reduceRow g mode (stepBound row.length) (← slots row)

end Workspace

/-- The workspace of a parse that starts from the leaves of a program. -/
def Workspace.ofLeaves (leaves : List Node) (journal : Journal) : Workspace :=
  { arena := ({} : Arena).pushAll leaves, journal }

/-- Parses the leaves of a program by the standard grammar, binding identifiers on the way. -/
def parse (leaves : List Node) (journal : Journal) : EStateM.Result Failure Workspace NodeId :=
  (Workspace.reduce .standard .bind (List.range leaves.length)).run
    (Workspace.ofLeaves leaves journal)

end Trivalent
