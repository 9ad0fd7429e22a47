import Trivalent.Arena
import Trivalent.Journal

/-!
# Binding identifiers

While a program is being reduced, a declaration turns every other occurrence of its name that is
still a raw identifier into a variable. This file fixes

* `Workspace` -- what a parse works on: the arena, the names bound so far, the journal;
* `Workspace.wrapAll` -- every raw identifier with a given text is covered by a new node with the
  symbol of the declaration; all else stays in place;
* `Workspace.bindName` -- one declaration: find its name, wrap its occurrences, remember the name.

Binding reaches the whole program and knows no scopes.
-/

namespace Trivalent

/-- What a parse works on. -/
structure Workspace where
  arena : Arena := {}
  /-- Names bound so far, in the order of their declarations. -/
  bound : List String := []
  journal : Journal := {}
  deriving DecidableEq, Repr

/-- Whether a node is a raw identifier with the given text. -/
def Node.isIdentifier (n : Node) (name : String) : Bool :=
  n.symbol == .identifier && n.literal? == some name

namespace Workspace

/-- Adds a node and gives its number. -/
def push (node : Node) : Work Workspace NodeId :=
  modifyGet fun w => (w.arena.size, { w with arena := w.arena.push node })

/-- Adds the parent of one or two nodes and gives its number. -/
def pushParent (symbol : Symbol) (action : Action) (left : NodeId) (right : Option NodeId) :
    Work Workspace NodeId := do
  push (← (← get).arena.parent symbol action left right)

/-- Writes an event into the journal. -/
def note (e : Event) : Work Workspace Unit :=
  modify fun w => { w with journal := w.journal.note e }

/-- Covers a node by a variable if it is a raw identifier with the given text. -/
def wrap (symbol : Symbol) (name : String) (id : NodeId) : Work Workspace NodeId := do
  let node ← (← get).arena.fetch id
  if node.isIdentifier name then pushParent symbol .left id none else pure id

/-- Covers every raw identifier with the given text, from left to right. -/
def wrapAll (symbol : Symbol) (name : String) (live : List NodeId) :
    Work Workspace (List NodeId) :=
  live.mapM (wrap symbol name)

/-- The name that a declaration declares: the text of its left child. -/
def declaredName? {σ : Type} (arena : Arena) (declaration : Node) : Work σ (Option String) :=
  match declaration.left? with
  | some id => do return (← arena.fetch id).literal?
  | none => pure none

/-- Binds the name declared by the node `trigger` in the sequence `live`. Gives the number of
occurrences that were covered and the new sequence. A node that declares no name changes nothing. -/
def bindName (trigger : NodeId) (live : List NodeId) : Work Workspace (Nat × List NodeId) := do
  let arena := (← get).arena
  let declaration ← arena.fetch trigger
  match ← declaredName? arena declaration with
  | none => return (0, live)
  | some name =>
    let covered ← wrapAll declaration.symbol name live
    let occurrences := (← get).arena.size - arena.size
    note (.bound name declaration.symbol occurrences)
    modify fun w => { w with bound := w.bound ++ [name] }
    return (occurrences, covered)

end Workspace

end Trivalent
