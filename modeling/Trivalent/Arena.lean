import Trivalent.Failure

/-!
# Nodes and the arena that holds them

A program is lexed into leaves and folded into branches, and every node ever made lives in one
arena, numbered in the order of creation. This file fixes

* `Node` -- a symbol, an action, a place and a shape: a leaf with its text, or a branch with up to
  two children given by number;
* `Arena` -- the growing sequence of nodes; a node never changes once it is in;
* `Arena.fetch` -- a node by its number, with a fault for a number that does not exist;
* `Arena.parent` -- the branch over one or two given nodes: it starts where its left child starts
  and stops where its last child stops;
* `Arena.Founded` -- children are older than their parents.
-/

namespace Trivalent

/-- The number of a node in its arena. -/
abbrev NodeId := Nat

/-! ## 1. Nodes -/

/-- A leaf carries source text, a branch refers to its children. -/
inductive Shape where
  | leaf (literal : String)
  | branch (left right : Option NodeId)
  deriving DecidableEq, Repr

/-- One node of a syntax tree. -/
structure Node where
  symbol : Symbol
  action : Action
  span : Span
  /-- The line on which the node starts, counted from one. -/
  line : Nat
  shape : Shape
  deriving DecidableEq, Repr

namespace Node

/-- A leaf with its text. -/
def terminal (symbol : Symbol) (literal : String) (span : Span) (line : Nat) (action : Action) :
    Node :=
  ⟨symbol, action, span, line, .leaf literal⟩

/-- The text of a leaf. -/
def literal? (n : Node) : Option String :=
  match n.shape with
  | .leaf literal => some literal
  | .branch _ _ => none

/-- The left child of a branch. -/
def left? (n : Node) : Option NodeId :=
  match n.shape with
  | .leaf _ => none
  | .branch left _ => left

/-- The right child of a branch. -/
def right? (n : Node) : Option NodeId :=
  match n.shape with
  | .leaf _ => none
  | .branch _ right => right

/-- The children of a node, left before right. -/
def children (n : Node) : List NodeId := n.left?.toList ++ n.right?.toList

/-- Fails with a problem at this node. -/
def report {σ α : Type} (n : Node) (problem : Problem) : Work σ α :=
  Work.report problem n.span n.line

/-- The child on a side. -/
def child? (n : Node) : Side → Option NodeId
  | .left => n.left?
  | .right => n.right?

/-- The child on a side, which the node is required to have. -/
def child {σ : Type} (n : Node) (side : Side) : Work σ NodeId :=
  match n.child? side with
  | some id => pure id
  | none => n.report (.missingChild n.symbol side)

/-- A node has a child on a side, or it is reported that it has none there. -/
theorem child_cases {σ : Type} (n : Node) (side : Side) :
    (∃ id, n.child? side = some id ∧ (n.child side : Work σ NodeId) = pure id)
      ∨ n.child? side = none
        ∧ (n.child side : Work σ NodeId) = n.report (.missingChild n.symbol side) := by
  unfold child
  cases n.child? side with
  | none => exact .inr ⟨rfl, rfl⟩
  | some id => exact .inl ⟨id, rfl, rfl⟩

end Node

/-! ## 2. The arena -/

/-- Every node made so far, in the order of creation. -/
structure Arena where
  nodes : Array Node := #[]
  deriving DecidableEq, Repr

namespace Arena

/-- Number of nodes ever made. -/
def size (arena : Arena) : Nat := arena.nodes.size

/-- The node with a given number, if there is one. -/
def get? (arena : Arena) (id : NodeId) : Option Node := arena.nodes[id]?

/-- Adds a node at the end; its number is the size before. -/
def push (arena : Arena) (node : Node) : Arena := ⟨arena.nodes.push node⟩

/-- Adds nodes one after another. -/
def pushAll (arena : Arena) (nodes : List Node) : Arena := nodes.foldl push arena

/-- The numbers that `count` nodes receive when they are added next. -/
def nextIds (arena : Arena) (count : Nat) : List NodeId := List.range' arena.size count

/-- The node with a given number, which is required to exist. -/
def fetch {σ : Type} (arena : Arena) (id : NodeId) : Work σ Node :=
  match arena.get? id with
  | some node => pure node
  | none => Work.refuse (.outOfRange arena.size id)

/-- The symbols of the given nodes, all of which are required to exist. -/
def symbols {σ : Type} (arena : Arena) (ids : List NodeId) : Work σ (List Symbol) :=
  ids.mapM fun id => do return (← arena.fetch id).symbol

/-- The names of the given nodes, one blank between neighbours; all of the nodes are required to
exist. -/
def names {σ : Type} (arena : Arena) (ids : List NodeId) : Work σ String := do
  return Symbol.joinNames (← arena.symbols ids)

/-- The node one level above `left` and, if given, `right`. It takes its line from the left child
and reaches from the start of the left child to the stop of the last one. -/
def parent {σ : Type} (arena : Arena) (symbol : Symbol) (action : Action) (left : NodeId)
    (right : Option NodeId) : Work σ Node := do
  let first ← arena.fetch left
  let last ← match right with
    | some id => arena.fetch id
    | none => pure first
  return ⟨symbol, action, ⟨first.span.start, last.span.stop⟩, first.line,
    .branch (some left) right⟩

/-- Children are older than their parents. -/
def Founded (arena : Arena) : Prop :=
  ∀ ⦃id : Nat⦄ ⦃node : Node⦄ ⦃child : Nat⦄, arena.get? id = some node →
    child ∈ node.children → child < id

@[simp] theorem size_push (arena : Arena) (node : Node) :
    (arena.push node).size = arena.size + 1 := by
  simp [size, push]

/-- The new node answers to the old size, and all earlier nodes stay what they were. -/
theorem get?_push (arena : Arena) (node : Node) (id : NodeId) :
    (arena.push node).get? id = if id = arena.size then some node else arena.get? id := by
  simp only [get?, push, size, Array.getElem?_push]
  rfl

end Arena

/-- A fully reduced program: the arena and the one node that is left. -/
structure Tree where
  arena : Arena
  root : NodeId
  deriving DecidableEq, Repr

end Trivalent
