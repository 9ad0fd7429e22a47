import Trivalent.Arena

/-!
# Tree dumps

`Arena.render` writes the tree below a node, one line per node, children indented below their
parent and left before right. The traversal keeps a list of pending nodes with their levels, so a
tree as deep as a long program needs no deep recursion.

In a tree no path is longer than the arena is large. A pending node at a level the arena cannot
have is therefore proof of a cycle, and a dump of it would have no end; that is the fault
`Fault.endless`, and it is what makes the traversal total.
-/

namespace Trivalent

namespace Node

/-- One line of a dump: the symbol, the action unless it is inert, the text of a leaf, the span. -/
def dumpLine (n : Node) (level : Nat) : String :=
  String.join (List.replicate level "  ")
    ++ n.symbol.name
    ++ (if n.action = .inert then "" else " <" ++ n.action.tag ++ ">")
    ++ (match n.literal? with
        | some literal => " '" ++ literal ++ "'"
        | none => "")
    ++ " @" ++ n.span.text ++ "\n"

theorem length_children_le (n : Node) : n.children.length ≤ 2 := by
  unfold children left? right?
  cases n.shape with
  | leaf => simp
  | branch left right => cases left <;> cases right <;> simp

end Node

namespace Arena

/-- What a node with some levels below it may cost: enough for two children one level further
down. -/
def levelCost : Nat → Nat
  | 0 => 1
  | levels + 1 => 3 * levelCost levels

theorem levelCost_pos : ∀ levels, 0 < levelCost levels
  | 0 => Nat.one_pos
  | levels + 1 => Nat.mul_pos (by decide) (levelCost_pos levels)

/-- What a pending node may cost. -/
def dumpWeight (arena : Arena) (level : Nat) : Nat := levelCost (arena.size - level)

theorem dumpWeight_pos (arena : Arena) (level : Nat) : 0 < arena.dumpWeight level :=
  levelCost_pos _

theorem dumpWeight_step (arena : Arena) {level : Nat} (h : level < arena.size) :
    arena.dumpWeight level = 3 * arena.dumpWeight (level + 1) := by
  unfold dumpWeight
  obtain ⟨k, hk⟩ : ∃ k, arena.size - level = k + 1 := ⟨arena.size - level - 1, by omega⟩
  have hk' : arena.size - (level + 1) = k := by omega
  rw [hk, hk', levelCost]

/-- The weight of a whole list of pending nodes. -/
def pendingWeight (arena : Arena) : List (NodeId × Nat) → Nat
  | [] => 0
  | (_, level) :: pending => arena.dumpWeight level + arena.pendingWeight pending

theorem pendingWeight_append (arena : Arena) (p q : List (NodeId × Nat)) :
    arena.pendingWeight (p ++ q) = arena.pendingWeight p + arena.pendingWeight q := by
  induction p with
  | nil => simp [pendingWeight]
  | cons entry p ih => simp [pendingWeight, ih, Nat.add_assoc]

theorem pendingWeight_level (arena : Arena) (ids : List NodeId) (level : Nat) :
    arena.pendingWeight (ids.map (·, level)) = ids.length * arena.dumpWeight level := by
  induction ids with
  | nil => simp [pendingWeight]
  | cons id ids ih => simp [pendingWeight, ih, Nat.add_mul, Nat.add_comm]

/-- Writes the pending nodes and all that is below them, after what is written already. -/
def renderPending (arena : Arena) : List (NodeId × Nat) → String → Except Fault String
  | [], written => .ok written
  | (id, level) :: pending, written =>
    match arena.get? id with
    | none => .error (.outOfRange arena.size id)
    | some node =>
      if level < arena.size then
        arena.renderPending (node.children.map (·, level + 1) ++ pending)
          (written ++ node.dumpLine level)
      else .error .endless
termination_by pending => arena.pendingWeight pending
decreasing_by
  rename_i h
  rw [pendingWeight_append, pendingWeight_level, pendingWeight, dumpWeight_step arena h]
  have h₁ := node.length_children_le
  have h₂ := arena.dumpWeight_pos (level + 1)
  have h₃ := Nat.mul_le_mul_right (arena.dumpWeight (level + 1)) h₁
  omega

/-- The dump of the tree below a node. -/
def render (arena : Arena) (root : NodeId) : Except Fault String :=
  arena.renderPending [(root, 0)] ""

end Arena

end Trivalent
