import Trivalent.Reduction

/-!
# Derivations

An arena keeps its nodes side by side and lets them refer to one another by number. A `Derivation`
is what lies below one of them, unfolded into a tree: every node with its number, its content and
its children. Statements about what a parse has built are statements about derivations.

* `Derivation` -- a leaf, a node with one child, or a node with two. A leaf is a node from which
  nothing has been unfolded: a token, or any node a reduction started from;
* `Derivation.subtrees`, `Derivation.leaves` -- everything below a node, from left to right;
* `Arena.Holds` -- the arena has every node of the derivation, with just these children, and
  children were made before their parents;
* `Arena.Unfolds` -- the derivation is all that lies below a node. There is at most one
  (`Unfolds.unique`);
* `Arena.Within` -- an arena that has grown: nothing in it has changed.
-/

namespace Trivalent

/-! ## 1. Derivations -/

/-- What lies below a node of an arena. -/
inductive Derivation where
  | leaf (id : NodeId) (node : Node)
  | unary (id : NodeId) (node : Node) (child : Derivation)
  | binary (id : NodeId) (node : Node) (left right : Derivation)
  deriving DecidableEq, Repr

namespace Derivation

/-- The number of the topmost node. -/
def id : Derivation → NodeId
  | leaf id _ => id
  | unary id _ _ => id
  | binary id _ _ _ => id

/-- The topmost node. -/
def node : Derivation → Node
  | leaf _ node => node
  | unary _ node _ => node
  | binary _ node _ _ => node

/-- The symbol of the topmost node. -/
def symbol (d : Derivation) : Symbol := d.node.symbol

/-- The action of the topmost node. -/
def action (d : Derivation) : Action := d.node.action

/-- The children of the topmost node. -/
def children : Derivation → List Derivation
  | leaf _ _ => []
  | unary _ _ child => [child]
  | binary _ _ left right => [left, right]

/-- Everything in a derivation, a node before what is below it, left before right. -/
def subtrees : Derivation → List Derivation
  | leaf id node => [leaf id node]
  | unary id node child => unary id node child :: child.subtrees
  | binary id node left right => binary id node left right :: (left.subtrees ++ right.subtrees)

/-- The leaves with their numbers, from left to right. -/
def leaves : Derivation → List (NodeId × Node)
  | leaf id node => [(id, node)]
  | unary _ _ child => child.leaves
  | binary _ _ left right => left.leaves ++ right.leaves

/-- The place of a derivation in a row that is being reduced. -/
def slot (d : Derivation) : Slot := ⟨d.id, d.symbol⟩

@[simp] theorem symbol_leaf (id : NodeId) (node : Node) : (leaf id node).symbol = node.symbol := rfl

@[simp] theorem symbol_unary (id : NodeId) (node : Node) (child : Derivation) :
    (unary id node child).symbol = node.symbol := rfl

@[simp] theorem symbol_binary (id : NodeId) (node : Node) (left right : Derivation) :
    (binary id node left right).symbol = node.symbol := rfl

end Derivation

/-! ## 2. Arenas that grow -/

namespace Arena

/-- Every node of `arena` is in `other`, under the same number. -/
def Within (arena other : Arena) : Prop :=
  ∀ id node, arena.get? id = some node → other.get? id = some node

theorem Within.refl (arena : Arena) : arena.Within arena := fun _ _ h => h

theorem Within.trans {a b c : Arena} (hab : a.Within b) (hbc : b.Within c) : a.Within c :=
  fun id node h => hbc id node (hab id node h)

theorem get?_lt {arena : Arena} {id : NodeId} {node : Node} (h : arena.get? id = some node) :
    id < arena.size := by
  obtain ⟨hlt, _⟩ := Array.getElem?_eq_some_iff.mp h
  exact hlt

theorem exists_get? {arena : Arena} {id : Nat} (h : id < arena.size) :
    ∃ node, arena.get? id = some node :=
  ⟨_, Array.getElem?_eq_getElem h⟩

theorem within_push (arena : Arena) (node : Node) : arena.Within (arena.push node) := by
  intro id other h
  rw [get?_push, if_neg (Nat.ne_of_lt (get?_lt h))]
  exact h

theorem get?_push_size (arena : Arena) (node : Node) :
    (arena.push node).get? arena.size = some node := by
  rw [get?_push, if_pos rfl]

/-! ## 3. Holding a derivation -/

/-- The arena has every node of a derivation, each one with the children it has there, and made
after them. -/
def Holds (arena : Arena) : Derivation → Prop
  | .leaf id node => arena.get? id = some node
  | .unary id node child =>
    arena.get? id = some node ∧ node.shape = .branch (some child.id) none ∧ child.id < id
      ∧ arena.Holds child
  | .binary id node left right =>
    arena.get? id = some node ∧ node.shape = .branch (some left.id) (some right.id)
      ∧ left.id < id ∧ right.id < id ∧ arena.Holds left ∧ arena.Holds right

theorem Holds.get? {arena : Arena} {d : Derivation} (h : arena.Holds d) :
    arena.get? d.id = some d.node := by
  cases d with
  | leaf => exact h
  | unary => exact h.1
  | binary => exact h.1

theorem Holds.id_lt {arena : Arena} {d : Derivation} (h : arena.Holds d) : d.id < arena.size :=
  get?_lt h.get?

/-- What an arena holds, it holds on when it grows. -/
theorem Holds.mono {a b : Arena} (hab : a.Within b) {d : Derivation} (h : a.Holds d) :
    b.Holds d := by
  induction d with
  | leaf id node => exact hab _ _ h
  | unary id node child ih =>
      obtain ⟨hget, hshape, hlt, hchild⟩ := h
      exact ⟨hab _ _ hget, hshape, hlt, ih hchild⟩
  | binary id node left right ihl ihr =>
      obtain ⟨hget, hshape, hl, hr, hleft, hright⟩ := h
      exact ⟨hab _ _ hget, hshape, hl, hr, ihl hleft, ihr hright⟩

theorem Holds.subtree {arena : Arena} {d e : Derivation} (h : arena.Holds d)
    (he : e ∈ d.subtrees) : arena.Holds e := by
  induction d with
  | leaf id node =>
      rw [List.mem_singleton.mp he]
      exact h
  | unary id node child ih =>
      rcases List.mem_cons.mp he with rfl | he
      · exact h
      · exact ih h.2.2.2 he
  | binary id node left right ihl ihr =>
      rcases List.mem_cons.mp he with rfl | he
      · exact h
      · rcases List.mem_append.mp he with he | he
        · exact ihl h.2.2.2.2.1 he
        · exact ihr h.2.2.2.2.2 he

/-- A derivation is all that lies below the node `root`: its leaves are leaves of the arena. -/
def Unfolds (arena : Arena) (root : NodeId) (d : Derivation) : Prop :=
  arena.Holds d ∧ d.id = root ∧ ∀ l ∈ d.leaves, l.2.literal?.isSome

theorem leaf_ne_branch {node : Node} {left right : Option NodeId} (h : node.literal?.isSome)
    (hshape : node.shape = .branch left right) : False := by
  unfold Node.literal? at h
  rw [hshape] at h
  cases h

theorem Holds.node_eq {arena : Arena} {d e : Derivation} (hd : arena.Holds d) (he : arena.Holds e)
    (hid : d.id = e.id) : d.node = e.node := by
  have h := hd.get?
  rw [hid, he.get?] at h
  exact (Option.some.inj h).symm

/-- **Below a node there is only one derivation.** -/
theorem Unfolds.unique {arena : Arena} {root : NodeId} {d e : Derivation}
    (hd : arena.Unfolds root d) (he : arena.Unfolds root e) : d = e := by
  obtain ⟨hd, hroot, hdl⟩ := hd
  obtain ⟨he, hid, hel⟩ := he
  rw [← hroot] at hid
  clear hroot
  have hnode := he.node_eq hd hid
  -- the shape of the common node decides how both derivations go on
  induction d generalizing e with
  | leaf id node =>
      have hleaf : node.literal?.isSome := hdl (id, node) (List.mem_singleton.mpr rfl)
      cases e with
      | leaf id' node' => cases hid; cases hnode; rfl
      | unary id' node' c => cases hnode; exact (leaf_ne_branch hleaf he.2.1).elim
      | binary id' node' l r => cases hnode; exact (leaf_ne_branch hleaf he.2.1).elim
  | unary id node child ih =>
      cases e with
      | leaf id' node' =>
          cases hnode
          exact (leaf_ne_branch (hel (id', _) (List.mem_singleton.mpr rfl)) hd.2.1).elim
      | unary id' node' c =>
          cases hid
          cases hnode
          injection he.2.1.symm.trans hd.2.1 with hc _
          have hc : c.id = child.id := Option.some.inj hc
          rw [ih hd.2.2.2 hdl he.2.2.2 hc hel (he.2.2.2.node_eq hd.2.2.2 hc)]
      | binary id' node' l r =>
          cases hnode
          injection he.2.1.symm.trans hd.2.1 with _ hr
          cases hr
  | binary id node left right ihl ihr =>
      cases e with
      | leaf id' node' =>
          cases hnode
          exact (leaf_ne_branch (hel (id', _) (List.mem_singleton.mpr rfl)) hd.2.1).elim
      | unary id' node' c =>
          cases hnode
          injection he.2.1.symm.trans hd.2.1 with _ hr
          cases hr
      | binary id' node' l r =>
          cases hid
          cases hnode
          injection he.2.1.symm.trans hd.2.1 with hl hr
          have hl : l.id = left.id := Option.some.inj hl
          have hr : r.id = right.id := Option.some.inj hr
          obtain ⟨-, -, -, -, hdleft, hdright⟩ := hd
          obtain ⟨-, -, -, -, heleft, heright⟩ := he
          rw [ihl hdleft (fun x hx => hdl x (List.mem_append_left _ hx)) heleft hl
              (fun x hx => hel x (List.mem_append_left _ hx)) (heleft.node_eq hdleft hl),
            ihr hdright (fun x hx => hdl x (List.mem_append_right _ hx)) heright hr
              (fun x hx => hel x (List.mem_append_right _ hx)) (heright.node_eq hdright hr)]

end Arena

end Trivalent
