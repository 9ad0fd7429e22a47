import Trivalent.Arena.Render
import Trivalent.Proofs.Reduction.Forest
import Trivalent.Proofs.Work

/-!
# A dump lists nodes in preorder

A dump is written from a list of pending nodes: the first of them gets its line, and its children
take its place. What comes out is the listing that a recursion along the children gives. The
recursion is not one over a tree, for a child is any older node of the arena, and two nodes may have
the same one; it ends because numbers get smaller.

* `Line` -- one line of a dump, with its written form; `Node.dumpLine_eq` -- lines are written so;
* `Arena.preorder` -- the listing: a node, then what is below its left child, then what is below its
  right one;
* `Arena.renderPending_preorder` -- **what is below a pending node is written as a whole**, whatever
  else is pending;
* `Arena.mem_listed` -- all that can be reached is listed; `Arena.Forest.nodup_listed` -- in a
  forest it is listed once;
* `Arena.render_preorder` -- **a dump is the listing in preorder**, and lists every node of a tree
  that was parsed exactly once.
-/

namespace Trivalent

open Trivalent.Derivation

/-! ## 1. Lines -/

/-- A line of a dump: a node, its number, and how far it lies below the root. -/
structure Line where
  level : Nat
  id : NodeId
  node : Node
  deriving DecidableEq, Repr

/-- The written form of a line: two blanks for each level, the symbol, the action in angle brackets
unless the node is inert, the text of a leaf in quotes, and the span. -/
def Line.text (line : Line) : String :=
  String.ofList (List.replicate (2 * line.level) ' ')
    ++ line.node.symbol.name
    ++ (if line.node.action = .inert then "" else " <" ++ line.node.action.tag ++ ">")
    ++ (match line.node.shape with
        | .leaf literal => " '" ++ literal ++ "'"
        | .branch _ _ => "")
    ++ " @" ++ toString line.node.span.start ++ ".." ++ toString line.node.span.stop ++ "\n"

theorem join_replicate_blanks (level : Nat) :
    String.join (List.replicate level "  ") = String.ofList (List.replicate (2 * level) ' ') := by
  induction level with
  | zero => rfl
  | succ level ih =>
      rw [List.replicate_succ, String.join_cons, ih, Nat.mul_succ, Nat.add_comm,
        List.replicate_add, String.ofList_append]
      rfl

theorem Node.dumpLine_eq (node : Node) (level : Nat) (id : NodeId) :
    node.dumpLine level = Line.text ⟨level, id, node⟩ := by
  unfold Node.dumpLine Line.text Span.text Node.literal?
  rw [join_replicate_blanks]
  cases node.shape <;> simp only [String.append_assoc]

/-! ## 2. The listing -/

namespace Arena

/-- A node and all that is below it, the node first, its left child before its right one. -/
def preorder {arena : Arena} (h : arena.Founded) (level : Nat) (id : NodeId) : List Line :=
  match hget : arena.get? id with
  | none => []
  | some node =>
    ⟨level, id, node⟩ :: node.children.attach.flatMap fun ⟨child, hchild⟩ =>
      have : child < id := h hget hchild
      preorder h (level + 1) child
termination_by id

section Founded

variable {arena : Arena} (h : arena.Founded) {id : Nat} {node : Node}

theorem preorder_eq (hget : arena.get? id = some node) (level : Nat) :
    preorder h level id
      = ⟨level, id, node⟩ :: node.children.flatMap (preorder h (level + 1)) := by
  conv => lhs; unfold preorder
  split
  · rename_i hnone
    rw [hget] at hnone
    cases hnone
  · rename_i other hother
    rw [hget] at hother
    cases hother
    rw [List.flatMap_subtype (g := preorder h (level + 1)) fun _ _ => rfl, List.unattach_attach]

include h in
/-- Children are nodes of the arena. -/
theorem Founded.child_lt {child : NodeId} (hget : arena.get? id = some node)
    (hchild : child ∈ node.children) : child < arena.size :=
  Nat.lt_trans (h hget hchild) (get?_lt hget)

/-- A node that can be written is written, and then its children are, before what was pending. -/
theorem renderPending_step {arena : Arena} {id : NodeId} {node : Node}
    (hget : arena.get? id = some node) {level : Nat} (hlevel : level < arena.size)
    (pending : List (NodeId × Nat)) (written : String) :
    arena.renderPending ((id, level) :: pending) written
      = arena.renderPending (node.children.map (·, level + 1) ++ pending)
          (written ++ node.dumpLine level) := by
  rw [renderPending, hget]
  exact if_pos hlevel

/-- **What is below a pending node is written as a whole**, and then what was pending. -/
theorem renderPending_preorder {level : Nat} (hlevel : level + id < arena.size)
    (pending : List (NodeId × Nat)) (written : String) :
    arena.renderPending ((id, level) :: pending) written
      = arena.renderPending pending
          (written ++ String.join ((preorder h level id).map Line.text)) := by
  induction id using Nat.strongRecOn generalizing level pending written with
  | ind id ih =>
      obtain ⟨node, hget⟩ : ∃ node, arena.get? id = some node := exists_get? (by omega)
      -- children are written one after another, with what is still pending behind them
      have hchildren : ∀ ids : List Nat, (∀ child ∈ ids, child < id) → ∀ written,
          arena.renderPending (ids.map (·, level + 1) ++ pending) written
            = arena.renderPending pending (written
              ++ String.join ((ids.flatMap (preorder h (level + 1))).map Line.text)) := by
        intro ids hids
        induction ids with
        | nil => intro written; simp
        | cons child ids ihids =>
            intro written
            have hlt := hids child List.mem_cons_self
            rw [List.map_cons, List.cons_append, ih child hlt (by omega),
              ihids fun other hother => hids other (List.mem_cons_of_mem _ hother),
              List.flatMap_cons, List.map_append, String.join_append, String.append_assoc]
      rw [renderPending_step hget (by omega), hchildren _ fun child hchild => h hget hchild,
        preorder_eq h hget, List.map_cons, String.join_cons, node.dumpLine_eq level id,
        String.append_assoc]

theorem render_eq_preorder (hid : id < arena.size) :
    arena.render id = .ok (String.join ((preorder h 0 id).map Line.text)) := by
  unfold render
  rw [renderPending_preorder h (by omega), renderPending, String.empty_append]

/-! ## 3. What is listed -/

/-- One node is a child of another. -/
def HasChild (arena : Arena) (parent child : NodeId) : Prop :=
  ∃ node, arena.get? parent = some node ∧ child ∈ node.children

/-- A node can be reached from another by going from parents to children. -/
def Reaches (arena : Arena) : NodeId → NodeId → Prop := Relation.ReflTransGen arena.HasChild

include h in
theorem Founded.le_of_reaches {other : Nat} (hreach : arena.Reaches id other) : other ≤ id := by
  induction hreach with
  | refl => exact Nat.le_refl id
  | tail _ hchild ih =>
      obtain ⟨node, hget, hmem⟩ := hchild
      exact Nat.le_trans (Nat.le_of_lt (h hget hmem)) ih

/-- The numbers that are listed. -/
def listed {arena : Arena} (h : arena.Founded) (level : Nat) (id : NodeId) : List NodeId :=
  (preorder h level id).map (·.id)

theorem listed_eq (hget : arena.get? id = some node) (level : Nat) :
    listed h level id = id :: node.children.flatMap (listed h (level + 1)) := by
  unfold listed
  rw [preorder_eq h hget, List.map_cons, List.map_flatMap]

/-- **What can be reached is listed**, and nothing else is. -/
theorem mem_listed (hid : id < arena.size) (level : Nat) (other : NodeId) :
    other ∈ listed h level id ↔ arena.Reaches id other := by
  induction id using Nat.strongRecOn generalizing level with
  | ind id ih =>
      obtain ⟨node, hget⟩ := exists_get? hid
      rw [listed_eq h hget, List.mem_cons, List.mem_flatMap]
      constructor
      · rintro (rfl | ⟨child, hchild, hmem⟩)
        · exact .refl
        · have hbelow := (ih child (h hget hchild) (h.child_lt hget hchild) (level + 1)).mp hmem
          exact .head ⟨node, hget, hchild⟩ hbelow
      · intro hreach
        rcases Relation.ReflTransGen.cases_head hreach with
          rfl | ⟨child, ⟨node', hget', hchild⟩, hbelow⟩
        · exact .inl rfl
        · rw [hget] at hget'
          cases hget'
          exact .inr ⟨child, hchild,
            (ih child (h hget hchild) (h.child_lt hget hchild) (level + 1)).mpr hbelow⟩

end Founded

/-! ## 4. Forests -/

section Forest

variable {arena : Arena} {live : List NodeId}

/-- Two children of a node have nothing below them in common. -/
theorem Forest.disjoint_children (hforest : arena.Forest live) {id left right other : Nat}
    {node : Node} (hget : arena.get? id = some node) (hleft : left ∈ node.children)
    (hright : right ∈ node.children) (hne : left ≠ right) (hl : arena.Reaches left other)
    (hr : arena.Reaches right other) : False := by
  -- a child that is reached from the other one is reached through its parent, which is younger
  have hapart : ∀ {a b : Nat}, a ∈ node.children → b ∈ node.children → a ≠ b →
      ¬ arena.Reaches a b := by
    intro a b ha hb hab hreach
    rcases Relation.ReflTransGen.cases_tail hreach with rfl | ⟨parent, hparent, node', hget', hb'⟩
    · exact hab rfl
    · have hsame : parent = id := hforest.parent_unique hget' hget hb' hb
      subst hsame
      have hle := hforest.founded.le_of_reaches hparent
      have hlt := hforest.founded hget ha
      omega
  have hunique : Relator.RightUnique (Function.swap arena.HasChild) := by
    rintro child a b ⟨m, hm, hmc⟩ ⟨n, hn, hnc⟩
    exact hforest.parent_unique hm hn hmc hnc
  have hswap : ∀ {a b}, arena.Reaches a b →
      Relation.ReflTransGen (Function.swap arena.HasChild) b a := fun hreach =>
    Relation.reflTransGen_swap.mpr hreach
  rcases Relation.ReflTransGen.total_of_right_unique hunique (hswap hl) (hswap hr) with hup | hup
  · exact hapart hright hleft hne.symm (Relation.reflTransGen_swap.mp hup)
  · exact hapart hleft hright hne (Relation.reflTransGen_swap.mp hup)

/-- **In a forest nothing is listed twice.** -/
theorem Forest.nodup_listed (hforest : arena.Forest live) {id : Nat} (hid : id < arena.size)
    (level : Nat) : (listed hforest.founded level id).Nodup := by
  have h := hforest.founded
  induction id using Nat.strongRecOn generalizing level with
  | ind id ih =>
      obtain ⟨node, hget⟩ := exists_get? hid
      have hmem : ∀ {child other}, child ∈ node.children → other ∈ listed h (level + 1) child →
          arena.Reaches child other := fun hchild =>
        (mem_listed h (h.child_lt hget hchild) (level + 1) _).mp
      rw [listed_eq h hget, List.nodup_cons, List.nodup_flatMap]
      refine ⟨fun hself => ?_, fun child hchild => ?_, ?_⟩
      · obtain ⟨child, hchild, hbelow⟩ := List.mem_flatMap.mp hself
        have hle := h.le_of_reaches (hmem hchild hbelow)
        have hlt := h hget hchild
        omega
      · exact ih child (h hget hchild) (h.child_lt hget hchild) (level + 1)
      · refine (hforest.apart hget).imp_of_mem fun hleft hright hne other hl hr => ?_
        exact hforest.disjoint_children hget hleft hright hne (hmem hleft hl) (hmem hright hr)

end Forest

end Arena

/-! ## 5. Dumps -/

namespace Arena

/-- **A dump is the listing in preorder.** In every arena in which children are older than their
parents, the dump below a node comes to an end and is the lines of the listing one after another;
what is listed is what can be reached. Where a reduction of leaves, by whatever grammar and with
identifiers bound or not, comes to a root, as the parse of a program does, the arena is of this kind
and every node that can be reached from the root is listed exactly once. -/
theorem render_preorder :
    (∀ {arena : Arena} (h : arena.Founded) {root : NodeId}, root < arena.size →
        arena.render root = .ok (String.join ((preorder h 0 root).map Line.text))
          ∧ ∀ id, id ∈ listed h 0 root ↔ arena.Reaches root id)
      ∧ ∀ {g : Grammar} {mode : BindingMode} {leaves : List Node} {journal : Journal}
          {root : NodeId} {w : Workspace}, (∀ n ∈ leaves, n.literal?.isSome) →
        (Workspace.reduce g mode (List.range leaves.length)).run (.ofLeaves leaves journal)
          = .ok root w →
        ∃ h : w.arena.Founded, root < w.arena.size
          ∧ w.arena.render root = .ok (String.join ((preorder h 0 root).map Line.text))
          ∧ ∀ id, w.arena.Reaches root id → (listed h 0 root).count id = 1 := by
  refine ⟨fun h _ hroot => ⟨render_eq_preorder h hroot, mem_listed h hroot 0⟩, ?_⟩
  intro g mode leaves journal root w hleaves hreduce
  have hforest := Workspace.forest_of_reduce hleaves (fun id hid => List.mem_range.mp hid)
    List.nodup_range hreduce
  have hroot : root < w.arena.size := hforest.present List.mem_cons_self
  refine ⟨hforest.founded, hroot, render_eq_preorder _ hroot, fun id hreach => ?_⟩
  exact List.count_eq_one_of_mem (hforest.nodup_listed hroot 0)
    ((mem_listed hforest.founded hroot 0 id).mpr hreach)

/-- A leaf that is both children of a node, which is the right child of another one. -/
def sharing : Arena where
  nodes := #[.terminal .operand "T" ⟨0, 1⟩ 1 .makeTrue,
    ⟨.operand, .disjoin, ⟨0, 1⟩, 1, .branch (some 0) (some 0)⟩,
    ⟨.expression, .right, ⟨0, 1⟩, 1, .branch none (some 1)⟩]

theorem founded_sharing : sharing.Founded := by
  intro id node child hget hchild
  match id, hget with
  | 0, hget => cases hget; cases hchild
  | 1, hget => cases hget; revert hchild child; decide
  | 2, hget => cases hget; revert hchild child; decide
  | _ + 3, hget => cases hget

/-- The leaf is listed twice, once for each time that it occurs. In the tree of `val x` every node
is listed once. -/
theorem render_preorder_shared :
    (listed founded_sharing 0 2 = [2, 1, 0, 0]
        ∧ sharing.render 2 = .ok (String.join ["VAL-EXPR <RIGHT> @0..1\n",
            "  VAL-SUBEXPR <or> @0..1\n", "    VAL-SUBEXPR <true> 'T' @0..1\n",
            "    VAL-SUBEXPR <true> 'T' @0..1\n"]))
      ∧ ∃ w, ∃ h : w.arena.Founded, parse [.terminal .valWord "val" ⟨0, 3⟩ 1 .inert,
          .terminal .identifier "x" ⟨4, 5⟩ 1 .inert] {} = .ok 2 w
        ∧ ∀ id, w.arena.Reaches 2 id → (listed h 0 2).count id = 1 := by
  have hleaf : ∀ level, preorder founded_sharing level 0
      = [⟨level, 0, .terminal .operand "T" ⟨0, 1⟩ 1 .makeTrue⟩] := preorder_eq founded_sharing rfl
  have hlisting : preorder founded_sharing 0 2
      = [⟨0, 2, ⟨.expression, .right, ⟨0, 1⟩, 1, .branch none (some 1)⟩⟩,
        ⟨1, 1, ⟨.operand, .disjoin, ⟨0, 1⟩, 1, .branch (some 0) (some 0)⟩⟩,
        ⟨2, 0, .terminal .operand "T" ⟨0, 1⟩ 1 .makeTrue⟩,
        ⟨2, 0, .terminal .operand "T" ⟨0, 1⟩ 1 .makeTrue⟩] := by
    rw [preorder_eq founded_sharing rfl]
    show _ :: (preorder founded_sharing 1 1 ++ []) = _
    rw [preorder_eq founded_sharing rfl]
    show _ :: (_ :: (preorder founded_sharing 2 0 ++ (preorder founded_sharing 2 0 ++ [])) ++ [])
      = _
    rw [hleaf]
    rfl
  refine ⟨⟨?_, ?_⟩, ?_⟩
  · unfold listed
    rw [hlisting]
    rfl
  · rw [(render_preorder.1 founded_sharing (by decide)).1, hlisting]
    decide +kernel
  · have hcomputed : (Work.succeeded (parse [.terminal .valWord "val" ⟨0, 3⟩ 1 .inert,
        .terminal .identifier "x" ⟨4, 5⟩ 1 .inert] {})).map (·.1) = some 2 := by decide +kernel
    obtain ⟨⟨root, w⟩, hsucceeded, hroot⟩ := Option.map_eq_some_iff.mp hcomputed
    cases hroot
    have hparse := Work.eq_ok_of_succeeded hsucceeded
    obtain ⟨h, -, -, honce⟩ := render_preorder.2 (by decide) hparse
    exact ⟨w, h, hparse, honce⟩

end Arena

end Trivalent
