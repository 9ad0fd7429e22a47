import Trivalent.Proofs.Evaluation.Tree

/-!
# The walk as a plain recursion

A walk unrolls a chain of `BOTH` nodes: it goes down the left children, keeps the right ones for
later, and asks for the depth once for the whole chain. A block to the right is entered anew. None
of this can be seen from outside: a `BOTH` node is walked by walking its left child and then its
right one, both at its own depth.

* `Arena.Sequenced` -- children are older than their parents, and a `BOTH` node has two of them;
* `Context.walkPlain` -- the walk by plain recursion, which ends because numbers get smaller;
* `Arena.InOrder` -- what takes every `BOTH` node as its two children; `Context.spine_unrolls` -- it
  takes a chain as the parts of the chain, in order;
* `Context.walkLevel_eq_walkPlain` -- all that is walked at one depth is walked by the recursion;
* `Context.walkAt_eq_walkPlain` -- **the walk is the plain recursion**, from any node and depth and
  however chains to the left and to the right are mixed: with the same result, the same failure and
  the same context in the end.
-/

namespace Trivalent

/-! ## 1. Blocks with both children -/

/-- Children are older than their parents, and a `BOTH` node has both children. -/
structure Arena.Sequenced (arena : Arena) : Prop where
  founded : arena.Founded
  paired : ∀ {id node}, arena.get? id = some node → node.action = .both →
    node.left?.isSome ∧ node.right?.isSome

/-- A visit of a `BOTH` node is one of its left child and then one of its right child. -/
def Arena.InOrder {σ : Type} (arena : Arena) (visit : NodeId → Work σ Unit) : Prop :=
  ∀ ⦃id node left right⦄, arena.get? id = some node → node.action = .both →
    node.shape = .branch (some left) (some right) → visit id = (do visit left; visit right)

section Children

variable {arena : Arena} {id child : Nat} {node : Node}

theorem Arena.Sequenced.left_lt (h : arena.Sequenced) (hget : arena.get? id = some node)
    (hchild : node.left? = some child) : child < id :=
  h.founded hget (by simp [Node.children, hchild])

theorem Arena.Sequenced.right_lt (h : arena.Sequenced) (hget : arena.get? id = some node)
    (hchild : node.right? = some child) : child < id :=
  h.founded hget (by simp [Node.children, hchild])

/-- The children of a `BOTH` node. -/
theorem Arena.Sequenced.exists_children (h : arena.Sequenced) (hget : arena.get? id = some node)
    (haction : node.action = .both) :
    ∃ left right : Nat, node.shape = .branch (some left) (some right) ∧ left < id ∧ right < id := by
  obtain ⟨hleft, hright⟩ := h.paired hget haction
  obtain ⟨left, hleft⟩ := Option.isSome_iff_exists.mp hleft
  obtain ⟨right, hright⟩ := Option.isSome_iff_exists.mp hright
  refine ⟨left, right, ?_, h.left_lt hget hleft, h.right_lt hget hright⟩
  cases hshape : node.shape with
  | leaf literal => simp [Node.left?, hshape] at hleft
  | branch l r =>
      simp only [Node.left?, hshape] at hleft
      simp only [Node.right?, hshape] at hright
      rw [hleft, hright]

end Children

/-- Going one level down from a depth that the limit allows. -/
theorem Limits.descend_sub {σ α : Type} {limits : Limits} {depth : Nat}
    (hdepth : depth ≤ limits.maxDepth) (next : Work σ α) :
    limits.descend (limits.maxDepth - depth) next
      = if maxWord ≤ depth then Work.refuse .depthOverflow else next := by
  unfold Limits.descend
  rw [Nat.sub_sub_self hdepth]

namespace Context

/-! ## 2. The recursion -/

/-- Walks a node at a depth. A `BOTH` node walks its left child and then its right one at its own
depth, all other nodes go one level down. -/
def walkPlain (limits : Limits) {arena : Arena} (h : arena.Sequenced) (depth : Nat) (id : NodeId) :
    Work Context Unit :=
  match hget : arena.get? id with
  | none => Work.refuse (.outOfRange arena.size id)
  | some node =>
    if limits.maxDepth < depth then node.report (.depthLimit limits.maxDepth)
    else
      match haction : node.action with
      | .both => do
        walkPlain limits h depth (node.left?.get (h.paired hget haction).1)
        walkPlain limits h depth (node.right?.get (h.paired hget haction).2)
      | .left =>
        match hleft : node.left? with
        | some left =>
          if maxWord ≤ depth then Work.refuse .depthOverflow
          else walkPlain limits h (depth + 1) left
        | none => node.report (.missingChild node.symbol .left)
      | .right =>
        match hright : node.right? with
        | some right =>
          if maxWord ≤ depth then Work.refuse .depthOverflow
          else walkPlain limits h (depth + 1) right
        | none => node.report (.missingChild node.symbol .right)
      | .assign => walkAssignment limits arena (limits.maxDepth - depth) node
      | action => node.report (.unexpectedAction node.symbol action)
termination_by id
decreasing_by
  · exact h.left_lt hget (Option.some_get _).symm
  · exact h.right_lt hget (Option.some_get _).symm
  · exact h.left_lt hget hleft
  · exact h.right_lt hget hright

section Plain

variable {limits : Limits} {arena : Arena} (h : arena.Sequenced) {depth : Nat} {id : NodeId}
  {node : Node}

theorem walkPlain_absent (hget : arena.get? id = none) :
    walkPlain limits h depth id = Work.refuse (.outOfRange arena.size id) := by
  unfold walkPlain
  split <;> simp_all

theorem walkPlain_deep (hget : arena.get? id = some node) (hdepth : limits.maxDepth < depth) :
    walkPlain limits h depth id = node.report (.depthLimit limits.maxDepth) := by
  unfold walkPlain
  split <;> simp_all

/-- One step of the recursion, where the depth allows it. -/
theorem walkPlain_step (hget : arena.get? id = some node) (hdepth : depth ≤ limits.maxDepth) :
    walkPlain limits h depth id
      = match node.action with
        | .both => do
          walkPlain limits h depth (← node.child .left)
          walkPlain limits h depth (← node.child .right)
        | .left => do
          let child ← node.child .left
          limits.descend (limits.maxDepth - depth) (walkPlain limits h (depth + 1) child)
        | .right => do
          let child ← node.child .right
          limits.descend (limits.maxDepth - depth) (walkPlain limits h (depth + 1) child)
        | .assign => walkAssignment limits arena (limits.maxDepth - depth) node
        | action => node.report (.unexpectedAction node.symbol action) := by
  conv => lhs; unfold walkPlain
  split
  · simp_all
  · rename_i other hother
    obtain rfl : node = other := Option.some.inj (hget.symm.trans hother)
    rw [if_neg (Nat.not_lt.mpr hdepth)]
    simp only [Limits.descend_sub hdepth]
    unfold Node.child Node.child?
    split
    · rename_i haction
      obtain ⟨left, right, hshape, -⟩ := h.exists_children hget haction
      simp [haction, Node.left?, Node.right?, hshape]
    · rename_i haction
      simp only [haction]
      split <;> rename_i hchild <;> rw [hchild] <;> rfl
    · rename_i haction
      simp only [haction]
      split <;> rename_i hchild <;> rw [hchild] <;> rfl
    · simp_all
    · split <;> simp_all

theorem inOrder_walkPlain (hdepth : depth ≤ limits.maxDepth) :
    arena.InOrder (walkPlain limits h depth) := by
  intro id node left right hget haction hshape
  rw [walkPlain_step h hget hdepth]
  simp only [haction, Node.child_left hshape, Node.child_right hshape, pure_bind]

end Plain

/-! ## 3. Chains -/

section Chains

variable {σ : Type} {arena : Arena} (visit : NodeId → Work σ Unit)

theorem forM_snoc (parts : List NodeId) (last : NodeId) :
    (parts ++ [last]).forM visit = (do parts.forM visit; visit last) :=
  List.forM_append.trans (by simp)

/-- **What takes every `BOTH` node as its two children takes a chain as the parts of the chain, in
order.** The parts are no younger than the chain. -/
theorem spine_unrolls (h : arena.Sequenced) (hvisit : arena.InOrder visit)
    {length first : Nat} (hlength : first < length) (hfirst : first < arena.size)
    (later : List NodeId) :
    ∃ parts, (spine arena length first later : Work σ (List NodeId)) = pure (parts ++ later)
      ∧ parts.forM visit = visit first ∧ ∀ part ∈ parts, part ≤ first := by
  induction length generalizing first later with
  | zero => exact absurd hlength (Nat.not_lt_zero _)
  | succ length ih =>
      obtain ⟨node, hget⟩ := Arena.exists_get? hfirst
      unfold spine
      rw [Arena.fetch_eq hget, pure_bind]
      by_cases haction : node.action = .both
      · obtain ⟨left, right, hshape, hleft, hright⟩ := h.exists_children hget haction
        obtain ⟨parts, hspine, hparts, holder⟩ :=
          ih (by omega) (Nat.lt_trans hleft hfirst) (right :: later)
        rw [if_pos haction, Node.child_right hshape, pure_bind, Node.child_left hshape,
          pure_bind, hspine]
        refine ⟨parts ++ [right], by simp, ?_, ?_⟩
        · rw [forM_snoc, hparts, hvisit hget haction hshape]
        · rw [List.forall_mem_append, List.forall_mem_singleton]
          refine ⟨fun part hpart => ?_, Nat.le_of_lt hright⟩
          exact Nat.le_of_lt (Nat.lt_of_le_of_lt (holder part hpart) hleft)
      · rw [if_neg haction]
        exact ⟨[first], rfl, by simp, by simp⟩

/-- So it is with a block. Its parts are older than itself. -/
theorem blockParts_unrolls (h : arena.Sequenced) (hvisit : arena.InOrder visit)
    {id : Nat} {node : Node} (hget : arena.get? id = some node) (haction : node.action = .both) :
    ∃ parts, (blockParts arena node : Work σ (List NodeId)) = pure parts
      ∧ parts.forM visit = visit id ∧ ∀ part ∈ parts, part < id := by
  obtain ⟨left, right, hshape, hleft, hright⟩ := h.exists_children hget haction
  have hsize := Nat.lt_trans hleft (Arena.get?_lt hget)
  obtain ⟨parts, hspine, hparts, holder⟩ :=
    spine_unrolls visit h hvisit (Nat.lt_succ_of_lt hsize) hsize [right]
  refine ⟨parts ++ [right], ?_, ?_, ?_⟩
  · unfold blockParts
    rw [Node.child_right hshape, pure_bind, Node.child_left hshape, pure_bind, hspine]
  · rw [forM_snoc, hparts, hvisit hget haction hshape]
  · rw [List.forall_mem_append, List.forall_mem_singleton]
    exact ⟨fun part hpart => Nat.lt_of_le_of_lt (holder part hpart) hleft, hright⟩

end Chains

/-! ## 4. The walk -/

section Walk

variable {limits : Limits} {arena : Arena} (h : arena.Sequenced) {depth : Nat}

/-- What is walked at one depth is walked by the recursion, if what lies deeper is. -/
theorem walkLevel_eq_walkPlain (hdepth : depth ≤ limits.maxDepth)
    {deeper : NodeId → Work Context Unit}
    (hdeeper : ∀ child, deeper child
      = limits.descend (limits.maxDepth - depth) (walkPlain limits h (depth + 1) child))
    {blocks id : Nat} (hblocks : id < blocks) (hsize : id < arena.size) :
    walkLevel limits arena (limits.maxDepth - depth) deeper blocks id
      = walkPlain limits h depth id := by
  -- the parts of a block are older than the block, so the number of a node bounds the nesting
  induction blocks generalizing id with
  | zero => exact absurd hblocks (Nat.not_lt_zero _)
  | succ blocks ih =>
      obtain ⟨node, hget⟩ := Arena.exists_get? hsize
      unfold walkLevel
      rw [Arena.fetch_eq hget, pure_bind]
      by_cases haction : node.action = .both
      · obtain ⟨parts, hblock, hparts, holder⟩ :=
          blockParts_unrolls (walkPlain limits h depth) h (inOrder_walkPlain h hdepth) hget haction
        simp only [haction]
        rw [hblock, pure_bind, ← hparts]
        refine forM_congr_mem fun part hpart => ?_
        have hlt := holder part hpart
        exact ih (Nat.lt_of_lt_of_le hlt (Nat.le_of_lt_succ hblocks)) (Nat.lt_trans hlt hsize)
      · rw [walkPlain_step h hget hdepth]
        simp only [hdeeper]
        split <;> simp_all

/-- The walk where `room` levels are left is the recursion at the depth that leaves them. -/
theorem walkAt_room {room id : Nat} (hroom : limits.room depth = room) :
    walkAt limits arena room id = walkPlain limits h depth id := by
  unfold Limits.room at hroom
  induction room generalizing depth id with
  | zero =>
      unfold walkAt
      cases hget : arena.get? id with
      | none =>
          rw [walkPlain_absent h hget, Arena.fetch_absent hget]
          rfl
      | some node =>
          rw [walkPlain_deep h hget (by omega), Arena.fetch_eq hget, pure_bind]
  | succ room ih =>
      obtain rfl : limits.maxDepth - depth = room := by omega
      have hdepth : depth ≤ limits.maxDepth := by omega
      unfold walkAt
      cases hget : arena.get? id with
      | none =>
          obtain ⟨blocks, hbound⟩ := exists_blockBound limits arena
          rw [hbound]
          unfold walkLevel
          rw [walkPlain_absent h hget, Arena.fetch_absent hget]
          rfl
      | some node =>
          have hsize := Arena.get?_lt hget
          refine walkLevel_eq_walkPlain h hdepth (fun child => ?_) (lt_blockBound hsize) hsize
          exact congrArg (limits.descend (limits.maxDepth - depth)) (ih (by omega))

end Walk

/-- **The walk of a node at a depth is the plain recursion**, and so is the walk of a whole tree. -/
theorem walkAt_eq_walkPlain {arena : Arena} (h : arena.Sequenced) (c : Context) (depth : Nat)
    (id : NodeId) :
    (walkAt c.limits arena (c.limits.room depth) id).run c
        = (walkPlain c.limits h depth id).run c
      ∧ (walk arena id).run c = (walkPlain c.limits h 0 id).run c := by
  have hwalk : (walk arena id).run c = (walkAt c.limits arena (c.limits.room 0) id).run c := rfl
  rw [hwalk, walkAt_room h rfl, walkAt_room h rfl]
  exact ⟨rfl, rfl⟩

/-- The statements `x := T` and `x := U`, and three blocks of them: one over both, one with a block
to its right, and one with a block on either side. -/
def nested : Arena where
  nodes := #[⟨.identifier, .inert, ⟨0, 1⟩, 1, .leaf "x"⟩,
    ⟨.valVar, .bind, ⟨0, 1⟩, 1, .branch (some 0) none⟩,
    ⟨.operand, .makeTrue, ⟨5, 6⟩, 1, .leaf "T"⟩,
    ⟨.operand, .makeUnsure, ⟨15, 16⟩, 1, .leaf "U"⟩,
    ⟨.statement, .assign, ⟨0, 7⟩, 1, .branch (some 1) (some 2)⟩,
    ⟨.statement, .assign, ⟨0, 17⟩, 1, .branch (some 1) (some 3)⟩,
    ⟨.codeBlock, .both, ⟨0, 17⟩, 1, .branch (some 4) (some 5)⟩,
    ⟨.codeBlock, .both, ⟨0, 17⟩, 1, .branch (some 4) (some 6)⟩,
    ⟨.codeBlock, .both, ⟨0, 17⟩, 1, .branch (some 7) (some 6)⟩]

theorem sequenced_nested : nested.Sequenced := by
  have hall : ∀ id < 9, ∀ node ∈ nested.get? id, (∀ child ∈ node.children, child < id)
      ∧ (node.action = .both → node.left?.isSome ∧ node.right?.isSome) := by
    decide +kernel
  exact ⟨fun _ _ _ hget hchild => (hall _ (Arena.get?_lt hget) _ hget).1 _ hchild,
    fun hget => (hall _ (Arena.get?_lt hget) _ hget).2⟩

/-- With one atom to take, the recursion stops at the second `x := U`, which is the last statement,
and the assignment before it has been carried out. -/
theorem walkAt_eq_walkPlain_nested :
    ∃ c, (walkPlain { maxUnsure := 1 } sequenced_nested 0 8).run { limits.maxUnsure := 1 }
        = .error (.diagnostic ⟨.unsureLimit 1, some ⟨15, 16⟩, 1⟩) c
      ∧ c.store = { bindings := [("x", .const true)], atoms := 1 } := by
  have hwalk : (match (walk nested 8).run { limits.maxUnsure := 1 } with
      | .ok _ _ => none
      | .error e c => some (e, c.store))
        = some (.diagnostic ⟨.unsureLimit 1, some ⟨15, 16⟩, 1⟩,
          { bindings := [("x", .const true)], atoms := 1 }) := by
    decide +kernel
  rw [(walkAt_eq_walkPlain sequenced_nested { limits.maxUnsure := 1 } 0 8).2] at hwalk
  split at hwalk
  · cases hwalk
  · rename_i e c hrun
    obtain ⟨rfl, hstore⟩ := Prod.mk.inj (Option.some.inj hwalk)
    exact ⟨c, hrun, hstore⟩

end Context

end Trivalent
