import Trivalent.Proofs.Reduction.Growth

/-!
# The arena stays a forest

Nodes refer to one another by number, and nothing in an arena by itself keeps two nodes from having
a child in common or a node from being reached from itself. A reduction never brings this about,
whatever its grammar: overlapping frames, children in any order, declarations anywhere.

* `Arena.Forest` -- children are older than their parents, no node has two parents, left and right
  child differ, and the nodes of the row are different roots;
* `Arena.Forest.graft` -- a new node over a part of the row keeps the forest; `Grafts.grow` -- so
  do new nodes one after another, each of them;
* `Workspace.Sane` -- what a workspace and a row are to be at every pass of a reduction;
* `Workspace.reduce_forest` -- **at every pass and at the end the arena is a forest, nothing in it
  has changed, and every index is in range**.
-/

namespace Trivalent

open Trivalent.Derivation

/-! ## 1. Forests -/

/-- The nodes of the arena are trees, and the numbers in `live` are roots of different ones. -/
structure Arena.Forest (arena : Arena) (live : List NodeId) : Prop where
  founded : arena.Founded
  /-- No node is a child of two nodes. -/
  parent_unique : ∀ {i j m n child}, arena.get? i = some m → arena.get? j = some n →
    child ∈ m.children → child ∈ n.children → i = j
  /-- No node is both the left and the right child of a node. -/
  apart : ∀ {id node}, arena.get? id = some node → node.children.Nodup
  /-- The row has nodes of the arena. -/
  present : ∀ {id}, id ∈ live → id < arena.size
  /-- No node is in the row twice. -/
  distinct : live.Nodup
  /-- No node of the row is a child. -/
  roots : ∀ {id node child}, arena.get? id = some node → child ∈ node.children → child ∉ live

namespace Arena

/-- A node of an arena that has grown by one node is that node or was there before. -/
theorem get?_push_cases {arena : Arena} {new node : Node} {id : NodeId}
    (h : (arena.push new).get? id = some node) :
    (id = arena.size ∧ node = new) ∨ arena.get? id = some node := by
  rw [get?_push] at h
  split at h
  · rename_i hid
    exact .inl ⟨hid, (Option.some.inj h).symm⟩
  · exact .inr h

section Graft

variable {arena : Arena} {before window after : List NodeId} {new : Node}

/-- The nodes of the row that stay are not among the children of the new node, and neither is the
new node itself. -/
theorem Forest.notMem_of_graft (h : arena.Forest (before ++ window ++ after)) {child : NodeId}
    (hchild : child ∈ window) : child ∉ before ++ arena.size :: after := by
  have hlt : child < arena.size := h.present (by simp [hchild])
  have hdistinct := h.distinct
  rw [List.nodup_append', List.nodup_append'] at hdistinct
  obtain ⟨⟨-, -, hbefore⟩, -, hafter⟩ := hdistinct
  intro hmem
  rcases List.mem_append.mp hmem with hmem | hmem
  · exact hbefore hmem hchild
  · rcases List.mem_cons.mp hmem with rfl | hmem
    · exact Nat.lt_irrefl _ hlt
    · exact hafter (List.mem_append_right _ hchild) hmem

/-- **A new node over different nodes of a part of the row keeps the forest.** -/
theorem Forest.graft (h : arena.Forest (before ++ window ++ after))
    (hchildren : ∀ child ∈ new.children, child ∈ window) (hapart : new.children.Nodup) :
    (arena.push new).Forest (before ++ arena.size :: after) where
  founded := by
    intro id node child hget hchild
    rcases get?_push_cases hget with ⟨rfl, rfl⟩ | hget
    · exact h.present (by simp [hchildren child hchild])
    · exact h.founded hget hchild
  parent_unique := by
    intro i j m n child hi hj hm hn
    -- what was in the row was no child, so the new node takes no child from another one
    have hnone : ∀ {k node}, arena.get? k = some node → child ∈ node.children →
        child ∉ new.children := fun hget hchild hnew =>
      h.roots hget hchild (by simp [hchildren child hnew])
    rcases get?_push_cases hi with ⟨hi', rfl⟩ | hi'
    · rcases get?_push_cases hj with ⟨hj', -⟩ | hj'
      · rw [hi', hj']
      · exact absurd hm (hnone hj' hn)
    · rcases get?_push_cases hj with ⟨-, rfl⟩ | hj'
      · exact absurd hn (hnone hi' hm)
      · exact h.parent_unique hi' hj' hm hn
  apart := by
    intro id node hget
    rcases get?_push_cases hget with ⟨-, rfl⟩ | hget
    · exact hapart
    · exact h.apart hget
  present := by
    intro id hid
    rw [size_push]
    rcases List.mem_append.mp hid with hid | hid
    · exact Nat.lt_succ_of_lt (h.present (by simp [hid]))
    · rcases List.mem_cons.mp hid with rfl | hid
      · exact Nat.lt_succ_self _
      · exact Nat.lt_succ_of_lt (h.present (by simp [hid]))
  distinct := by
    have hrest : (before ++ after).Nodup := by
      refine h.distinct.sublist ?_
      rw [List.append_assoc]
      exact (List.sublist_append_right window after).append_left before
    refine (List.nodup_middle.mpr (List.nodup_cons.mpr ⟨fun hmem => ?_, hrest⟩))
    refine Nat.lt_irrefl arena.size (h.present ?_)
    rcases List.mem_append.mp hmem with hmem | hmem <;> simp [hmem]
  roots := by
    intro id node child hget hchild
    rcases get?_push_cases hget with ⟨-, rfl⟩ | hget
    · exact h.notMem_of_graft (hchildren child hchild)
    · have hold := h.roots hget hchild
      have hlt := Nat.lt_trans (h.founded hget hchild) (get?_lt hget)
      simp only [List.mem_append, List.mem_cons, not_or] at hold ⊢
      exact ⟨hold.1.1, Nat.ne_of_lt hlt, hold.2⟩

end Graft

theorem size_pushAll (nodes : List Node) :
    ∀ arena : Arena, (arena.pushAll nodes).size = arena.size + nodes.length := by
  induction nodes with
  | nil => exact fun arena => rfl
  | cons node nodes ih =>
      intro arena
      show ((arena.push node).pushAll nodes).size = _
      rw [ih, size_push, List.length_cons]
      omega

/-- Leaves are a forest in which every node is a root. -/
theorem forest_of_leaves {arena : Arena} {live : List NodeId}
    (hleaves : ∀ {id node}, arena.get? id = some node → node.children = [])
    (hlive : ∀ id ∈ live, id < arena.size) (hdistinct : live.Nodup) : arena.Forest live where
  founded _ _ _ hget hchild := by rw [hleaves hget] at hchild; cases hchild
  parent_unique hget _ hchild _ := by rw [hleaves hget] at hchild; cases hchild
  apart hget := by rw [hleaves hget]; exact .nil
  present := hlive _
  distinct := hdistinct
  roots hget hchild := by rw [hleaves hget] at hchild; cases hchild

end Arena

/-- A leaf has no children. -/
theorem Node.children_eq_nil (n : Node) (h : n.literal?.isSome) : n.children = [] := by
  obtain ⟨symbol, action, span, line, shape⟩ := n
  cases shape with
  | leaf text => rfl
  | branch left right => cases h

theorem children_above (id : NodeId) (symbol : Symbol) (action : Action) (left : Derivation)
    (right : Option Derivation) :
    (above id symbol action left right).node.children = left.id :: (right.map (·.id)).toList := by
  cases right <;> rfl

/-- The children that a production picks stand in the window, at different places. -/
theorem children_of_window {window : List Derivation} {p : Production} {left : Derivation}
    {right : Option Derivation} (hleft : window[p.left]? = some left)
    (hright : right = if p.hasRight then window[p.right]? else none)
    (hdistinct : (window.map (·.id)).Nodup) :
    (∀ id ∈ left.id :: (right.map (·.id)).toList, id ∈ window.map (·.id))
      ∧ (left.id :: (right.map (·.id)).toList).Nodup := by
  have hmem := List.mem_map_of_mem (f := (·.id)) (List.mem_of_getElem? hleft)
  by_cases hp : p.hasRight = true
  · rw [if_pos hp] at hright
    cases right with
    | none => exact ⟨by simpa using hmem, by simp⟩
    | some r =>
        have hne : left.id ≠ r.id := by
          intro heq
          have hl : (window.map (·.id))[p.left]? = some left.id := by simp [hleft]
          have hr : (window.map (·.id))[p.right]? = some left.id := by simp [← hright, heq]
          have hpos := (List.getElem?_eq_some_iff.mp hl).1
          exact bne_iff_ne.mp hp ((List.getElem?_inj hpos hdistinct).mp (hl.trans hr.symm))
        refine ⟨fun id hid => ?_, by simp [hne]⟩
        have hr := List.mem_map_of_mem (f := (·.id)) (List.mem_of_getElem? hright.symm)
        simp only [Option.map_some, Option.toList_some, List.mem_cons, List.not_mem_nil,
          or_false] at hid
        rcases hid with rfl | rfl
        · exact hmem
        · exact hr
  · rw [if_neg hp] at hright
    subst hright
    exact ⟨by simpa using hmem, by simp⟩

/-- One more node in place of a part of the row, after which the arena is a forest. -/
inductive Arena.Grows : Arena × List NodeId → Arena × List NodeId → Prop
  | intro {arena : Arena} {before window after : List NodeId} {new : Node}
      (forest : (arena.push new).Forest (before ++ arena.size :: after)) :
      Grows (arena, before ++ window ++ after) (arena.push new, before ++ arena.size :: after)

/-- **A graft keeps the forest.** -/
theorem Graft.grows {Allowed : Production → Prop} {s t : Arena × List Derivation}
    (h : Graft Allowed s t) (hforest : s.1.Forest (s.2.map (·.id))) :
    Arena.Grows (s.1, s.2.map (·.id)) (t.1, t.2.map (·.id)) := by
  cases h with
  | @intro arena before window after left right p allowed leftChild rightChild =>
      simp only [List.map_append, List.map_cons, id_above] at hforest ⊢
      have hwindow := hforest.distinct
      rw [List.nodup_append', List.nodup_append'] at hwindow
      obtain ⟨hmem, hapart⟩ := children_of_window leftChild rightChild hwindow.1.2.1
      rw [← children_above] at hmem hapart
      exact .intro (hforest.graft hmem hapart)

theorem Arena.Grows.forest {s t : Arena × List NodeId} (h : Arena.Grows s t) : t.1.Forest t.2 := by
  cases h with
  | intro forest => exact forest

/-- So do grafts one after another, each of them. -/
theorem Grafts.grow {Allowed : Production → Prop} {s t : Arena × List Derivation}
    (h : Grafts Allowed s t) (hforest : s.1.Forest (s.2.map (·.id))) :
    t.1.Forest (t.2.map (·.id))
      ∧ Relation.ReflTransGen Arena.Grows (s.1, s.2.map (·.id)) (t.1, t.2.map (·.id)) := by
  refine h.preserves (P := fun t => t.1.Forest (t.2.map (·.id))
    ∧ Relation.ReflTransGen Arena.Grows (s.1, s.2.map (·.id)) (t.1, t.2.map (·.id))) ?_
    ⟨hforest, .refl⟩
  intro u v hgraft ⟨hu, hgrow⟩
  have hnext := hgraft.grows hu
  exact ⟨hnext.forest, hgrow.tail hnext⟩

/-! ## 2. Reductions -/

namespace Workspace

/-- A pass has its indices in range: the window lies in the row, the children lie in the window, and
the pass succeeds. It adds its nodes one by one, with a forest after each of them. -/
structure InRange (mode : BindingMode) (w : Workspace) (row : List Slot) (window : Grammar.Window) :
    Prop where
  fits : window.position + window.width ≤ row.length
  left : window.production.left < window.width
  right : window.production.right < window.width
  succeeds : ∃ row' w', (advance mode row window).run w = .ok row' w'
    ∧ Relation.ReflTransGen Arena.Grows (w.arena, row.map (·.id)) (w'.arena, row'.map (·.id))

/-- What a workspace and a row are at every pass of a reduction. -/
structure Sane (g : Grammar) (mode : BindingMode) (w : Workspace) (row : List Slot) : Prop where
  forest : w.arena.Forest (row.map (·.id))
  /-- Passes change nothing that is there. -/
  lasting : ∀ {steps w' row'}, Reduces g mode steps w row w' row' → w.arena.Within w'.arena
  /-- A pass that is called for finds all that it looks for. -/
  inRange : ∀ {window}, g.find (row.map (·.symbol)) = some window → InRange mode w row window

/-- A row that the arena holds and whose nodes are roots of a forest is as it is to be. -/
theorem sane_of_holds {g : Grammar} {mode : BindingMode} {w : Workspace} {row : List Derivation}
    (hrow : ∀ d ∈ row, w.arena.Holds d) (hforest : w.arena.Forest (row.map (·.id))) :
    Sane g mode w (row.map slot) where
  forest := by
    rw [List.map_map]
    exact hforest
  lasting h := by
    obtain ⟨last, -, hgrafts⟩ := @Reduces.grafts (fun _ => True) g mode _ _ _ row _
      (fun _ => trivial) (fun _ => trivial) hrow h
    exact hgrafts.within
  inRange {window} hfind := by
    rw [symbols_slots] at hfind
    obtain ⟨before, win, after, hsplit, hpos, hwidth, hlookup⟩ := exists_window hfind
    obtain ⟨hleft, hright⟩ := Grammar.lookup_children hlookup
    rw [List.length_map, hwidth] at hleft hright
    obtain ⟨row', w', hpass, hgrafts⟩ := @advance_grafts (fun _ => True) g mode w row window
      (fun _ => trivial) (fun _ => trivial) hrow hfind
    refine ⟨?_, hleft, hright, row'.map slot, w', hpass, ?_⟩
    · rw [List.length_map, hsplit, ← hpos, ← hwidth, List.length_append, List.length_append]
      exact Nat.le_add_right _ _
    · simp only [List.map_map]
      exact (hgrafts.grow hforest).2

/-- A row that the arena holds is concluded with the one node in it, or with a diagnostic. -/
theorem conclude_cases {w : Workspace} {row : List Derivation}
    (hrow : ∀ d ∈ row, w.arena.Holds d) :
    (∃ root, row.map (·.id) = [root] ∧ (conclude (row.map slot)).run w = .ok root w)
      ∨ ∃ d, (conclude (row.map slot)).run w = .error (.diagnostic d) w := by
  match row, hrow with
  | [], _ => exact .inr ⟨_, rfl⟩
  | [d], _ => exact .inl ⟨d.id, rfl, rfl⟩
  | d :: e :: rest, hrow => exact .inr ⟨_, conclude_run hrow⟩

theorem get?_ofLeaves {leaves : List Node} {journal : Journal} {id : NodeId} {node : Node}
    (h : (ofLeaves leaves journal).arena.get? id = some node) : node ∈ leaves := by
  have hget : (({} : Arena).pushAll leaves).get? id = some node := h
  rw [Arena.get?_pushAll, show ({} : Arena).size = 0 from rfl, if_neg (Nat.not_lt_zero id)] at hget
  exact List.mem_of_getElem? hget

theorem size_ofLeaves (leaves : List Node) (journal : Journal) :
    (ofLeaves leaves journal).arena.size = leaves.length :=
  (Arena.size_pushAll leaves {}).trans (Nat.zero_add _)

/-- Passes lead from a row that the arena holds, whose nodes are roots of a forest, to such a row. -/
theorem Reduces.forest {g : Grammar} {mode : BindingMode} {steps : Nat} {w w' : Workspace}
    {row : List Derivation} {row' : List Slot} (hrow : ∀ d ∈ row, w.arena.Holds d)
    (hforest : w.arena.Forest (row.map (·.id))) (h : Reduces g mode steps w (row.map slot) w' row') :
    ∃ last : List Derivation, row' = last.map slot ∧ (∀ d ∈ last, w'.arena.Holds d)
      ∧ w'.arena.Forest (last.map (·.id)) := by
  obtain ⟨last, hslots, hgrafts⟩ := @Reduces.grafts (fun _ => True) g mode _ _ _ row _
    (fun _ => trivial) (fun _ => trivial) hrow h
  exact ⟨last, hslots, hgrafts.holds hrow, (hgrafts.grow hforest).1⟩

/-- How a reduction of a row that the arena holds ends: after some passes, in the workspace that they
have left, with the one node of the row, with a diagnostic or with a fault for having no end. -/
theorem reduce_ends {g : Grammar} {mode : BindingMode} {w : Workspace} {row : List Derivation}
    (hrow : ∀ d ∈ row, w.arena.Holds d) :
    ∃ steps w' row', Reduces g mode steps w (row.map slot) w' row'
      ∧ ((∃ root, row'.map (·.id) = [root]
          ∧ (reduce g mode (row.map (·.id))).run w = .ok root w')
        ∨ (∃ d, (reduce g mode (row.map (·.id))).run w = .error (.diagnostic d) w')
        ∨ (reduce g mode (row.map (·.id))).run w = .error (.fault .endless) w') := by
  obtain ⟨steps, w', row', hreduces, hend⟩ := @reduce_reduces g mode _ row hrow
  refine ⟨steps, w', row', hreduces, ?_⟩
  rcases hend with ⟨-, hend⟩ | hend
  · obtain ⟨last, rfl, hgrafts⟩ := @Reduces.grafts (fun _ => True) g mode _ _ _ row _
      (fun _ => trivial) (fun _ => trivial) hrow hreduces
    rw [hend, List.map_map]
    rcases conclude_cases (hgrafts.holds hrow) with hroot | hfailed
    · exact .inl hroot
    · exact .inr (.inl hfailed)
  · exact .inr (.inr hend)

/-- Different leaves of an arena that has nothing else are a row of roots of a forest. -/
theorem exists_row_ofLeaves {leaves : List Node} {live : List NodeId}
    (hleaves : ∀ n ∈ leaves, n.literal?.isSome) (hlive : ∀ id ∈ live, id < leaves.length)
    (hdistinct : live.Nodup) (journal : Journal) :
    ∃ row : List Derivation, row.map (·.id) = live
      ∧ (∀ d ∈ row, (ofLeaves leaves journal).arena.Holds d)
      ∧ (ofLeaves leaves journal).arena.Forest (row.map (·.id)) := by
  rw [← size_ofLeaves leaves journal] at hlive
  obtain ⟨row, rfl, hrow⟩ := exists_leaves_of_lt hlive
  refine ⟨row, rfl, hrow, Arena.forest_of_leaves (fun {id node} hget => ?_) hlive hdistinct⟩
  exact node.children_eq_nil (hleaves node (get?_ofLeaves hget))

/-- A reduction of different leaves that comes to a root leaves a forest with that root. -/
theorem forest_of_reduce {g : Grammar} {mode : BindingMode} {leaves : List Node} {journal : Journal}
    {live : List NodeId} {root : NodeId} {w : Workspace}
    (hleaves : ∀ n ∈ leaves, n.literal?.isSome) (hlive : ∀ id ∈ live, id < leaves.length)
    (hdistinct : live.Nodup)
    (hreduce : (reduce g mode live).run (ofLeaves leaves journal) = .ok root w) :
    w.arena.Forest [root] := by
  obtain ⟨row, rfl, hrow, hforest⟩ := exists_row_ofLeaves hleaves hlive hdistinct journal
  obtain ⟨steps, w', row', hreduces, hend⟩ := @reduce_ends g mode _ row hrow
  obtain ⟨last, rfl, -, hlast⟩ := hreduces.forest hrow hforest
  rcases hend with ⟨other, hids, hok⟩ | ⟨d, herror⟩ | herror
  · rw [hok] at hreduce
    cases hreduce
    rw [List.map_map] at hids
    rw [← hids]
    exact hlast
  · rw [herror] at hreduce
    cases hreduce
  · rw [herror] at hreduce
    cases hreduce

/-- **The arena stays a forest**, whatever the grammar and whether identifiers are bound or not. The
leaves of a program are put into an arena, and a row of different ones of them is reduced. At every
pass of the reduction, and after every node that a pass adds, the arena is a forest whose roots the
row has; nothing that is in the arena changes, and every index is in range. The reduction ends after
such passes, in the workspace that they have left: with the one node of the row, with a diagnostic
or, if it has no end, with a fault that says so. -/
theorem reduce_forest {g : Grammar} {mode : BindingMode} {leaves : List Node} {journal : Journal}
    {live : List NodeId} (hleaves : ∀ n ∈ leaves, n.literal?.isSome)
    (hlive : ∀ id ∈ live, id < leaves.length) (hdistinct : live.Nodup) :
    ∃ row, (slots live).run (ofLeaves leaves journal) = .ok row (ofLeaves leaves journal)
      ∧ (∀ steps w row', Reduces g mode steps (ofLeaves leaves journal) row w row' →
          Sane g mode w row')
      ∧ ∃ steps w row', Reduces g mode steps (ofLeaves leaves journal) row w row'
        ∧ ((∃ root, row'.map (·.id) = [root]
            ∧ (reduce g mode live).run (ofLeaves leaves journal) = .ok root w)
          ∨ (∃ d, (reduce g mode live).run (ofLeaves leaves journal) = .error (.diagnostic d) w)
          ∨ (reduce g mode live).run (ofLeaves leaves journal) = .error (.fault .endless) w) := by
  obtain ⟨row, rfl, hrow, hforest⟩ := exists_row_ofLeaves hleaves hlive hdistinct journal
  refine ⟨row.map slot, slots_run hrow, fun steps w row' h => ?_, reduce_ends hrow⟩
  obtain ⟨last, rfl, hholds, hlast⟩ := h.forest hrow hforest
  exact sane_of_holds hholds hlast

/-- A grammar that takes its children from right to left. -/
def crossing : Grammar where
  rules :=
    [⟨[.valWord, .identifier], ⟨.valVar, .bind, 1, 0, true⟩, Nat.two_pos, two_le_maxFrame,
        Nat.one_lt_two, Nat.two_pos⟩,
     ⟨[.valVar, .valVar], ⟨.codeBlock, .both, 1, 0, false⟩, Nat.two_pos, two_le_maxFrame,
        Nat.one_lt_two, Nat.two_pos⟩]

/-- In `x val x` the first identifier is covered when the second one is declared, and both become
children of one node, the second before the first. -/
theorem reduce_forest_crossing :
    ∃ w, (reduce crossing .bind [0, 1, 2]).run (.ofLeaves
        [.terminal .identifier "x" ⟨0, 1⟩ 1 .inert, .terminal .valWord "val" ⟨2, 5⟩ 1 .inert,
          .terminal .identifier "x" ⟨6, 7⟩ 1 .inert] {}) = .ok 5 w
      ∧ w.arena.Forest [5] := by
  obtain ⟨row, -, hsane, steps, w, row', hreduces, hend⟩ := @reduce_forest crossing .bind
    [.terminal .identifier "x" ⟨0, 1⟩ 1 .inert, .terminal .valWord "val" ⟨2, 5⟩ 1 .inert,
      .terminal .identifier "x" ⟨6, 7⟩ 1 .inert] {} [0, 1, 2] (by decide) (by decide) (by decide)
  have hroot : (reduce crossing .bind [0, 1, 2]).run' (.ofLeaves
      [.terminal .identifier "x" ⟨0, 1⟩ 1 .inert, .terminal .valWord "val" ⟨2, 5⟩ 1 .inert,
        .terminal .identifier "x" ⟨6, 7⟩ 1 .inert] {}) = some 5 := by
    decide +kernel
  have hforest := (hsane _ _ _ hreduces).forest
  unfold EStateM.run' at hroot
  rcases hend with ⟨root, hrow, hok⟩ | ⟨d, herror⟩ | herror
  · rw [hok] at hroot
    cases hroot
    rw [hrow] at hforest
    exact ⟨w, hok, hforest⟩
  · rw [herror] at hroot
    cases hroot
  · rw [herror] at hroot
    cases hroot

end Workspace

end Trivalent
