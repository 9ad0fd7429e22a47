import Trivalent.Proofs.Places
import Trivalent.Proofs.Work

/-!
# What a node covers

A new node starts where its left child starts and stops where its right child stops. This is the
span of both children only if the left one stands before the right one in the source, and a rule may
take its children in any order. So under an arbitrary grammar a node covers its children just if the
production that made it takes them from left to right, and one that does not may have a span that
runs backwards.

* `Span.Covers`, `Arena.Covers` -- a span covers another one, a node covers its children;
* `Span.Precedes`, `Staggered` -- the parts of a row start and stop one before another;
  `Graft.staggered` -- **every new node keeps this, also one whose span runs backwards**;
* `Graft.covers` -- a new node covers its children just if its production takes them from left to
  right;
* `Workspace.reduce_covers` -- **so it is for every node of a reduction**;
  `Workspace.reduce_uncovered` -- a node that does not cover its children.
-/

namespace Trivalent

open Trivalent.Derivation

/-! ## 1. Spans of children -/

/-- The outer span starts no later and stops no earlier than the inner one. -/
def Span.Covers (outer inner : Span) : Prop :=
  outer.start ≤ inner.start ∧ inner.stop ≤ outer.stop

/-- One span starts before another one starts and stops before it stops. -/
def Span.Precedes (a b : Span) : Prop := a.start < b.start ∧ a.stop < b.stop

/-- The span of a node covers the spans of its children. -/
def Arena.Covers (arena : Arena) (node : Node) : Prop :=
  ∀ id ∈ node.children, ∃ child, arena.get? id = some child ∧ node.span.Covers child.span

theorem Arena.Covers.mono {a b : Arena} (hab : a.Within b) {node : Node} (h : a.Covers node) :
    b.Covers node := by
  intro id hid
  obtain ⟨child, hget, hspan⟩ := h id hid
  exact ⟨child, hab id child hget, hspan⟩

/-- A node over one part covers it, and a node over two covers them if the first one neither starts
nor stops after the second one. -/
theorem covers_above_iff {arena : Arena} {left : Derivation} {right : Option Derivation}
    (hleft : arena.Holds left) (hright : ∀ r ∈ right, arena.Holds r) (id : NodeId)
    (symbol : Symbol) (action : Action) :
    arena.Covers (above id symbol action left right).node
      ↔ ∀ r ∈ right, left.node.span.start ≤ r.node.span.start
        ∧ left.node.span.stop ≤ r.node.span.stop := by
  unfold Arena.Covers
  rw [children_above, span_above]
  cases right with
  | none =>
      refine ⟨fun _ r hr => (by cases hr), fun _ id hid => ?_⟩
      cases List.mem_singleton.mp hid
      exact ⟨left.node, hleft.get?, Nat.le_refl _, Nat.le_refl _⟩
  | some r =>
      have hr := hright r rfl
      constructor
      · rintro h _ ⟨rfl⟩
        obtain ⟨child, hget, -, hstop⟩ := h left.id (by simp)
        obtain ⟨child', hget', hstart, -⟩ := h r.id (by simp)
        cases hleft.get?.symm.trans hget
        cases hr.get?.symm.trans hget'
        exact ⟨hstart, hstop⟩
      · intro h id hid
        obtain ⟨hstart, hstop⟩ := h r rfl
        simp only [Option.map_some, Option.toList_some, List.mem_cons, List.not_mem_nil,
          or_false] at hid
        rcases hid with rfl | rfl
        · exact ⟨left.node, hleft.get?, Nat.le_refl _, hstop⟩
        · exact ⟨r.node, hr.get?, hstart, Nat.le_refl _⟩

/-! ## 2. Rows in order -/

/-- An arena holds a row, and the parts of the row start and stop one before another. -/
structure Staggered (s : Arena × List Derivation) : Prop where
  order : s.2.Pairwise fun d e => d.node.span.Precedes e.node.span
  holds : ∀ d ∈ s.2, s.1.Holds d

/-- In a window that is in order, the children stand as the production takes them. -/
theorem children_in_order_iff {window : List Derivation} {p : Production} {left : Derivation}
    {right : Option Derivation}
    (horder : window.Pairwise fun d e => d.node.span.Precedes e.node.span)
    (hleft : window[p.left]? = some left)
    (hright : right = if p.hasRight then window[p.right]? else none) :
    (∀ r ∈ right, left.node.span.start ≤ r.node.span.start
        ∧ left.node.span.stop ≤ r.node.span.stop)
      ↔ p.left ≤ p.right := by
  obtain ⟨hl, rfl⟩ := List.getElem?_eq_some_iff.mp hleft
  rw [List.pairwise_iff_getElem] at horder
  constructor
  · intro h
    refine Nat.le_of_not_lt fun hlt => ?_
    have hr : p.right < window.length := Nat.lt_trans hlt hl
    have hhas : p.hasRight = true := bne_iff_ne.mpr (Nat.ne_of_gt hlt)
    rw [if_pos hhas, List.getElem?_eq_getElem hr] at hright
    exact Nat.not_lt.mpr (h _ hright).1 (horder _ _ hr hl hlt).1
  · intro hle r hmem
    rw [hright] at hmem
    split at hmem
    · rename_i hhas
      obtain ⟨hr, rfl⟩ := List.getElem?_eq_some_iff.mp hmem
      have hlt : p.left < p.right := Nat.lt_of_le_of_ne hle (bne_iff_ne.mp hhas)
      obtain ⟨hstart, hstop⟩ := horder _ _ hl hr hlt
      exact ⟨Nat.le_of_lt hstart, Nat.le_of_lt hstop⟩
    · cases hmem

section Graft

variable {Allowed : Production → Prop} {s t : Arena × List Derivation}

/-- **Every new node leaves the row in order.** It starts with one part of the window and stops with
one, whichever these are. -/
theorem Graft.staggered (h : Graft Allowed s t) (hs : Staggered s) : Staggered t := by
  refine ⟨?_, h.holds hs.holds⟩
  cases h with
  | @intro arena before window after left right p allowed leftChild rightChild =>
      obtain ⟨hfirst, hafter, hacross⟩ := List.pairwise_append.mp hs.order
      obtain ⟨hbefore, -, hinto⟩ := List.pairwise_append.mp hfirst
      have hleft : left ∈ window := List.mem_of_getElem? leftChild
      have hlast : right.getD left ∈ window := by
        rw [rightChild]
        split
        · cases hget : window[p.right]? with
          | none => exact hleft
          | some r => exact List.mem_of_getElem? hget
        · exact hleft
      refine List.pairwise_append.mpr ⟨hbefore, List.pairwise_cons.mpr ⟨fun e he => ?_, hafter⟩,
        fun d hd e he => ?_⟩
      · rw [span_above]
        exact ⟨(hacross left (by simp [hleft]) e he).1, (hacross _ (by simp [hlast]) e he).2⟩
      · rcases List.mem_cons.mp he with rfl | he
        · rw [span_above]
          exact ⟨(hinto d hd left hleft).1, (hinto d hd _ hlast).2⟩
        · exact hacross d (by simp [hd]) e he

theorem Grafts.staggered (h : Grafts Allowed s t) (hs : Staggered s) : Staggered t :=
  h.preserves (P := Staggered) (fun hgraft => hgraft.staggered) hs

/-- **A new node covers its children just if its production takes them from left to right**, and so
it stays as the arena grows. -/
theorem Graft.covers (h : Graft Allowed s t) (hs : Staggered s) :
    ∃ p node, Allowed p ∧ t.1 = s.1.push node
      ∧ ∀ arena, t.1.Within arena → (arena.Covers node ↔ p.left ≤ p.right) := by
  have hwithin := h.within
  cases h with
  | @intro arena before window after left right p allowed leftChild rightChild =>
      have horder := (List.pairwise_append.mp (List.pairwise_append.mp hs.order).1).2.1
      have hwindow : ∀ d ∈ window, arena.Holds d := fun d hd => hs.holds d (by simp [hd])
      refine ⟨p, _, allowed, rfl, fun larger hlarger => ?_⟩
      have hgrown := hwithin.trans hlarger
      rw [covers_above_iff ((hwindow left (List.mem_of_getElem? leftChild)).mono hgrown)
        fun r hr => (holds_right hwindow rightChild r hr).mono hgrown]
      exact children_in_order_iff horder leftChild rightChild

/-- Nodes that are made from left to right cover their children. -/
theorem Grafts.cover (h : Grafts (fun p => p.left ≤ p.right) s t) (hs : Staggered s)
    {first : NodeId} (hfirst : ∀ id node, first ≤ id → s.1.get? id = some node → s.1.Covers node) :
    ∀ id node, first ≤ id → t.1.get? id = some node → t.1.Covers node := by
  refine (h.preserves (P := fun t => Staggered t ∧ ∀ id node, first ≤ id →
    t.1.get? id = some node → t.1.Covers node) ?_ ⟨hs, hfirst⟩).2
  intro u v hgraft ⟨hu, hcovers⟩
  refine ⟨hgraft.staggered hu, fun id node hid hget => ?_⟩
  obtain ⟨p, new, hp, hpush, hnew⟩ := hgraft.covers hu
  rw [hpush] at hget
  rcases Arena.get?_push_cases hget with ⟨-, rfl⟩ | hget
  · exact (hnew _ (.refl _)).mpr hp
  · exact (hcovers id node hid hget).mono hgraft.within

end Graft

/-! ## 3. Reductions -/

/-- The leaves of a source are in order. -/
theorem staggered_leafRow {source : String} {leaves : List Node}
    (htokens : tokenize source = .ok leaves) (journal : Journal) :
    Staggered ((Workspace.ofLeaves leaves journal).arena, leafRow leaves) := by
  have hplaces := tokenize_located source
  rw [htokens] at hplaces
  refine ⟨List.pairwise_iff_getElem.mpr fun i j hi hj hij => ?_, holds_leafRow leaves journal⟩
  simp only [leafRow, List.length_mapIdx] at hi hj
  simp only [leafRow, List.getElem_mapIdx]
  have hstop := List.pairwise_iff_getElem.mp (tokenize_inOrder htokens) i j hi hj hij
  have hi := (hplaces _ (List.getElem_mem hi)).nonempty
  have hj := (hplaces _ (List.getElem_mem hj)).nonempty
  exact ⟨Nat.lt_of_lt_of_le hi hstop, Nat.lt_of_le_of_lt hstop hj⟩

namespace Workspace

/-- A pass succeeds, and its node covers its children just if the production takes them from left to
right. The nodes over identifiers, which come after it, cover theirs. -/
def PassCovers (mode : BindingMode) (w : Workspace) (row : List Slot) (window : Grammar.Window) :
    Prop :=
  ∃ row' w' node, (advance mode row window).run w = .ok row' w'
    ∧ w'.arena.get? w.arena.size = some node
    ∧ (w'.arena.Covers node ↔ window.production.left ≤ window.production.right)
    ∧ ∀ id other, w.arena.size < id → w'.arena.get? id = some other → w'.arena.Covers other

/-- What the nodes of a workspace cover at a pass of a reduction. -/
structure Covering (g : Grammar) (mode : BindingMode) (w : Workspace) (row : List Slot) :
    Prop where
  /-- If no rule takes its children from right to left, every node covers its children. -/
  forwards : (∀ frame p, g.lookup frame = some p → p.left ≤ p.right) →
    ∀ id node, w.arena.get? id = some node → w.arena.Covers node
  pass : ∀ window, g.find (row.map (·.symbol)) = some window → PassCovers mode w row window

theorem passCovers_of_staggered {g : Grammar} {mode : BindingMode} {w : Workspace}
    {row : List Derivation} {window : Grammar.Window} (h : Staggered (w.arena, row))
    (hfound : g.find (row.map symbol) = some window) : PassCovers mode w (row.map slot) window := by
  obtain ⟨s, row', w', hpass, hgraft, hgrafts⟩ := @advance_folds g mode w row window h.holds hfound
  obtain ⟨_, node, rfl, hpush, hnode⟩ := hgraft.covers h
  have hget : s.1.get? w.arena.size = some node := hpush ▸ w.arena.get?_push_size node
  refine ⟨row'.map slot, w', node, hpass, hgrafts.within _ _ hget, hnode _ hgrafts.within, ?_⟩
  have hcovers : Grafts (fun p => p.left ≤ p.right) s (w'.arena, row') := by
    refine hgrafts.mono ?_
    rintro _ ⟨symbol, rfl⟩
    exact Nat.le_refl 0
  refine hcovers.cover (hgraft.staggered h) fun id other hid hother => ?_
  -- there is no node after the one over the window yet
  rw [hpush] at hother
  have hlt := Arena.get?_lt hother
  rw [Arena.size_push] at hlt
  exact absurd hlt (Nat.not_lt.mpr hid)

/-- **What nodes cover under any grammar.** The leaves of a source are reduced, with identifiers
bound or not. At every pass of the reduction, the node over the window covers its children just if
the production takes them from left to right, and all other new nodes cover theirs; so every node
does if no rule takes its children from right to left. The reduction ends in a workspace that such
passes have left. -/
theorem reduce_covers {source : String} {leaves : List Node}
    (htokens : tokenize source = .ok leaves) (g : Grammar) (mode : BindingMode) (journal : Journal) :
    ∃ row, (slots (List.range leaves.length)).run (ofLeaves leaves journal)
        = .ok row (ofLeaves leaves journal)
      ∧ (∀ steps w row', Reduces g mode steps (ofLeaves leaves journal) row w row' →
          Covering g mode w row')
      ∧ ∃ steps w row', Reduces g mode steps (ofLeaves leaves journal) row w row'
        ∧ ((∃ root, (reduce g mode (List.range leaves.length)).run (ofLeaves leaves journal)
            = .ok root w)
          ∨ ∃ e, (reduce g mode (List.range leaves.length)).run (ofLeaves leaves journal)
            = .error e w) := by
  have hstaggered := staggered_leafRow htokens journal
  have hleaves : ∀ id node, (ofLeaves leaves journal).arena.get? id = some node →
      (ofLeaves leaves journal).arena.Covers node := by
    intro id node hget child hchild
    obtain ⟨l, hlexeme, -⟩ := tokenize_genuine htokens node (get?_ofLeaves hget)
    rw [node.children_eq_nil (by rw [(Node.lexeme?_eq_some hlexeme).2.2]; rfl)] at hchild
    cases hchild
  rw [← ids_leafRow]
  refine ⟨(leafRow leaves).map slot, slots_run hstaggered.holds, fun steps w row' h => ⟨?_, ?_⟩, ?_⟩
  · intro hforwards id node hget
    obtain ⟨last, -, hgrafts⟩ := @Reduces.grafts (fun p => p.left ≤ p.right) g mode _ _ _ _ _
      (fun hlookup => hforwards _ _ hlookup) (fun _ => Nat.le_refl 0) hstaggered.holds h
    exact hgrafts.cover hstaggered (fun id node _ => hleaves id node) id node (Nat.zero_le _) hget
  · intro window hfound
    obtain ⟨last, rfl, hgrafts⟩ := @Reduces.grafts (fun _ => True) g mode _ _ _ _ _
      (fun _ => trivial) (fun _ => trivial) hstaggered.holds h
    rw [symbols_slots] at hfound
    exact passCovers_of_staggered (hgrafts.staggered hstaggered) hfound
  · obtain ⟨steps, w, row', hreduces, hend⟩ := @reduce_reduces g mode _ _ hstaggered.holds
    refine ⟨steps, w, row', hreduces, ?_⟩
    rcases hend with ⟨-, hend⟩ | hend
    · obtain ⟨last, rfl, hgrafts⟩ := @Reduces.grafts (fun _ => True) g mode _ _ _ _ _
        (fun _ => trivial) (fun _ => trivial) hstaggered.holds hreduces
      rw [hend]
      rcases conclude_cases (hgrafts.holds hstaggered.holds) with ⟨root, -, hroot⟩ | ⟨d, hd⟩
      · exact .inl ⟨root, hroot⟩
      · exact .inr ⟨_, hd⟩
    · exact .inr ⟨_, hend⟩

/-- The standard grammar takes its children from left to right, also where an identifier is covered
before it is read. -/
theorem reduce_covers_standard :
    ∃ leaves root w, tokenize "def val x as (T or x);" = .ok leaves
      ∧ (reduce .standard .bind (List.range leaves.length)).run (ofLeaves leaves {}) = .ok root w
      ∧ ∀ id node, w.arena.get? id = some node → w.arena.Covers node := by
  have hcomputed : ((tokenize "def val x as (T or x);").toOption.bind fun leaves =>
      (reduce .standard .bind (List.range leaves.length)).run' (ofLeaves leaves {}))
      = some 15 := by
    decide +kernel
  obtain ⟨leaves, htokens, hcomputed⟩ := Option.bind_eq_some_iff.mp hcomputed
  have htokens := Work.eq_ok_of_toOption htokens
  obtain ⟨row, -, hcovering, steps, w, row', hreduces, hend⟩ :=
    reduce_covers htokens .standard .bind {}
  have hcovers := (hcovering _ _ _ hreduces).forwards
    fun _ _ hlookup => Grammar.left_le_right_of_standard hlookup
  unfold EStateM.run' at hcomputed
  rcases hend with ⟨root, hroot⟩ | ⟨e, herror⟩
  · exact ⟨leaves, root, w, htokens, hroot, hcovers⟩
  · rw [herror] at hcomputed
    cases hcomputed

/-- In `val x` the node over both words has the name for its left child and `val` for its right one.
It starts at the name and stops before it. -/
theorem reduce_uncovered :
    ∃ leaves w node, tokenize "val x" = .ok leaves
      ∧ (reduce crossing .ignore (List.range leaves.length)).run (ofLeaves leaves {}) = .ok 2 w
      ∧ w.arena.get? 2 = some node ∧ node.span = ⟨4, 3⟩ ∧ ¬ w.arena.Covers node := by
  have hcomputed : ((tokenize "val x").toOption.bind fun leaves =>
      (Work.succeeded ((reduce crossing .ignore (List.range leaves.length)).run
        (ofLeaves leaves {}))).map fun p => (p.1,
          (p.2.arena.get? 2).map fun n => (n.span, n.children), (p.2.arena.get? 0).map (·.span)))
      = some (2, some (⟨4, 3⟩, [1, 0]), some ⟨0, 3⟩) := by
    decide +kernel
  obtain ⟨leaves, htokens, hcomputed⟩ := Option.bind_eq_some_iff.mp hcomputed
  obtain ⟨⟨root, w⟩, hroot, hcomputed⟩ := Option.map_eq_some_iff.mp hcomputed
  simp only [Prod.mk.injEq, Option.map_eq_some_iff] at hcomputed
  obtain ⟨rfl, ⟨node, hget, hspan, hchildren⟩, first, hfirst, hplace⟩ := hcomputed
  refine ⟨leaves, w, node, Work.eq_ok_of_toOption htokens, Work.eq_ok_of_succeeded hroot, hget,
    hspan, fun hcovers => ?_⟩
  obtain ⟨child, hchild, hstart, -⟩ := hcovers 0 (by rw [hchildren]; decide)
  cases hfirst.symm.trans hchild
  rw [hspan, hplace] at hstart
  exact absurd hstart (by decide)

end Workspace

end Trivalent
