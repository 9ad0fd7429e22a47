import Trivalent.Proofs.Reduction.Acyclic

/-!
# How the arena grows

A reduction adds nodes to the arena in two ways: it puts one over a window, and its declaration puts
one over every raw identifier. In both a part of the row gives way to one new node over one or two
nodes of that part. What is to hold of every node that a reduction ever makes, whether it is still
in the row or not, is shown along these.

* `Graft` -- one new node, and the row with the node in it;
* `Grafts` -- nodes one after another; `Grafts.preserves` carries over to them what every one of
  them preserves;
* `Workspace.advance_folds` -- **a pass through the loop never fails**: it puts a node over the
  window and then nodes over identifiers; `Workspace.advance_grafts` -- so it is a sequence of
  grafts, and `Workspace.Reduces.grafts` -- so are passes one after another;
* `Workspace.reduce_reduces` -- whatever comes of a reduction, passes have led to it.
-/

namespace Trivalent

open Trivalent.Derivation

/-! ## 1. Grafts -/

/-- One new node over the children that a production picks from a part of the row, in place of that
part. Only productions that are `Allowed` are used. -/
inductive Graft (Allowed : Production → Prop) :
    Arena × List Derivation → Arena × List Derivation → Prop
  | intro {arena : Arena} {before window after : List Derivation} {left : Derivation}
      {right : Option Derivation} {p : Production} (allowed : Allowed p)
      (leftChild : window[p.left]? = some left)
      (rightChild : right = if p.hasRight then window[p.right]? else none) :
      Graft Allowed (arena, before ++ window ++ after)
        (arena.push (above arena.size p.result p.action left right).node,
          before ++ above arena.size p.result p.action left right :: after)

/-- New nodes one after another. -/
def Grafts (Allowed : Production → Prop) :
    Arena × List Derivation → Arena × List Derivation → Prop :=
  Relation.ReflTransGen (Graft Allowed)

/-- The production by which an identifier is covered. -/
def coverProduction (symbol : Symbol) : Production := ⟨symbol, .left, 0, 0, false⟩

section Grafts

variable {Allowed : Production → Prop} {s t : Arena × List Derivation}

/-- What every new node preserves, new nodes one after another preserve. -/
theorem Grafts.preserves {P : Arena × List Derivation → Prop}
    (hgraft : ∀ {s t}, Graft Allowed s t → P s → P t) (h : Grafts Allowed s t) (hs : P s) : P t := by
  induction h with
  | refl => exact hs
  | tail _ hlast ih => exact hgraft hlast ih

theorem Graft.mono {Permitted : Production → Prop} (himp : ∀ p, Allowed p → Permitted p)
    (h : Graft Allowed s t) : Graft Permitted s t := by
  cases h with
  | intro allowed leftChild rightChild => exact .intro (himp _ allowed) leftChild rightChild

theorem Grafts.mono {Permitted : Production → Prop} (himp : ∀ p, Allowed p → Permitted p)
    (h : Grafts Allowed s t) : Grafts Permitted s t :=
  Relation.ReflTransGen.mono (fun _ _ => Graft.mono himp) _ _ h

theorem Graft.within (h : Graft Allowed s t) : s.1.Within t.1 := by
  cases h
  exact Arena.within_push _ _

theorem Grafts.within (h : Grafts Allowed s t) : s.1.Within t.1 := by
  refine h.preserves (P := fun t => s.1.Within t.1) ?_ (.refl _)
  exact fun hgraft hwithin => hwithin.trans hgraft.within

/-- A part of a row that the arena holds has children that the arena holds. -/
theorem holds_right {arena : Arena} {window : List Derivation} {p : Production}
    {right : Option Derivation} (hwindow : ∀ d ∈ window, arena.Holds d)
    (hright : right = if p.hasRight then window[p.right]? else none) :
    ∀ r ∈ right, arena.Holds r := by
  intro r hr
  rw [hright] at hr
  split at hr
  · exact hwindow r (List.mem_of_getElem? hr)
  · cases hr

/-- The arena holds the row that comes out. -/
theorem Graft.holds (h : Graft Allowed s t) (hrow : ∀ d ∈ s.2, s.1.Holds d) :
    ∀ d ∈ t.2, t.1.Holds d := by
  have hwithin := h.within
  cases h with
  | @intro arena before window after left right p allowed leftChild rightChild =>
      have hwindow : ∀ d ∈ window, arena.Holds d := fun d hd =>
        hrow d (List.mem_append_left _ (List.mem_append_right _ hd))
      intro d hd
      rcases List.mem_append.mp hd with hd | hd
      · exact (hrow d (List.mem_append_left _ (List.mem_append_left _ hd))).mono hwithin
      · rcases List.mem_cons.mp hd with rfl | hd
        · exact Arena.holds_above (hwindow left (List.mem_of_getElem? leftChild))
            (holds_right hwindow rightChild) _ _
        · exact (hrow d (List.mem_append_right _ hd)).mono hwithin

theorem Grafts.holds (h : Grafts Allowed s t) (hrow : ∀ d ∈ s.2, s.1.Holds d) :
    ∀ d ∈ t.2, t.1.Holds d :=
  h.preserves (P := fun t => ∀ d ∈ t.2, t.1.Holds d) (fun hgraft => hgraft.holds) hrow

end Grafts

/-! ## 2. A pass through the loop -/

namespace Workspace

variable {Allowed : Production → Prop}

/-- Covering the identifiers of a row is a sequence of grafts; `done` is the part of the row that
lies behind. -/
theorem wrapAll_grafts {symbol : Symbol} (hcover : Allowed (coverProduction symbol))
    (name : String) :
    ∀ (row done : List Derivation) (w : Workspace), (∀ d ∈ row, w.arena.Holds d) →
      ∃ row' w', (wrapAll symbol name (row.map (·.id))).run w = .ok (row'.map (·.id)) w'
        ∧ Grafts Allowed (w.arena, done ++ row) (w'.arena, done ++ row')
  | [], done, w, _ => ⟨[], w, rfl, .refl⟩
  | d :: row, done, w, h => by
      have hd := h d List.mem_cons_self
      have hrow : ∀ e ∈ row, w.arena.Holds e := fun e he => h e (List.mem_cons_of_mem _ he)
      have hcons : ∀ (e : Derivation) (rest : List Derivation),
          done ++ e :: rest = (done ++ [e]) ++ rest := fun e rest => by simp
      unfold wrapAll
      rw [List.map_cons, List.mapM_cons, EStateM.run_bind, wrap_run hd]
      by_cases hname : d.node.isIdentifier name = true
      · simp only [if_pos hname, EStateM.run_bind]
        let new := above w.arena.size symbol .left d none
        have hgraft : Graft Allowed (w.arena, done ++ [d] ++ row)
            (w.arena.push new.node, done ++ new :: row) := .intro hcover rfl rfl
        obtain ⟨row', w', hrun, hgrafts⟩ := wrapAll_grafts hcover name row (done ++ [new])
          { w with arena := w.arena.push new.node }
          (fun e he => (hrow e he).mono (w.arena.within_push _))
        unfold wrapAll at hrun
        rw [hrun]
        rw [← hcons, ← hcons] at hgrafts
        rw [← hcons] at hgraft
        exact ⟨new :: row', w', by rw [List.map_cons, id_above]; rfl, .head hgraft hgrafts⟩
      · simp only [if_neg hname, EStateM.run_bind]
        obtain ⟨row', w', hrun, hgrafts⟩ := wrapAll_grafts hcover name row (done ++ [d]) w hrow
        unfold wrapAll at hrun
        rw [hrun]
        rw [← hcons, ← hcons] at hgrafts
        exact ⟨d :: row', w', rfl, hgrafts⟩

theorem bindName_grafts {w : Workspace} {id : NodeId} {symbol : Symbol} {action : Action}
    {left : Derivation} {right : Option Derivation} {row : List Derivation}
    (hcover : Allowed (coverProduction symbol))
    (hnew : w.arena.Holds (above id symbol action left right)) (hleft : w.arena.Holds left)
    (hrow : ∀ d ∈ row, w.arena.Holds d) :
    ∃ count row' w', (bindName id (row.map (·.id))).run w = .ok (count, row'.map (·.id)) w'
      ∧ Grafts Allowed (w.arena, row) (w'.arena, row') := by
  rw [bindName_eq hnew hleft]
  cases left.node.literal? with
  | none => exact ⟨0, row, w, rfl, .refl⟩
  | some name =>
      obtain ⟨row', w', hrun, hgrafts⟩ := wrapAll_grafts hcover name row [] w hrow
      simp only
      rw [hrun]
      exact ⟨_, row', _, rfl, hgrafts⟩

/-- A window that is found gives way to one node by its production, and after that identifiers are
covered. -/
theorem reduceWindow_folds {g : Grammar} {mode : BindingMode} {w : Workspace}
    {row : List Derivation} {window : Grammar.Window} (hrow : ∀ d ∈ row, w.arena.Holds d)
    (hfound : g.find (row.map symbol) = some window) :
    ∃ s row' w', (reduceWindow mode (row.map slot) window).run w = .ok (row'.map (·.id)) w'
      ∧ Graft (· = window.production) (w.arena, row) s
      ∧ Grafts (fun p => ∃ symbol, p = coverProduction symbol) s (w'.arena, row') := by
  obtain ⟨before, win, after, rfl, hpos, hwidth, hlookup⟩ := exists_window hfound
  obtain ⟨hl, hr⟩ := Grammar.lookup_children hlookup
  rw [List.length_map] at hl hr
  have hleft := List.getElem?_eq_getElem hl
  let right := if window.production.hasRight then win[window.production.right]? else none
  let new := above w.arena.size window.production.result window.production.action
    win[window.production.left] right
  have hgraft : Graft (· = window.production) (w.arena, before ++ win ++ after)
      (w.arena.push new.node, before ++ new :: after) := .intro rfl hleft rfl
  have hwin : ∀ d ∈ win, w.arena.Holds d := fun d hd =>
    hrow d (List.mem_append_left _ (List.mem_append_right _ hd))
  have hholds := hgraft.holds hrow
  obtain ⟨journal, heq⟩ := @reduceWindow_eq w mode before win after _ right window hpos hwidth
    hleft rfl hr hwin new rfl
  rw [heq]
  unfold bindDeclared
  split
  · have hnew : (w.arena.push new.node).Holds new := hholds new (by simp)
    have hchild : (w.arena.push new.node).Holds win[window.production.left] :=
      (hwin _ (List.getElem_mem hl)).mono (w.arena.within_push _)
    obtain ⟨count, row', w', hrun, hgrafts⟩ := @bindName_grafts
      (fun p => ∃ symbol, p = coverProduction symbol) ⟨w.arena.push new.node, w.bound, journal⟩
      _ _ _ _ _ _ ⟨_, rfl⟩ hnew hchild hholds
    rw [EStateM.run_bind, show new.id = w.arena.size from id_above .., hrun]
    exact ⟨_, row', w', rfl, hgraft, hgrafts⟩
  · exact ⟨_, before ++ new :: after, _, rfl, hgraft, .refl⟩

/-- **A pass through the loop never fails**: it puts a node over the window, and then nodes over
identifiers. -/
theorem advance_folds {g : Grammar} {mode : BindingMode} {w : Workspace} {row : List Derivation}
    {window : Grammar.Window} (hrow : ∀ d ∈ row, w.arena.Holds d)
    (hfound : g.find (row.map symbol) = some window) :
    ∃ s row' w', (advance mode (row.map slot) window).run w = .ok (row'.map slot) w'
      ∧ Graft (· = window.production) (w.arena, row) s
      ∧ Grafts (fun p => ∃ symbol, p = coverProduction symbol) s (w'.arena, row') := by
  obtain ⟨s, row', w', hrun, hgraft, hgrafts⟩ := @reduceWindow_folds g mode w row window hrow hfound
  refine ⟨s, row',
    { w' with journal := w'.journal.note (.remaining ((row'.map slot).map (·.symbol))) }, ?_,
    hgraft, hgrafts⟩
  unfold advance
  rw [EStateM.run_bind, hrun]
  simp only [EStateM.run_bind]
  rw [slots_run (hgrafts.holds (hgraft.holds hrow))]
  rfl

/-- **So a pass is a sequence of grafts.** -/
theorem advance_grafts {g : Grammar} {mode : BindingMode} {w : Workspace}
    {row : List Derivation} {window : Grammar.Window}
    (hallowed : ∀ {frame p}, g.lookup frame = some p → Allowed p)
    (hcover : ∀ symbol, Allowed (coverProduction symbol)) (hrow : ∀ d ∈ row, w.arena.Holds d)
    (hfound : g.find (row.map symbol) = some window) :
    ∃ row' w', (advance mode (row.map slot) window).run w = .ok (row'.map slot) w'
      ∧ Grafts Allowed (w.arena, row) (w'.arena, row') := by
  obtain ⟨s, row', w', hrun, hgraft, hgrafts⟩ := @advance_folds g mode w row window hrow hfound
  obtain ⟨_, _, _, -, -, -, hlookup⟩ := exists_window hfound
  refine ⟨row', w', hrun, .head (hgraft.mono ?_) (hgrafts.mono ?_)⟩
  · rintro _ rfl
    exact hallowed hlookup
  · rintro _ ⟨symbol, rfl⟩
    exact hcover symbol

/-! ## 3. Passes one after another -/

/-- **Passes one after another are a sequence of grafts.** -/
theorem Reduces.grafts {g : Grammar} {mode : BindingMode} {w w' : Workspace} {steps : Nat}
    {row : List Derivation} {row' : List Slot}
    (hallowed : ∀ {frame p}, g.lookup frame = some p → Allowed p)
    (hcover : ∀ symbol, Allowed (coverProduction symbol)) (hrow : ∀ d ∈ row, w.arena.Holds d)
    (h : Reduces g mode steps w (row.map slot) w' row') :
    ∃ last : List Derivation, row' = last.map slot
      ∧ Grafts Allowed (w.arena, row) (w'.arena, last) := by
  generalize hslots : row.map slot = first at h
  induction h generalizing row with
  | refl w first => exact ⟨row, hslots.symm, .refl⟩
  | @step steps w w₁ w' first row₁ row' window found pass rest ih =>
      subst hslots
      rw [symbols_slots] at found
      obtain ⟨second, w₂, hpass, hgrafts⟩ :=
        @advance_grafts _ g mode w row window hallowed hcover hrow found
      rw [pass] at hpass
      cases hpass
      obtain ⟨last, hlast, hrest⟩ := ih (hgrafts.holds hrow) rfl
      exact ⟨last, hlast, hgrafts.trans hrest⟩

/-- Whatever comes of a loop, passes have led to it: it is concluded, or it goes on for longer than
it may. -/
theorem reduceRow_reduces {g : Grammar} {mode : BindingMode} :
    ∀ (bound : Nat) (row : List Derivation) (w : Workspace), (∀ d ∈ row, w.arena.Holds d) →
      ∃ steps w' row', Reduces g mode steps w (row.map slot) w' row'
        ∧ ((g.find (row'.map (·.symbol)) = none
            ∧ (reduceRow g mode bound (row.map slot)).run w = (conclude row').run w')
          ∨ (reduceRow g mode bound (row.map slot)).run w = .error (.fault .endless) w') := by
  intro bound
  induction bound with
  | zero =>
      intro row w hrow
      refine ⟨0, w, row.map slot, .refl _ _, ?_⟩
      unfold reduceRow
      cases hfind : g.find ((row.map slot).map (·.symbol)) with
      | none => exact .inl ⟨rfl, rfl⟩
      | some window => exact .inr rfl
  | succ bound ih =>
      intro row w hrow
      cases hfind : g.find ((row.map slot).map (·.symbol)) with
      | none =>
          refine ⟨0, w, row.map slot, .refl _ _, .inl ⟨hfind, ?_⟩⟩
          unfold reduceRow
          rw [hfind]
      | some window =>
          have hfound := hfind
          rw [symbols_slots] at hfound
          obtain ⟨row₁, w₁, hpass, hgrafts⟩ := @advance_grafts (fun _ => True) g mode w row window
            (fun _ => trivial) (fun _ => trivial) hrow hfound
          obtain ⟨steps, w', row', hreduces, hend⟩ := ih row₁ w₁ (hgrafts.holds hrow)
          refine ⟨steps + 1, w', row', .step hfind hpass hreduces, ?_⟩
          rw [reduceRow_succ hfind, EStateM.run_bind, hpass]
          exact hend

/-- **Whatever comes of a reduction, passes have led to it.** -/
theorem reduce_reduces {g : Grammar} {mode : BindingMode} {w : Workspace} {row : List Derivation}
    (hrow : ∀ d ∈ row, w.arena.Holds d) :
    ∃ steps w' row', Reduces g mode steps w (row.map slot) w' row'
      ∧ ((g.find (row'.map (·.symbol)) = none
          ∧ (reduce g mode (row.map (·.id))).run w = (conclude row').run w')
        ∨ (reduce g mode (row.map (·.id))).run w = .error (.fault .endless) w') := by
  cases row with
  | nil => exact ⟨0, w, [], .refl _ _, .inl ⟨rfl, rfl⟩⟩
  | cons d row =>
      have hreduce : (reduce g mode ((d :: row).map (·.id))).run w
          = (reduceRow g mode (stepBound (row.length + 1)) ((d :: row).map slot)).run w := by
        unfold reduce
        rw [if_neg (by simp), EStateM.run_bind, slots_run hrow, List.length_map]
        rfl
      rw [hreduce]
      exact reduceRow_reduces _ _ w hrow

end Workspace

end Trivalent
