import Trivalent.Proofs.Derivation
import Trivalent.Proofs.Grammar.Search

/-!
# What one reduction does

A reduction changes three things: the arena grows, the row of nodes gets shorter or changes in
place, and a declaration is remembered. Here the row is a row of derivations, and what a reduction
does to it is said once, for every grammar:

* `Derivation.above` -- the node over one or two others;
* `Derivation.coverAll` -- every raw identifier with a given text gets a node over it, all else
  stays;
* `Step` -- one reduction of a row, with the name that it declares;
* `Workspace.reduceWindow_run` -- **a reduction never fails**: on a row that the arena holds it
  makes the step that the search calls for, and the arena holds the row that comes out.

What holds along every parse is shown to hold along every `Step`.
-/

namespace Trivalent

/-! ## 1. Reading nodes -/

theorem Arena.fetch_eq {σ : Type} {arena : Arena} {id : NodeId} {node : Node}
    (h : arena.get? id = some node) : (arena.fetch id : Work σ Node) = pure node := by
  unfold Arena.fetch
  rw [h]

theorem Arena.fetch_absent {σ : Type} {arena : Arena} {id : NodeId} (h : arena.get? id = none) :
    (arena.fetch id : Work σ Node) = Work.refuse (.outOfRange arena.size id) := by
  unfold fetch
  rw [h]

theorem Arena.fetch_run {σ : Type} {arena : Arena} {id : NodeId} {node : Node}
    (h : arena.get? id = some node) (s : σ) :
    (arena.fetch id : Work σ Node).run s = .ok node s := by
  rw [Arena.fetch_eq h]
  rfl

/-- What is read off each node of a row that the arena holds. -/
theorem Arena.mapM_fetch_run {σ α : Type} {arena : Arena} (f : NodeId → Node → α) (s : σ) :
    ∀ {row : List Derivation}, (∀ d ∈ row, arena.Holds d) →
      ((row.map (·.id)).mapM fun id => do return f id (← arena.fetch id) : Work σ (List α)).run s
        = .ok (row.map fun d => f d.id d.node) s
  | [], _ => rfl
  | d :: row, h => by
      have hrow := mapM_fetch_run f s fun e he => h e (List.mem_cons_of_mem _ he)
      simp only [List.map_cons, List.mapM_cons, EStateM.run_bind]
      rw [Arena.fetch_run (h d List.mem_cons_self).get? s]
      simp only [EStateM.run_pure]
      rw [hrow]

namespace Derivation

/-- The node over one derivation or two, with the symbol and the action of a production. -/
def above (id : NodeId) (symbol : Symbol) (action : Action) (left : Derivation) :
    Option Derivation → Derivation
  | none =>
    unary id ⟨symbol, action, left.node.span, left.node.line, .branch (some left.id) none⟩ left
  | some right =>
    binary id ⟨symbol, action, ⟨left.node.span.start, right.node.span.stop⟩, left.node.line,
      .branch (some left.id) (some right.id)⟩ left right

@[simp] theorem id_above (id : NodeId) (symbol : Symbol) (action : Action) (left : Derivation)
    (right : Option Derivation) : (above id symbol action left right).id = id := by
  cases right <;> rfl

@[simp] theorem symbol_above (id : NodeId) (symbol : Symbol) (action : Action) (left : Derivation)
    (right : Option Derivation) : (above id symbol action left right).symbol = symbol := by
  cases right <;> rfl

/-- Covers every raw identifier with the given text, from left to right; `next` is the number that
the next new node gets. -/
def coverAll (symbol : Symbol) (name : String) : NodeId → List Derivation → List Derivation
  | _, [] => []
  | next, d :: row =>
    if d.node.isIdentifier name then
      above next symbol .left d none :: coverAll symbol name (next + 1) row
    else d :: coverAll symbol name next row

/-- What a declaration does to a row; without a name nothing happens. -/
def bindAll (symbol : Symbol) (next : NodeId) (row : List Derivation) :
    Option String → List Derivation
  | none => row
  | some name => coverAll symbol name next row

@[simp] theorem bindAll_none (symbol : Symbol) (next : NodeId) (row : List Derivation) :
    bindAll symbol next row none = row := rfl

@[simp] theorem bindAll_some (symbol : Symbol) (next : NodeId) (row : List Derivation)
    (name : String) : bindAll symbol next row (some name) = coverAll symbol name next row := rfl

@[simp] theorem length_coverAll (symbol : Symbol) (name : String) (next : NodeId)
    (row : List Derivation) : (coverAll symbol name next row).length = row.length := by
  induction row generalizing next with
  | nil => rfl
  | cons d row ih =>
      unfold coverAll
      split
      · rw [List.length_cons, List.length_cons, ih]
      · rw [List.length_cons, List.length_cons, ih]

@[simp] theorem length_bindAll (symbol : Symbol) (next : NodeId) (row : List Derivation)
    (declared : Option String) : (bindAll symbol next row declared).length = row.length := by
  cases declared with
  | none => rfl
  | some name => exact length_coverAll symbol name next row

end Derivation

open Trivalent.Derivation

/-- The parent of nodes that the arena holds. -/
theorem Arena.parent_run {σ : Type} {arena : Arena} {left : Derivation} {right : Option Derivation}
    (hleft : arena.Holds left) (hright : ∀ r ∈ right, arena.Holds r) (symbol : Symbol)
    (action : Action) (id : NodeId) (s : σ) :
    (arena.parent symbol action left.id (right.map (·.id)) : Work σ Node).run s
      = .ok (above id symbol action left right).node s := by
  unfold Arena.parent
  rw [EStateM.run_bind, Arena.fetch_run hleft.get? s]
  cases right with
  | none => rfl
  | some r =>
      have hr := Arena.fetch_run (hright r rfl).get? s
      simp only [Option.map_some, EStateM.run_bind]
      rw [hr]
      rfl

/-- The arena that has grown by a parent holds it. -/
theorem Arena.holds_above {arena : Arena} {left : Derivation} {right : Option Derivation}
    (hleft : arena.Holds left) (hright : ∀ r ∈ right, arena.Holds r) (symbol : Symbol)
    (action : Action) :
    (arena.push (above arena.size symbol action left right).node).Holds
      (above arena.size symbol action left right) := by
  have hwithin := arena.within_push (above arena.size symbol action left right).node
  cases right with
  | none => exact ⟨arena.get?_push_size _, rfl, hleft.id_lt, hleft.mono hwithin⟩
  | some r =>
      have hr := hright r rfl
      exact ⟨arena.get?_push_size _, rfl, hleft.id_lt, hr.id_lt, hleft.mono hwithin,
        hr.mono hwithin⟩

namespace Workspace

/-- A workspace whose arena has grown and now holds a row, and in which some names were bound. -/
structure Grown (w w' : Workspace) (names : List String) (row : List Derivation) : Prop where
  within : w.arena.Within w'.arena
  holds : ∀ d ∈ row, w'.arena.Holds d
  bound : w'.bound = w.bound ++ names

theorem pushParent_run {w : Workspace} {left : Derivation} {right : Option Derivation}
    (hleft : w.arena.Holds left) (hright : ∀ r ∈ right, w.arena.Holds r) (symbol : Symbol)
    (action : Action) :
    (pushParent symbol action left.id (right.map (·.id))).run w
      = .ok w.arena.size
          { w with arena := w.arena.push (above w.arena.size symbol action left right).node } := by
  unfold pushParent push
  rw [EStateM.run_bind, EStateM.run_get]
  simp only [EStateM.run_bind]
  rw [Arena.parent_run hleft hright symbol action w.arena.size w]
  rfl

/-! ## 2. Covering identifiers -/

theorem wrap_run {w : Workspace} {d : Derivation} (h : w.arena.Holds d) (symbol : Symbol)
    (name : String) :
    (wrap symbol name d.id).run w
      = if d.node.isIdentifier name then
          .ok w.arena.size
            { w with arena := w.arena.push (above w.arena.size symbol .left d none).node }
        else .ok d.id w := by
  unfold wrap
  rw [EStateM.run_bind, EStateM.run_get]
  simp only [EStateM.run_bind]
  rw [Arena.fetch_run h.get? w]
  simp only
  split
  · exact @pushParent_run w d none h (fun r hr => by cases hr) symbol .left
  · rfl

/-- Covering a row of derivations covers it, node by node, in the arena. -/
theorem wrapAll_run (symbol : Symbol) (name : String) :
    ∀ (row : List Derivation) (w : Workspace), (∀ d ∈ row, w.arena.Holds d) →
      ∃ arena, (wrapAll symbol name (row.map (·.id))).run w
          = .ok ((coverAll symbol name w.arena.size row).map (·.id)) { w with arena }
        ∧ w.arena.Within arena ∧ (∀ d ∈ coverAll symbol name w.arena.size row, arena.Holds d)
        ∧ arena.size = w.arena.size + row.countP (·.node.isIdentifier name)
  | [], w, _ => ⟨w.arena, rfl, .refl _, fun d hd => absurd hd List.not_mem_nil, rfl⟩
  | d :: row, w, h => by
      have hd := h d List.mem_cons_self
      have hrow : ∀ e ∈ row, w.arena.Holds e := fun e he => h e (List.mem_cons_of_mem _ he)
      unfold wrapAll coverAll
      rw [List.map_cons, List.mapM_cons, EStateM.run_bind, wrap_run hd]
      by_cases hname : d.node.isIdentifier name = true
      · simp only [if_pos hname, EStateM.run_bind]
        have hwithin := w.arena.within_push (above w.arena.size symbol .left d none).node
        obtain ⟨arena, hrun, hgrown, hholds, hsize⟩ := wrapAll_run symbol name row
          { w with arena := w.arena.push (above w.arena.size symbol .left d none).node }
          (fun e he => (hrow e he).mono hwithin)
        unfold wrapAll at hrun
        rw [hrun]
        simp only [Arena.size_push] at hholds hsize ⊢
        refine ⟨arena, by rw [List.map_cons, id_above]; rfl, hwithin.trans hgrown, ?_, ?_⟩
        · intro e he
          rcases List.mem_cons.mp he with rfl | he
          · exact (Arena.holds_above hd (fun r hr => by cases hr) symbol .left).mono hgrown
          · exact hholds e he
        · rw [hsize, List.countP_cons, if_pos hname]
          omega
      · simp only [if_neg hname, EStateM.run_bind]
        obtain ⟨arena, hrun, hgrown, hholds, hsize⟩ := wrapAll_run symbol name row w hrow
        unfold wrapAll at hrun
        rw [hrun]
        refine ⟨arena, rfl, hgrown, ?_, by rw [hsize, List.countP_cons, if_neg hname]; rfl⟩
        intro e he
        rcases List.mem_cons.mp he with rfl | he
        · exact hd.mono hgrown
        · exact hholds e he

/-- A declaration binds the text of its left child, if that is a leaf: it covers the row and
remembers the name. -/
theorem bindName_of_left {w : Workspace} {id left : NodeId} {declaration child : Node}
    (hget : w.arena.get? id = some declaration) (hleft : declaration.left? = some left)
    (hchild : w.arena.get? left = some child) (live : List NodeId) :
    (bindName id live).run w
      = match child.literal? with
        | none => .ok (0, live) w
        | some name =>
          match (wrapAll declaration.symbol name live).run w with
          | .ok covered w' =>
            .ok (w'.arena.size - w.arena.size, covered)
              { w' with
                bound := w'.bound ++ [name]
                journal := w'.journal.note
                  (.bound name declaration.symbol (w'.arena.size - w.arena.size)) }
          | .error e w' => .error e w' := by
  unfold bindName
  rw [EStateM.run_bind, EStateM.run_get]
  simp only [EStateM.run_bind]
  rw [Arena.fetch_run hget w]
  simp only [declaredName?, hleft, EStateM.run_bind]
  rw [Arena.fetch_run hchild w]
  simp only [EStateM.run_pure]
  cases child.literal? with
  | none => rfl
  | some name =>
      simp only [EStateM.run_bind]
      cases (wrapAll declaration.symbol name live).run w <;> rfl

theorem bindName_eq {w : Workspace} {id : NodeId} {symbol : Symbol} {action : Action}
    {left : Derivation} {right : Option Derivation}
    (hnew : w.arena.Holds (above id symbol action left right)) (hleft : w.arena.Holds left)
    (live : List NodeId) :
    (bindName id live).run w
      = match left.node.literal? with
        | none => .ok (0, live) w
        | some name =>
          match (wrapAll symbol name live).run w with
          | .ok covered w' =>
            .ok (w'.arena.size - w.arena.size, covered)
              { w' with
                bound := w'.bound ++ [name]
                journal := w'.journal.note (.bound name symbol (w'.arena.size - w.arena.size)) }
          | .error e w' => .error e w' := by
  have hget := hnew.get?
  rw [id_above] at hget
  have hchild : (above id symbol action left right).node.left? = some left.id := by
    cases right <;> rfl
  have hsymbol : (above id symbol action left right).node.symbol = symbol := by
    cases right <;> rfl
  rw [bindName_of_left hget hchild hleft.get?, hsymbol]

/-- What a declaration of a node that the arena holds makes of a row that the arena holds. -/
theorem bindName_run {w : Workspace} {id : NodeId} {symbol : Symbol} {action : Action}
    {left : Derivation} {right : Option Derivation} {row : List Derivation}
    (hnew : w.arena.Holds (above id symbol action left right)) (hleft : w.arena.Holds left)
    (hrow : ∀ d ∈ row, w.arena.Holds d) :
    ∃ count w', (bindName id (row.map (·.id))).run w
        = .ok (count, (bindAll symbol w.arena.size row left.node.literal?).map (·.id)) w'
      ∧ Grown w w' left.node.literal?.toList
          (bindAll symbol w.arena.size row left.node.literal?) := by
  rw [bindName_eq hnew hleft]
  cases left.node.literal? with
  | none =>
      exact ⟨0, w, rfl, Arena.Within.refl _, hrow, (List.append_nil _).symm⟩
  | some name =>
      obtain ⟨arena, hrun, hwithin, hholds, -⟩ := wrapAll_run symbol name row w hrow
      simp only
      rw [hrun]
      exact ⟨arena.size - w.arena.size, _, rfl, hwithin, hholds, rfl⟩

end Workspace

/-! ## 3. Steps -/

/-- The name a reduction declares: the text of its left child, if the production declares anything
and declarations count. -/
def declaredBy (mode : BindingMode) (p : Production) (left : Derivation) : Option String :=
  if p.declares && mode == .bind then left.node.literal? else none

/-- One reduction of a row, where `next` is the number of the next new node: the window that the
search finds becomes one node over the children that its production picks, and what this declares
is bound in the row that comes out. -/
inductive Step (g : Grammar) (mode : BindingMode) (next : NodeId) (row : List Derivation) :
    Option String → List Derivation → Prop
  | intro {before window after : List Derivation} {p : Production} {left : Derivation}
      {right : Option Derivation}
      (found : g.find (row.map symbol) = some ⟨before.length, window.length, p⟩)
      (split : row = before ++ window ++ after)
      (lookup : g.lookup (window.map symbol) = some p)
      (leftChild : window[p.left]? = some left)
      (rightChild : right = if p.hasRight then window[p.right]? else none) :
      Step g mode next row (declaredBy mode p left)
        (bindAll p.result (next + 1) (before ++ above next p.result p.action left right :: after)
          (declaredBy mode p left))

/-- The window that is found, cut out of the row. -/
theorem exists_window {g : Grammar} {row : List Derivation} {w : Grammar.Window}
    (h : g.find (row.map symbol) = some w) :
    ∃ before window after, row = before ++ window ++ after ∧ before.length = w.position
      ∧ window.length = w.width ∧ g.lookup (window.map symbol) = some w.production := by
  obtain ⟨⟨b, f, a, hframe, hb, hf⟩, _⟩ := Grammar.find_eq_some h
  obtain ⟨bw, after, rfl, hbw, rfl⟩ := List.map_eq_append_iff.mp hframe.row
  obtain ⟨before, window, rfl, rfl, rfl⟩ := List.map_eq_append_iff.mp hbw
  rw [List.length_map] at hb hf
  exact ⟨before, window, after, rfl, hb, hf, hframe.lookup⟩

namespace Workspace

theorem symbols_slots (row : List Derivation) :
    (row.map slot).map (·.symbol) = row.map symbol := by
  rw [List.map_map]
  rfl

theorem slots_run {w : Workspace} {row : List Derivation} (h : ∀ d ∈ row, w.arena.Holds d) :
    (slots (row.map (·.id))).run w = .ok (row.map slot) w := by
  unfold slots
  rw [EStateM.run_bind, EStateM.run_get]
  exact Arena.mapM_fetch_run (fun id node => Slot.mk id node.symbol) w h

theorem pick_run {σ : Type} {window : List Derivation} {position : Nat} {d : Derivation}
    (h : window[position]? = some d) (s : σ) :
    (pick (window.map slot) position : Work σ Slot).run s = .ok d.slot s := by
  unfold pick
  rw [List.getElem?_map, h]
  rfl

theorem pickChildren_run {σ : Type} {window : List Derivation} {p : Production}
    {left : Derivation} {right : Option Derivation} (hleft : window[p.left]? = some left)
    (hright : right = if p.hasRight then window[p.right]? else none)
    (hlt : p.right < window.length) (s : σ) :
    (pickChildren (window.map slot) p : Work σ (Slot × Option Slot)).run s
      = .ok (left.slot, right.map slot) s := by
  unfold pickChildren
  rw [EStateM.run_bind, pick_run hleft s]
  simp only
  split
  · rename_i hr
    rw [if_pos hr, List.getElem?_eq_getElem hlt] at hright
    rw [EStateM.run_bind, pick_run (List.getElem?_eq_getElem hlt) s, hright]
    rfl
  · rename_i hr
    rw [if_neg hr] at hright
    rw [hright]
    rfl

/-- What is left of a reduction once its node is in the row: to bind what the node declares. -/
def bindDeclared (mode : BindingMode) (p : Production) (id : NodeId) (live : List NodeId) :
    Work Workspace (List NodeId) :=
  if p.declares && mode == .bind then do return (← bindName id live).2 else pure live

/-- A reduction puts a node over the children that its production picks, in place of the window. -/
theorem reduceWindow_eq {w : Workspace} {mode : BindingMode} {before win after : List Derivation}
    {left : Derivation} {right : Option Derivation} {window : Grammar.Window}
    (hpos : before.length = window.position) (hwidth : win.length = window.width)
    (hleft : win[window.production.left]? = some left)
    (hright : right = if window.production.hasRight then win[window.production.right]? else none)
    (hlt : window.production.right < win.length) (hwin : ∀ d ∈ win, w.arena.Holds d)
    {new : Derivation}
    (hnew : new
      = above w.arena.size window.production.result window.production.action left right) :
    ∃ journal, (reduceWindow mode ((before ++ win ++ after).map slot) window).run w
      = (bindDeclared mode window.production new.id ((before ++ new :: after).map (·.id))).run
          { w with arena := w.arena.push new.node, journal } := by
  subst hnew
  have hholdsl : w.arena.Holds left := hwin left (List.mem_of_getElem? hleft)
  have hholdsr : ∀ r ∈ right, w.arena.Holds r := by
    intro r hr
    rw [hright] at hr
    split at hr
    · exact hwin r (List.mem_of_getElem? hr)
    · cases hr
  -- the slots of the row are cut where the row is cut
  have hcut : (before ++ win ++ after).map slot
      = before.map slot ++ (win.map slot ++ after.map slot) := by
    rw [List.map_append, List.map_append, List.append_assoc]
  have hbl : (before.map slot).length = window.position := by rw [List.length_map, hpos]
  have hwl : (win.map slot).length = window.width := by rw [List.length_map, hwidth]
  have hids : ∀ ds : List Derivation, (ds.map slot).map (·.id) = ds.map (·.id) := fun ds => by
    rw [List.map_map]
    rfl
  have hnewIds : before.map (·.id) ++ w.arena.size :: after.map (·.id)
      = (before ++ above w.arena.size window.production.result window.production.action left right
          :: after).map (·.id) := by
    rw [List.map_append, List.map_cons, id_above]
  have hpush := pushParent_run hholdsl hholdsr window.production.result window.production.action
  unfold reduceWindow
  simp only [hcut, List.drop_left' hbl, List.take_left' hwl, List.take_left' hbl, ← List.drop_drop,
    List.drop_left' hwl, hids, EStateM.run_bind]
  rw [pickChildren_run hleft hright hlt w]
  simp only [Option.map_map]
  rw [show (Option.map ((fun x => x.id) ∘ slot) right) = right.map (·.id) from rfl,
    show left.slot.id = left.id from rfl, hpush]
  simp only [note, EStateM.run_modify]
  rw [hnewIds, id_above]
  exact ⟨_, rfl⟩

/-- **A reduction never fails.** The window that the search finds in a row that the arena holds is
reduced by a step, and the arena, grown, holds the row that comes out. -/
theorem reduceWindow_run {g : Grammar} {mode : BindingMode} {w : Workspace}
    {row : List Derivation} {window : Grammar.Window} (hrow : ∀ d ∈ row, w.arena.Holds d)
    (hfound : g.find (row.map symbol) = some window) :
    ∃ declared row' w', (reduceWindow mode (row.map slot) window).run w = .ok (row'.map (·.id)) w'
      ∧ Step g mode w.arena.size row declared row' ∧ Grown w w' declared.toList row' := by
  obtain ⟨before, win, after, rfl, hpos, hwidth, hlookup⟩ := exists_window hfound
  obtain ⟨hl, hr⟩ := Grammar.lookup_children hlookup
  rw [List.length_map] at hl hr
  obtain ⟨left, hleft⟩ : ∃ left, win[window.production.left]? = some left :=
    ⟨_, List.getElem?_eq_getElem hl⟩
  obtain ⟨right, hright⟩ : ∃ right,
      right = if window.production.hasRight then win[window.production.right]? else none :=
    ⟨_, rfl⟩
  have hmem : ∀ d ∈ win, w.arena.Holds d := fun d hd =>
    hrow d (List.mem_append_left _ (List.mem_append_right _ hd))
  have hholdsl : w.arena.Holds left := hmem left (List.mem_of_getElem? hleft)
  have hholdsr : ∀ r ∈ right, w.arena.Holds r := by
    intro r hr
    rw [hright] at hr
    split at hr
    · exact hmem r (List.mem_of_getElem? hr)
    · cases hr
  have hfound' : g.find ((before ++ win ++ after).map symbol)
      = some ⟨before.length, win.length, window.production⟩ := by
    rw [hfound, hpos, hwidth]
  have hstep : Step g mode w.arena.size _ _ _ := .intro hfound' rfl hlookup hleft hright
  -- the arena grows by the new node and holds the row with the node in it
  let new := above w.arena.size window.production.result window.production.action left right
  have hwithin : w.arena.Within (w.arena.push new.node) := w.arena.within_push _
  have hnew : (w.arena.push new.node).Holds new := Arena.holds_above hholdsl hholdsr _ _
  have hnewRow : ∀ d ∈ before ++ new :: after, (w.arena.push new.node).Holds d := by
    intro d hd
    rcases List.mem_append.mp hd with hd | hd
    · exact (hrow d (List.mem_append_left _ (List.mem_append_left _ hd))).mono hwithin
    · rcases List.mem_cons.mp hd with rfl | hd
      · exact hnew
      · exact (hrow d (List.mem_append_right _ hd)).mono hwithin
  obtain ⟨journal, heq⟩ := @reduceWindow_eq w mode before win after left right window hpos hwidth
    hleft hright hr hmem new rfl
  rw [heq, show new.id = w.arena.size from id_above ..]
  unfold bindDeclared
  split
  · rename_i hbind
    obtain ⟨count, w', hrun, hgrown⟩ := bindName_run
      (w := ⟨w.arena.push new.node, w.bound, journal⟩) hnew (hholdsl.mono hwithin) hnewRow
    rw [EStateM.run_bind, hrun]
    simp only [Arena.size_push] at hgrown ⊢
    rw [declaredBy, if_pos hbind] at hstep
    exact ⟨_, _, w', rfl, hstep, hwithin.trans hgrown.within, hgrown.holds, hgrown.bound⟩
  · rename_i hbind
    rw [declaredBy, if_neg hbind] at hstep
    exact ⟨none, _, _, rfl, hstep, hwithin, hnewRow, (List.append_nil _).symm⟩

end Workspace

end Trivalent
