import Mathlib.Data.Set.Function
import Trivalent.Proofs.Parse.Shape
import Trivalent.Proofs.Work.Parallel

/-!
# Parsing under other names

A parse compares names with one another and with nothing else, and it never looks at their order.
So a program whose identifiers are given other names is parsed in the same way, as long as no two of
its names become one.

* `Node.renamed`, `Arena.renamed` -- other names for the identifiers, and for nothing else;
* `Arena.Named` -- what is known of the names in an arena: they are among the given ones, and below
  every variable there is an identifier. A parse by the grammar of the language keeps this;
* `Workspace.Renamed` -- two workspaces that differ in their names and in their journals only;
* `parse_renamed` -- **the parse of a renamed program is the renamed parse**: the same root or the
  same failure, and in both cases the renamed arena and the renamed list of bound names.
-/

namespace Trivalent

/-! ## 1. Other names -/

/-- The text of a leaf, changed. -/
def Shape.renamed (ρ : String → String) : Shape → Shape
  | .leaf literal => .leaf (ρ literal)
  | .branch left right => .branch left right

/-- A node with another name, if it is an identifier. -/
def Node.renamed (ρ : String → String) (n : Node) : Node :=
  { n with shape := if n.symbol = .identifier then n.shape.renamed ρ else n.shape }

/-- An arena with other names for its identifiers. -/
def Arena.renamed (ρ : String → String) (arena : Arena) : Arena :=
  ⟨arena.nodes.map (Node.renamed ρ)⟩

namespace Node

variable (ρ : String → String) (n : Node)

@[simp] theorem symbol_renamed : (n.renamed ρ).symbol = n.symbol := rfl

@[simp] theorem action_renamed : (n.renamed ρ).action = n.action := rfl

@[simp] theorem span_renamed : (n.renamed ρ).span = n.span := rfl

@[simp] theorem line_renamed : (n.renamed ρ).line = n.line := rfl

@[simp] theorem left?_renamed : (n.renamed ρ).left? = n.left? := by
  unfold left? renamed
  by_cases h : n.symbol = .identifier
  · rw [if_pos h]
    cases n.shape <;> rfl
  · rw [if_neg h]

@[simp] theorem right?_renamed : (n.renamed ρ).right? = n.right? := by
  unfold right? renamed
  by_cases h : n.symbol = .identifier
  · rw [if_pos h]
    cases n.shape <;> rfl
  · rw [if_neg h]

theorem literal?_renamed (h : n.symbol = .identifier) :
    (n.renamed ρ).literal? = n.literal?.map ρ := by
  unfold literal? renamed
  rw [if_pos h]
  cases n.shape <;> rfl

theorem renamed_branch {left right : Option NodeId} (h : n.shape = .branch left right) :
    n.renamed ρ = n := by
  obtain ⟨symbol, action, span, line, shape⟩ := n
  subst h
  unfold renamed
  split <;> rfl

theorem renamed_id : n.renamed id = n := by
  obtain ⟨symbol, action, span, line, shape⟩ := n
  unfold renamed
  split
  · cases shape <;> rfl
  · rfl

end Node

namespace Arena

variable {σ : Type} (ρ : String → String) (arena : Arena)

@[simp] theorem size_renamed : (arena.renamed ρ).size = arena.size := by
  simp [size, renamed]

@[simp] theorem get?_renamed (id : NodeId) :
    (arena.renamed ρ).get? id = (arena.get? id).map (Node.renamed ρ) := by
  simp [get?, renamed]

theorem renamed_push (node : Node) :
    (arena.push node).renamed ρ = (arena.renamed ρ).push (node.renamed ρ) := by
  simp [push, renamed]

theorem renamed_pushAll (nodes : List Node) :
    ∀ arena : Arena, (arena.pushAll nodes).renamed ρ
      = (arena.renamed ρ).pushAll (nodes.map (Node.renamed ρ)) := by
  induction nodes with
  | nil => exact fun arena => rfl
  | cons node nodes ih =>
      intro arena
      show ((arena.push node).pushAll nodes).renamed ρ = _
      rw [ih, renamed_push]
      rfl

theorem renamed_id : arena.renamed id = arena := by
  unfold renamed
  rw [show Node.renamed id = id from funext Node.renamed_id, Array.map_id]

/-- A node of the renamed arena is a node of the arena, renamed. -/
theorem fetch_renamed (id : NodeId) :
    ((arena.renamed ρ).fetch id : Work σ Node)
      = (arena.fetch id >>= fun node => pure (node.renamed ρ)) := by
  unfold fetch
  rw [get?_renamed, size_renamed]
  cases arena.get? id <;> rfl

/-- Names say nothing about the parent of nodes. -/
theorem parent_renamed (symbol : Symbol) (action : Action) (left : NodeId)
    (right : Option NodeId) :
    ((arena.renamed ρ).parent symbol action left right : Work σ Node)
      = arena.parent symbol action left right := by
  unfold parent
  rw [fetch_renamed, bind_assoc]
  refine bind_congr fun first => ?_
  rw [pure_bind]
  cases right with
  | none => rfl
  | some id =>
      dsimp only
      rw [fetch_renamed, bind_assoc]
      rfl

/-- What is known of the names in an arena. -/
structure Named (arena : Arena) (names : Set String) : Prop where
  /-- An identifier has one of the names. -/
  identifier : ∀ {id node}, arena.get? id = some node → node.symbol = .identifier →
    ∃ name ∈ names, node.literal? = some name
  /-- What stands below a variable is an identifier. -/
  below : ∀ {id node child}, arena.get? id = some node → node.symbol = .valVar →
    node.left? = some child → ∃ leaf, arena.get? child = some leaf ∧ leaf.symbol = .identifier

section Named

variable {ρ : String → String} {names : Set String} {arena : Arena}

/-- An identifier has the new name exactly if it had the old one. -/
theorem Named.isIdentifier_renamed (h : arena.Named names) (hρ : Set.InjOn ρ names) {id : NodeId}
    {node : Node} (hget : arena.get? id = some node) {name : String} (hname : name ∈ names) :
    (node.renamed ρ).isIdentifier (ρ name) = node.isIdentifier name := by
  unfold Node.isIdentifier
  by_cases hsymbol : node.symbol = .identifier
  · obtain ⟨own, hown, hliteral⟩ := h.identifier hget hsymbol
    rw [node.literal?_renamed ρ hsymbol, Node.symbol_renamed, hliteral, Bool.eq_iff_iff]
    simp only [Option.map_some, Bool.and_eq_true, beq_iff_eq, Option.some.injEq,
      hρ.eq_iff hown hname]
  · rw [Node.symbol_renamed, beq_eq_false_iff_ne.mpr hsymbol]
    rfl

/-- A new node leaves the names as they are, if it is no identifier and has an identifier below it
where it is a variable. -/
theorem Named.push (h : arena.Named names) {node : Node} (hsymbol : node.symbol ≠ .identifier)
    (hvariable : node.symbol = .valVar → ∀ child, node.left? = some child →
      ∃ leaf, arena.get? child = some leaf ∧ leaf.symbol = .identifier) :
    (arena.push node).Named names where
  identifier {id other} hget hother := by
    rw [get?_push] at hget
    split at hget
    · cases hget
      exact absurd hother hsymbol
    · exact h.identifier hget hother
  below {id other child} hget hother hchild := by
    have hbelow : ∃ leaf, arena.get? child = some leaf ∧ leaf.symbol = .identifier := by
      rw [get?_push] at hget
      split at hget
      · cases hget
        exact hvariable hother child hchild
      · exact h.below hget hother hchild
    obtain ⟨leaf, hleaf, hidentifier⟩ := hbelow
    exact ⟨leaf, arena.within_push node _ _ hleaf, hidentifier⟩

/-- The leaves of a program have their own names only. -/
theorem named_ofLeaves {leaves : List Node} (hgenuine : GenuineLeaves leaves) (journal : Journal) :
    (Workspace.ofLeaves leaves journal).arena.Named {name | ∃ n ∈ leaves, n.isIdentifier name} := by
  have hmem : ∀ {id node}, (Workspace.ofLeaves leaves journal).arena.get? id = some node →
      node ∈ leaves ∧ ∃ l : Lexeme, node.lexeme? = some l ∧ l.Genuine := by
    intro id node hget
    have hget : (({} : Arena).pushAll leaves).get? id = some node := hget
    rw [get?_pushAll, show ({} : Arena).size = 0 from rfl, if_neg (Nat.not_lt_zero id)] at hget
    have hnode := List.mem_of_getElem? hget
    exact ⟨hnode, hgenuine node hnode⟩
  constructor
  · intro id node hget hsymbol
    obtain ⟨hnode, l, hlexeme, -⟩ := hmem hget
    obtain ⟨-, -, hliteral⟩ := Node.lexeme?_eq_some hlexeme
    refine ⟨l.literal, ⟨node, hnode, ?_⟩, hliteral⟩
    simp [Node.isIdentifier, hsymbol, hliteral]
  · intro id node child hget hsymbol hchild
    obtain ⟨-, l, hlexeme, hl⟩ := hmem hget
    have hl := hl.symbol_eq_operand
    rw [← (Node.lexeme?_eq_some hlexeme).1, hsymbol] at hl
    cases hl rfl

end Named

end Arena

/-! ## 2. What a parse looks at -/

section Settled

variable {σ : Type} {say : Failure → Failure} (hfaults : ∀ f, say (.fault f) = .fault f)

include hfaults in
theorem Arena.fetch_settled (arena : Arena) (id : NodeId) :
    Work.Settled say (arena.fetch id : Work σ Node) fun node => arena.get? id = some node := by
  unfold fetch
  cases hget : arena.get? id with
  | none => exact .throw (hfaults _)
  | some node => exact .pure rfl

include hfaults in
/-- The parent of nodes has the symbol it is to have, and these nodes as its children. -/
theorem Arena.parent_settled (arena : Arena) (symbol : Symbol) (action : Action) (left : NodeId)
    (right : Option NodeId) :
    Work.Settled say (arena.parent symbol action left right : Work σ Node)
      fun node => node.symbol = symbol ∧ node.shape = .branch (some left) right := by
  refine (arena.fetch_settled hfaults left).bind fun first _ => ?_
  cases right with
  | none => exact .pure ⟨rfl, rfl⟩
  | some id => exact (arena.fetch_settled hfaults id).bind fun last _ => .pure ⟨rfl, rfl⟩

end Settled

namespace Workspace

theorem pick_settled {σ : Type} (window : List Slot) (position : Nat) :
    Work.Settled id (pick window position : Work σ Slot)
      fun slot => window[position]? = some slot := by
  unfold pick
  cases hget : window[position]? with
  | none => exact .throw rfl
  | some slot => exact .pure rfl

theorem pickChildren_settled {σ : Type} (window : List Slot) (p : Production) :
    Work.Settled id (pickChildren window p : Work σ (Slot × Option Slot))
      fun children => window[p.left]? = some children.1 := by
  refine (pick_settled window p.left).bind fun left hleft => ?_
  by_cases hright : p.hasRight
  · rw [if_pos hright]
    exact (pick_settled window p.right).bind fun right _ => .pure hleft
  · rw [if_neg hright]
    exact .pure hleft

end Workspace

/-- Only a declaration makes a variable, and it makes one over an identifier; no rule makes an
identifier. -/
theorem Grammar.StandardFrame.names {frame : List Symbol} {p : Production}
    (h : StandardFrame frame p) :
    p.result ≠ .identifier ∧ (p.declares = true → p.result = .valVar)
      ∧ (p.result = .valVar → frame[p.left]? = some .identifier) := by
  cases h with
  | declare => exact ⟨nofun, fun _ => rfl, fun _ => rfl⟩
  | _ => exact ⟨nofun, nofun, nofun⟩

/-- The window that the search finds in a row is a frame of the grammar. -/
theorem Grammar.lookup_of_find {g : Grammar} {row : List Slot} {w : Window}
    (h : g.find (row.map (·.symbol)) = some w) :
    g.lookup (((row.drop w.position).take w.width).map (·.symbol)) = some w.production := by
  obtain ⟨⟨before, frame, after, hframe, hbefore, hwidth⟩, -⟩ := find_eq_some h
  rw [List.map_take, List.map_drop, hframe.row, ← hbefore, ← hwidth, List.append_assoc,
    List.drop_left, List.take_left]
  exact hframe.lookup

/-! ## 3. Parsing -/

namespace Workspace

/-- The second workspace is the first one under other names. Their journals may differ in any
way. -/
structure Renamed (ρ : String → String) (names : Set String) (w w' : Workspace) : Prop where
  arena : w'.arena = w.arena.renamed ρ
  bound : w'.bound = w.bound.map ρ
  named : w.arena.Named names

/-- A slot has the symbol of its node. -/
def Reads (w : Workspace) (slot : Slot) : Prop :=
  ∃ node, w.arena.get? slot.id = some node ∧ node.symbol = slot.symbol

/-- Both parses come to the same result or to the same failure, in workspaces that differ in names
and journals only. -/
def Renames (ρ : String → String) (names : Set String) (w w' : Workspace) {α : Type}
    (work other : Work Workspace α) (P : α → Workspace → Prop) : Prop :=
  Work.Parallel (Renamed ρ names) id w w' work other P

section Renamed

variable {ρ : String → String} {names : Set String} {w w' : Workspace}

theorem note_renamed (h : Renamed ρ names w w') (e e' : Event) :
    Renames ρ names w w' (note e) (note e') fun _ u => u.arena = w.arena :=
  ⟨rfl, ⟨h.arena, h.bound, h.named⟩, rfl⟩

theorem pushParent_renamed (h : Renamed ρ names w w') {symbol : Symbol} (action : Action)
    {left : NodeId} (right : Option NodeId) (hsymbol : symbol ≠ .identifier)
    (hleft : symbol = .valVar →
      ∃ leaf, w.arena.get? left = some leaf ∧ leaf.symbol = .identifier) :
    Renames ρ names w w' (pushParent symbol action left right)
      (pushParent symbol action left right)
      fun id u => ∃ node, u.arena.get? id = some node ∧ node.symbol = symbol := by
  refine .get ?_
  rw [h.arena, Arena.parent_renamed]
  refine (w.arena.parent_settled (fun _ => rfl) symbol action left right).parallel h ?_
  rintro node ⟨rfl, hshape⟩
  have hchild : node.left? = some left := by rw [Node.left?, hshape]
  refine ⟨?_, ⟨?_, h.bound, h.named.push hsymbol fun hvar child hc => ?_⟩, node,
    w.arena.get?_push_size node, rfl⟩
  · rw [h.arena, Arena.size_renamed]
  · show w'.arena.push node = (w.arena.push node).renamed ρ
    rw [Arena.renamed_push, h.arena, node.renamed_branch ρ hshape]
  · rw [hchild] at hc
    cases hc
    exact hleft hvar

theorem wrap_renamed (hρ : Set.InjOn ρ names) (h : Renamed ρ names w w') {name : String}
    (hname : name ∈ names) (id : NodeId) :
    Renames ρ names w w' (wrap .valVar name id) (wrap .valVar (ρ name) id) fun _ _ => True := by
  refine .get ?_
  rw [h.arena, Arena.fetch_renamed, bind_assoc]
  refine (w.arena.fetch_settled (fun _ => rfl) id).parallel h fun node hnode => ?_
  rw [pure_bind, h.named.isIdentifier_renamed hρ hnode hname]
  by_cases hidentifier : node.isIdentifier name = true
  · rw [if_pos hidentifier]
    unfold Node.isIdentifier at hidentifier
    have hsymbol := beq_iff_eq.mp (Bool.and_eq_true_iff.mp hidentifier).1
    refine (pushParent_renamed h .left none ?_ fun _ => ⟨node, hnode, hsymbol⟩).mono
      fun _ _ _ => trivial
    exact nofun
  · rw [if_neg hidentifier]
    exact .pure h trivial

/-- A variable declares the name of the identifier below it. -/
theorem declaredName?_renamed {σ : Type} {arena : Arena} (h : arena.Named names) {id : NodeId}
    {node : Node} (hget : arena.get? id = some node) (hsymbol : node.symbol = .valVar) :
    ∃ name : Option String, (∀ x ∈ name, x ∈ names)
      ∧ (declaredName? arena node : Work σ (Option String)) = pure name
      ∧ (declaredName? (arena.renamed ρ) (node.renamed ρ) : Work σ (Option String))
        = pure (name.map ρ) := by
  unfold declaredName?
  rw [Node.left?_renamed]
  cases hchild : node.left? with
  | none => exact ⟨none, nofun, rfl, rfl⟩
  | some child =>
      obtain ⟨leaf, hleaf, hidentifier⟩ := h.below hget hsymbol hchild
      obtain ⟨name, hname, hliteral⟩ := h.identifier hleaf hidentifier
      have hrenamed : (arena.renamed ρ).get? child = some (leaf.renamed ρ) := by
        rw [Arena.get?_renamed, hleaf]
        rfl
      refine ⟨some name, fun x hx => ?_, ?_, ?_⟩
      · cases hx
        exact hname
      · show (arena.fetch child >>= _ : Work σ _) = _
        rw [Arena.fetch_eq hleaf, pure_bind, hliteral]
      · show ((arena.renamed ρ).fetch child >>= _ : Work σ _) = _
        rw [Arena.fetch_eq hrenamed, pure_bind, leaf.literal?_renamed ρ hidentifier, hliteral]

theorem bindName_renamed (hρ : Set.InjOn ρ names) (h : Renamed ρ names w w') {trigger : NodeId}
    (htrigger : ∃ node, w.arena.get? trigger = some node ∧ node.symbol = .valVar)
    (live : List NodeId) :
    Renames ρ names w w' (bindName trigger live) (bindName trigger live) fun _ _ => True := by
  obtain ⟨node, hnode, hsymbol⟩ := htrigger
  refine .get ?_
  simp only [h.arena, Arena.fetch_renamed, Arena.fetch_eq hnode, pure_bind, Node.symbol_renamed,
    hsymbol, Arena.size_renamed]
  obtain ⟨name, hknown, hdeclared, hrenamed⟩ :=
    @declaredName?_renamed ρ names Workspace _ h.named _ _ hnode hsymbol
  rw [hdeclared, hrenamed, pure_bind, pure_bind]
  cases name with
  | none => exact .pure h trivial
  | some name =>
      have hname := hknown name rfl
      refine (Work.Parallel.mapM live (fun id u u' hu => wrap_renamed hρ hu hname id) h).bind
        fun covered u u' hu _ => .get ?_
      rw [hu.arena, Arena.size_renamed]
      refine (note_renamed hu _ _).bind fun _ v v' hv _ => ?_
      refine ⟨rfl, ⟨hv.arena, ?_, hv.named⟩, trivial⟩
      show v'.bound ++ [ρ name] = (v.bound ++ [name]).map ρ
      rw [hv.bound, List.map_append]
      rfl

/-- A reduction that the search calls for. -/
theorem reduceWindow_renamed (hρ : Set.InjOn ρ names) (h : Renamed ρ names w w')
    {mode : BindingMode} {row : List Slot} (hrow : ∀ slot ∈ row, Reads w slot)
    {window : Grammar.Window}
    (hfind : Grammar.standard.find (row.map (·.symbol)) = some window) :
    Renames ρ names w w' (reduceWindow mode row window) (reduceWindow mode row window)
      fun _ _ => True := by
  obtain ⟨hresult, hdeclares, hframe⟩ :=
    (Grammar.lookup_standard_iff.mp (Grammar.lookup_of_find hfind)).names
  refine (pickChildren_settled _ window.production).parallel h ?_
  rintro ⟨left, right⟩ hleft
  refine (pushParent_renamed h _ _ hresult fun hvar => ?_).bind fun reduced u u' hu hnew => ?_
  · -- the left child of a declaration is in the row, and it is an identifier there
    have hidentifier := hframe hvar
    rw [List.getElem?_map, hleft] at hidentifier
    have hmem := List.mem_of_mem_drop (List.mem_of_mem_take (List.mem_of_getElem? hleft))
    obtain ⟨node, hget, hsymbol⟩ := hrow left hmem
    exact ⟨node, hget, hsymbol.trans (Option.some.inj hidentifier)⟩
  · refine (note_renamed hu _ _).bind fun _ v v' hv harena => ?_
    by_cases hbind : (window.production.declares && mode == .bind) = true
    · rw [if_pos hbind]
      obtain ⟨hdeclared, -⟩ := Bool.and_eq_true_iff.mp hbind
      rw [hdeclares hdeclared, ← harena] at hnew
      exact (bindName_renamed hρ hv hnew _).bind fun _ x x' hx _ => .pure hx trivial
    · rw [if_neg hbind]
      exact .pure hv trivial

theorem slots_renamed (h : Renamed ρ names w w') (row : List NodeId) :
    Renames ρ names w w' (slots row) (slots row)
      fun row' u => ∀ slot ∈ row', Reads u slot := by
  have hslot : ∀ n, Work.Settled id
      (do return ⟨n, (← w.arena.fetch n).symbol⟩ : Work Workspace Slot) (Reads w) := fun n =>
    (w.arena.fetch_settled (fun _ => rfl) n).bind fun node hnode => .pure ⟨node, hnode, rfl⟩
  refine .get ?_
  simp only [h.arena, Arena.fetch_renamed, bind_assoc, pure_bind, Node.symbol_renamed]
  refine ((Work.Settled.mapM hslot row).both h).mono ?_
  rintro row' _ ⟨hreads, rfl⟩
  exact hreads

theorem conclude_renamed (h : Renamed ρ names w w') (row : List Slot) :
    Renames ρ names w w' (conclude row) (conclude row) fun _ _ => True := by
  match row with
  | [] => exact .throw h rfl
  | [slot] => exact .pure h trivial
  | first :: second :: rest =>
      refine .get ?_
      simp only [h.arena, Arena.fetch_renamed, bind_assoc, pure_bind, Node.span_renamed,
        Node.line_renamed]
      refine (w.arena.fetch_settled (fun _ => rfl) _).parallel h fun head _ => ?_
      refine (w.arena.fetch_settled (fun _ => rfl) _).parallel h fun last _ => ?_
      exact .throw h rfl

/-- Reductions until none applies. -/
theorem reduceRow_renamed (hρ : Set.InjOn ρ names) {mode : BindingMode} (steps : Nat) :
    ∀ {row : List Slot} {w w' : Workspace}, Renamed ρ names w w' → (∀ slot ∈ row, Reads w slot) →
      Renames ρ names w w' (reduceRow .standard mode steps row) (reduceRow .standard mode steps row)
        fun _ _ => True := by
  induction steps with
  | zero =>
      intro row w w' h hrow
      rw [reduceRow]
      cases hfind : Grammar.standard.find (row.map (·.symbol)) with
      | none => exact conclude_renamed h row
      | some window => exact .throw h rfl
  | succ steps ih =>
      intro row w w' h hrow
      rw [reduceRow]
      cases hfind : Grammar.standard.find (row.map (·.symbol)) with
      | none => exact conclude_renamed h row
      | some window =>
          refine (reduceWindow_renamed hρ h hrow hfind).bind fun live u u' hu _ => ?_
          refine (slots_renamed hu live).bind fun row' v v' hv hreads => ?_
          refine (note_renamed hv _ _).bind fun _ x x' hx harena => ?_
          refine ih hx fun slot hslot => ?_
          unfold Reads
          rw [harena]
          exact hreads slot hslot

theorem ofLeaves_renamed {leaves : List Node} (hgenuine : GenuineLeaves leaves)
    (journal journal' : Journal) :
    Renamed ρ {name | ∃ n ∈ leaves, n.isIdentifier name} (ofLeaves leaves journal)
      (ofLeaves (leaves.map (Node.renamed ρ)) journal') where
  arena := by
    show ({} : Arena).pushAll _ = (({} : Arena).pushAll leaves).renamed ρ
    rw [Arena.renamed_pushAll, show ({} : Arena).renamed ρ = {} by simp [Arena.renamed]]
  bound := rfl
  named := Arena.named_ofLeaves hgenuine journal

end Renamed

end Workspace

/-- **The parse of a renamed program is the renamed parse.** It comes to the same root or to the
same failure, whatever the journals. -/
theorem parse_renamed {ρ : String → String} {leaves : List Node} (hgenuine : GenuineLeaves leaves)
    (hρ : Set.InjOn ρ {name | ∃ n ∈ leaves, n.isIdentifier name}) (journal journal' : Journal) :
    Alike
      (fun root w root' w' => root' = root
        ∧ Workspace.Renamed ρ {name | ∃ n ∈ leaves, n.isIdentifier name} w w')
      (fun e w e' w' => e' = e
        ∧ Workspace.Renamed ρ {name | ∃ n ∈ leaves, n.isIdentifier name} w w')
      (parse leaves journal) (parse (leaves.map (Node.renamed ρ)) journal') := by
  have h : Workspace.Renamed ρ _ _ _ := Workspace.ofLeaves_renamed hgenuine journal journal'
  unfold parse Workspace.reduce
  rw [List.length_map]
  by_cases hempty : (List.range leaves.length).isEmpty = true
  · rw [if_pos hempty]
    exact ⟨rfl, h⟩
  · rw [if_neg hempty]
    refine Alike.mono ((Workspace.slots_renamed h _).bind fun row w w' hw hrow =>
      Workspace.reduceRow_renamed hρ _ hw hrow) ?_ ?_
    · exact fun root w root' w' ⟨hroot, hw, _⟩ => ⟨hroot, hw⟩
    · exact fun e w e' w' he => he

end Trivalent
