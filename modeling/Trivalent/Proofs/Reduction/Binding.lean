import Trivalent.Proofs.Reduction.Acyclic

/-!
# What a declaration does to a row

A declaration goes through the row from left to right and puts a new node over every raw identifier
with its name, so the arena that it looks nodes up in grows while it goes on. This file says exactly
what has changed in the end, slot by slot, for any row of any arena: rows with the same node in
several slots, nodes that have the symbol of an identifier and are no leaves, declarations that are
themselves in the row.

* `Derivation.getElem?_coverAll` -- what is in a slot afterwards. The new node over a slot has the
  number that the arena reached by the slots before it;
* `Derivation.countP_zip_coverAll` -- as many slots change as there are raw identifiers;
* `Workspace.Rewrites` -- everything that a declaration changes and leaves;
* `Workspace.bindName_rewrites` -- **a declaration rewrites the occurrences of its name and nothing
  else**, once: made again, it finds none.
-/

namespace Trivalent

open Trivalent.Derivation

/-! ## 1. Slots -/

/-- A raw identifier is a leaf. -/
theorem Node.isIdentifier_iff {n : Node} {name : String} :
    n.isIdentifier name = true ↔ n.symbol = .identifier ∧ n.shape = .leaf name := by
  obtain ⟨symbol, action, span, line, shape⟩ := n
  cases shape <;> simp [isIdentifier, literal?]

namespace Derivation

section Slots

variable {symbol : Symbol} {name : String} {row : List Derivation} {next : Nat}

/-- The number of the node that is put over a slot if it has a raw identifier: the slots before it
have used up one number for each raw identifier in them. -/
def coverId (name : String) (next : Nat) (row : List Derivation) (i : Nat) : Nat :=
  next + (row.take i).countP (·.node.isIdentifier name)

/-- **What is in a slot afterwards.** -/
theorem getElem?_coverAll (i : Nat) :
    (coverAll symbol name next row)[i]?
      = row[i]?.map fun d =>
          if d.node.isIdentifier name then above (coverId name next row i) symbol .left d none
          else d := by
  induction row generalizing next i with
  | nil => rfl
  | cons d row ih =>
      unfold coverAll
      cases i with
      | zero => split <;> simp_all [coverId]
      | succ i =>
          by_cases hname : d.node.isIdentifier name = true
          · have hid : coverId name (next + 1) row i = coverId name next (d :: row) (i + 1) := by
              unfold coverId
              rw [List.take_succ_cons, List.countP_cons, if_pos hname]
              omega
            rw [if_pos hname, List.getElem?_cons_succ, List.getElem?_cons_succ, ih, hid]
          · have hid : coverId name next row i = coverId name next (d :: row) (i + 1) := by
              unfold coverId
              rw [List.take_succ_cons, List.countP_cons, if_neg hname]
              rfl
            rw [if_neg hname, List.getElem?_cons_succ, List.getElem?_cons_succ, ih, hid]

section Slot

variable {d : Derivation} {i : Nat} (hd : row[i]? = some d)
include hd

theorem covered_mem (hname : d.node.isIdentifier name = true) :
    above (coverId name next row i) symbol .left d none ∈ coverAll symbol name next row := by
  refine List.mem_of_getElem? (i := i) ?_
  rw [getElem?_coverAll, hd, Option.map_some, if_pos hname]

theorem id_covered (hname : d.node.isIdentifier name = true) :
    ((coverAll symbol name next row).map (·.id))[i]? = some (coverId name next row i) := by
  rw [List.getElem?_map, getElem?_coverAll, hd, Option.map_some, Option.map_some, if_pos hname,
    id_above]

theorem id_kept (hname : ¬ d.node.isIdentifier name = true) :
    ((coverAll symbol name next row).map (·.id))[i]? = some d.id := by
  rw [List.getElem?_map, getElem?_coverAll, hd, Option.map_some, Option.map_some, if_neg hname]

/-- New nodes have numbers beyond those in the row, so a slot changes if it is covered. -/
theorem changed_iff (hlt : (d.id : Nat) < next) :
    ((coverAll symbol name next row).map (·.id))[i]? ≠ some d.id
      ↔ d.node.isIdentifier name = true := by
  constructor
  · intro hchanged
    exact Decidable.byContradiction fun hname => hchanged (id_kept hd hname)
  · intro hname hsame
    rw [id_covered hd hname] at hsame
    exact Nat.ne_of_gt (Nat.lt_of_lt_of_le hlt (Nat.le_add_right next _)) (Option.some.inj hsame)

end Slot

/-- Slots further to the right get larger numbers. -/
theorem coverId_lt {d : Derivation} {i j : Nat} (hd : row[i]? = some d)
    (hname : d.node.isIdentifier name = true) (hij : i < j) :
    coverId name next row i < coverId name next row j := by
  have hlt : i < row.length := (List.getElem?_eq_some_iff.mp hd).1
  have hstep : (row.take (i + 1)).countP (·.node.isIdentifier name)
      = (row.take i).countP (·.node.isIdentifier name) + 1 := by
    rw [List.take_add_one, hd, Option.toList_some, List.countP_append, List.countP_singleton,
      if_pos hname]
  have hle : (row.take (i + 1)).countP (·.node.isIdentifier name)
      ≤ (row.take j).countP (·.node.isIdentifier name) :=
    (List.take_sublist_take_left hij).countP_le
  unfold coverId
  omega

/-- A row that has been covered has no raw identifier with that name. -/
theorem not_isIdentifier_of_mem_coverAll {d : Derivation}
    (hd : d ∈ coverAll symbol name next row) : ¬ d.node.isIdentifier name = true := by
  obtain ⟨i, hi⟩ := List.mem_iff_getElem?.mp hd
  rw [getElem?_coverAll] at hi
  obtain ⟨e, -, rfl⟩ := Option.map_eq_some_iff.mp hi
  split
  · simp [above, node, Node.isIdentifier, Node.literal?]
  · assumption

/-- As many slots change as there are raw identifiers. -/
theorem countP_zip_coverAll (hrow : ∀ d ∈ row, (d.id : Nat) < next) :
    ((row.map (·.id)).zip ((coverAll symbol name next row).map (·.id))).countP
        (fun slot => slot.1 != slot.2)
      = row.countP (·.node.isIdentifier name) := by
  induction row generalizing next with
  | nil => rfl
  | cons d row ih =>
      have hd := hrow d List.mem_cons_self
      have hrest : ∀ e ∈ row, (e.id : Nat) < next := fun e he =>
        hrow e (List.mem_cons_of_mem _ he)
      unfold coverAll
      by_cases hname : d.node.isIdentifier name = true
      · have hne : (d.id != next) = true := bne_iff_ne.mpr (Nat.ne_of_lt hd)
        rw [if_pos hname, List.map_cons, List.map_cons, List.zip_cons_cons, List.countP_cons,
          List.countP_cons, id_above, if_pos hne, if_pos hname,
          ih fun e he => Nat.lt_succ_of_lt (hrest e he)]
      · rw [if_neg hname, List.map_cons, List.map_cons, List.zip_cons_cons, List.countP_cons,
          List.countP_cons, if_neg hname, ih hrest]
        simp

end Slots

end Derivation

/-! ## 2. Rows -/

namespace Workspace

/-- What has become of a workspace and a row after a declaration of `name` has rewritten them, with
nodes of the given symbol. -/
structure Rewrites (symbol : Symbol) (name : String) (w : Workspace) (live : List NodeId)
    (count : Nat) (w' : Workspace) (live' : List NodeId) : Prop where
  /-- The row keeps its length. -/
  length_eq : live'.length = live.length
  /-- A slot changes exactly if it has a raw identifier with that name. -/
  changed_iff : ∀ {i id : Nat}, live[i]? = some id →
    (live'[i]? ≠ some id ↔ ∃ node, w.arena.get? id = some node ∧ node.symbol = .identifier
      ∧ node.shape = .leaf name)
  /-- It then has a new node, in the place of the old one and over it. -/
  covered : ∀ {i id : Nat}, live[i]? = some id → live'[i]? ≠ some id →
    ∃ (node : Node) (new : Nat), w.arena.get? id = some node ∧ live'[i]? = some new
      ∧ w.arena.size ≤ new
      ∧ w'.arena.get? new = some ⟨symbol, .left, node.span, node.line, .branch (some id) none⟩
  /-- Two slots that change have different nodes. -/
  apart : ∀ {i j : Nat}, i ≠ j → live'[i]? ≠ live[i]? → live'[j]? ≠ live[j]? →
    live'[i]? ≠ live'[j]?
  /-- The nodes that were there stay as they are. -/
  lasting : ∀ {id : Nat}, id < w.arena.size → w'.arena.get? id = w.arena.get? id
  /-- The count is the number of slots that change, and of nodes that are new. -/
  count_eq : count = (live.zip live').countP fun slot => slot.1 != slot.2
  size_eq : w'.arena.size = w.arena.size + count
  /-- The name is remembered, once. -/
  bound_eq : w'.bound = w.bound ++ [name]
  /-- No slot has a raw identifier with that name any more. -/
  gone : ∀ {id : Nat} {node : Node}, id ∈ live' → w'.arena.get? id = some node →
    ¬ (node.symbol = .identifier ∧ node.shape = .leaf name)

section Rows

variable {symbol : Symbol} {name : String} {w w' : Workspace} {row : List Derivation}

/-- **Covering a row rewrites it.** -/
theorem rewrites_coverAll (hrow : ∀ d ∈ row, w.arena.Holds d)
    (hwithin : w.arena.Within w'.arena)
    (hholds : ∀ d ∈ coverAll symbol name w.arena.size row, w'.arena.Holds d)
    (hsize : w'.arena.size = w.arena.size + row.countP (·.node.isIdentifier name))
    (hbound : w'.bound = w.bound ++ [name]) :
    Rewrites symbol name w (row.map (·.id)) (row.countP (·.node.isIdentifier name)) w'
      ((coverAll symbol name w.arena.size row).map (·.id)) := by
  have hslot : ∀ {i id : Nat}, (row.map (·.id))[i]? = some id → ∃ d, row[i]? = some d ∧ d.id = id
      ∧ w.arena.get? id = some d.node ∧ id < w.arena.size := by
    intro i id hid
    rw [List.getElem?_map] at hid
    obtain ⟨d, hd, rfl⟩ := Option.map_eq_some_iff.mp hid
    have hd' := hrow d (List.mem_of_getElem? hd)
    exact ⟨d, hd, rfl, hd'.get?, hd'.id_lt⟩
  have hchanged : ∀ {i : Nat}, ((coverAll symbol name w.arena.size row).map (·.id))[i]?
      ≠ (row.map (·.id))[i]? → ∃ d, row[i]? = some d ∧ d.node.isIdentifier name = true := by
    intro i hne
    cases hid : (row.map (·.id))[i]? with
    | none =>
        have hlen : row.length ≤ i := by simpa using hid
        exact absurd (by simpa using hlen) (hid ▸ hne)
    | some id =>
        rw [hid] at hne
        obtain ⟨d, hd, rfl, -, hlt⟩ := hslot hid
        exact ⟨d, hd, (changed_iff hd hlt).mp hne⟩
  refine ⟨by simp, ?_, ?_, ?_, ?_, ?_, hsize, hbound, ?_⟩
  · intro i id hid
    obtain ⟨d, hd, rfl, hget, hlt⟩ := hslot hid
    rw [changed_iff hd hlt, Node.isIdentifier_iff, hget]
    simp
  · intro i id hid hne
    obtain ⟨d, hd, rfl, hget, hlt⟩ := hslot hid
    have hname := (changed_iff hd hlt).mp hne
    have hget' := (hholds _ (covered_mem hd hname)).get?
    rw [id_above] at hget'
    exact ⟨d.node, _, hget, id_covered hd hname, Nat.le_add_right _ _, hget'⟩
  · intro i j hij hi hj
    obtain ⟨d, hd, hdname⟩ := hchanged hi
    obtain ⟨e, he, hename⟩ := hchanged hj
    rw [id_covered hd hdname, id_covered he hename]
    intro hsame
    have hsame := Option.some.inj hsame
    rcases Nat.lt_or_gt_of_ne hij with hlt | hlt
    · exact Nat.ne_of_lt (coverId_lt hd hdname hlt) hsame
    · exact Nat.ne_of_gt (coverId_lt he hename hlt) hsame
  · intro id hid
    obtain ⟨node, hget⟩ := Arena.exists_get? hid
    rw [hget, hwithin _ _ hget]
  · exact (countP_zip_coverAll fun d hd => (hrow d hd).id_lt).symm
  · intro id node hid hget hraw
    obtain ⟨d, hd, rfl⟩ := List.mem_map.mp hid
    rw [(hholds d hd).get?] at hget
    cases hget
    exact not_isIdentifier_of_mem_coverAll hd (Node.isIdentifier_iff.mpr hraw)

/-- Where there is no raw identifier with that name, nothing is covered. -/
theorem wrapAll_of_forall_not :
    ∀ {row : List Derivation}, (∀ d ∈ row, w.arena.Holds d) →
      (∀ d ∈ row, ¬ d.node.isIdentifier name = true) →
      (wrapAll symbol name (row.map (·.id))).run w = .ok (row.map (·.id)) w
  | [], _, _ => rfl
  | d :: row, hrow, hnone => by
      have hrest := wrapAll_of_forall_not (fun e he => hrow e (List.mem_cons_of_mem _ he))
        fun e he => hnone e (List.mem_cons_of_mem _ he)
      unfold wrapAll at hrest ⊢
      rw [List.map_cons, List.mapM_cons, EStateM.run_bind, wrap_run (hrow d List.mem_cons_self),
        if_neg (hnone d List.mem_cons_self)]
      simp only [EStateM.run_bind]
      rw [hrest]
      rfl

end Rows

/-! ## 3. Declarations -/

/-- Without a left child there is no name, and nothing happens. -/
theorem bindName_of_none {w : Workspace} {id : NodeId} {declaration : Node}
    (hget : w.arena.get? id = some declaration) (hleft : declaration.left? = none)
    (live : List NodeId) : (bindName id live).run w = .ok (0, live) w := by
  unfold bindName
  rw [EStateM.run_bind, EStateM.run_get]
  simp only [EStateM.run_bind]
  rw [Arena.fetch_run hget w]
  simp only [declaredName?, hleft, EStateM.run_pure]

/-- **A declaration rewrites the occurrences of its name and nothing else.** Let `trigger` be a node
of the arena and `live` a row of its nodes. If the left child of the trigger is a leaf, then the row
and the arena are rewritten as `Rewrites` says, with the symbol of the trigger and the text of the
leaf; made once more, the declaration rewrites no slot and adds no node. If the trigger has no left
child, or one that is no leaf, nothing changes at all. -/
theorem bindName_rewrites {w : Workspace} {trigger : NodeId} {declaration : Node}
    {live : List NodeId} (htrigger : w.arena.get? trigger = some declaration)
    (hlive : ∀ id ∈ live, id < w.arena.size) :
    (∀ left child name, declaration.left? = some left → w.arena.get? left = some child →
        child.shape = .leaf name →
        ∃ count live' w', (bindName trigger live).run w = .ok (count, live') w'
          ∧ Rewrites declaration.symbol name w live count w' live'
          ∧ ∃ w'', (bindName trigger live').run w' = .ok (0, live') w'' ∧ w''.arena = w'.arena)
      ∧ ((∀ left, declaration.left? = some left →
          ∃ child, w.arena.get? left = some child ∧ child.literal? = none) →
        (bindName trigger live).run w = .ok (0, live) w) := by
  refine ⟨fun left child name hleft hchild hshape => ?_, fun hnameless => ?_⟩
  · have hliteral : child.literal? = some name := by simp [Node.literal?, hshape]
    obtain ⟨row, rfl, hrow⟩ := exists_leaves_of_lt hlive
    obtain ⟨arena, hrun, hwithin, hholds, hsize⟩ := wrapAll_run declaration.symbol name row w hrow
    rw [bindName_of_left htrigger hleft hchild, hliteral]
    simp only
    rw [hrun]
    have hcount : arena.size - w.arena.size = row.countP (·.node.isIdentifier name) := by omega
    refine ⟨_, _, _, rfl, hcount ▸ rewrites_coverAll hrow hwithin hholds hsize rfl, ?_⟩
    -- the row has no raw identifier with that name left
    rw [bindName_of_left (hwithin _ _ htrigger) hleft (hwithin _ _ hchild), hliteral]
    simp only
    rw [wrapAll_of_forall_not hholds fun d => not_isIdentifier_of_mem_coverAll]
    simp only [Nat.sub_self]
    exact ⟨_, rfl, rfl⟩
  · cases hleft : declaration.left? with
    | none => exact bindName_of_none htrigger hleft live
    | some left =>
        obtain ⟨child, hchild, hliteral⟩ := hnameless left hleft
        rw [bindName_of_left htrigger hleft hchild, hliteral]

/-- An identifier, another one, a node over the first that has the symbol of an identifier, and a
declaration of the first. -/
def declaring : Workspace where
  arena := ⟨#[.terminal .identifier "x" ⟨4, 5⟩ 1 .inert, .terminal .identifier "y" ⟨6, 7⟩ 1 .inert,
    ⟨.identifier, .left, ⟨4, 5⟩, 1, .branch (some 0) none⟩,
    ⟨.valVar, .bind, ⟨4, 5⟩, 1, .branch (some 0) none⟩]⟩

/-- The first identifier is in the row twice and gets two nodes over it; the node over it that is no
leaf stays. -/
theorem bindName_rewrites_repeated :
    ∃ w', (bindName 3 [0, 1, 0, 2, 3]).run declaring = .ok (2, [4, 1, 5, 2, 3]) w'
      ∧ Rewrites .valVar "x" declaring [0, 1, 0, 2, 3] 2 w' [4, 1, 5, 2, 3]
      ∧ ∃ w'', (bindName 3 [4, 1, 5, 2, 3]).run w' = .ok (0, [4, 1, 5, 2, 3]) w''
        ∧ w''.arena = w'.arena := by
  obtain ⟨count, live', w', hrun, hrewrites, hagain⟩ :=
    (@bindName_rewrites declaring 3 _ [0, 1, 0, 2, 3] rfl (by decide)).1 0 _ "x" rfl rfl rfl
  have hresult : (bindName 3 [0, 1, 0, 2, 3]).run' declaring = some (2, [4, 1, 5, 2, 3]) := by
    decide +kernel
  unfold EStateM.run' at hresult
  rw [hrun] at hresult
  cases hresult
  exact ⟨w', hrun, hrewrites, hagain⟩

end Workspace

end Trivalent
