import Trivalent.Proofs.Reduction.Run
import Trivalent.Proofs.Token.Concatenation

/-!
# Reduction does not depend on places and numbers

The search looks at symbols only, and what a reduction builds over a window is decided by the
window. So it makes no difference for a reduction at which byte and in which line the tokens stand,
nor which numbers the nodes have; and there is only one row that it can end in.

* `Derivation.moved` -- the same tree some bytes and lines further on, without the numbers;
* `Step.moved_eq` -- **steps from the same row, up to places and numbers, lead to the same row**;
* `Run.moved_eq` -- **so do whole runs**, if they cannot go on.
-/

namespace Trivalent

open Trivalent.Derivation

/-! ## 1. Trees further on -/

namespace Derivation

/-- The same tree some bytes and lines further on, without the numbers of its nodes. -/
def moved (bytes lines : Nat) : Derivation → Derivation
  | .leaf _ node => .leaf 0 (node.moved bytes lines)
  | .unary _ node child => .unary 0 (node.moved bytes lines) (child.moved bytes lines)
  | .binary _ node left right =>
    .binary 0 (node.moved bytes lines) (left.moved bytes lines) (right.moved bytes lines)

@[simp] theorem node_moved (bytes lines : Nat) (d : Derivation) :
    (d.moved bytes lines).node = d.node.moved bytes lines := by
  cases d <;> rfl

@[simp] theorem symbol_moved (bytes lines : Nat) (d : Derivation) :
    (d.moved bytes lines).symbol = d.symbol := by
  cases d <;> rfl

theorem symbols_moved (bytes lines : Nat) (row : List Derivation) :
    (row.map (moved bytes lines)).map symbol = row.map symbol := by
  rw [List.map_map]
  exact List.map_congr_left fun d _ => symbol_moved bytes lines d

section Same

variable {bytes lines bytes' lines' : Nat} {left left' : Derivation}
  {right right' : Option Derivation}

theorem literal?_eq_of_moved (h : left.moved bytes lines = left'.moved bytes' lines') :
    left.node.literal? = left'.node.literal? := by
  have hnode := congrArg (fun d => d.node.literal?) h
  simpa using hnode

/-- The node over the same children is the same node. -/
theorem moved_above (hleft : left.moved bytes lines = left'.moved bytes' lines')
    (hright : right.map (moved bytes lines) = right'.map (moved bytes' lines')) (id id' : NodeId)
    (s : Symbol) (a : Action) :
    (above id s a left right).moved bytes lines
      = (above id' s a left' right').moved bytes' lines' := by
  have hnode := congrArg node hleft
  rw [node_moved, node_moved] at hnode
  have hstart := congrArg (·.span.start) hnode
  have hstop := congrArg (·.span.stop) hnode
  have hline := congrArg (·.line) hnode
  simp only [Node.moved, Span.moved] at hstart hstop hline
  cases right with
  | none =>
      cases right' with
      | some r => cases hright
      | none =>
          simp [above, moved, Node.moved, Span.moved, hstart, hstop, hline, hleft, Shape.unnumbered]
  | some r =>
      cases right' with
      | none => cases hright
      | some r' =>
          have hright := Option.some.inj hright
          have hrnode := congrArg node hright
          rw [node_moved, node_moved] at hrnode
          have hrstop := congrArg (·.span.stop) hrnode
          simp only [Node.moved, Span.moved] at hrstop
          simp [above, moved, Node.moved, Span.moved, hstart, hrstop, hline, hleft, hright,
            Shape.unnumbered]

/-- The same names are covered in the same rows. -/
theorem moved_coverAll (s : Symbol) (name : String) :
    ∀ {row row' : List Derivation}, row.map (moved bytes lines) = row'.map (moved bytes' lines') →
      ∀ next next' : NodeId, (coverAll s name next row).map (moved bytes lines)
        = (coverAll s name next' row').map (moved bytes' lines')
  | [], [], _, _, _ => rfl
  | d :: row, d' :: row', h, next, next' => by
      obtain ⟨hd, hrow⟩ := List.cons.inj h
      have hsymbol : d.node.symbol = d'.node.symbol := by
        have hsymbol := congrArg symbol hd
        rwa [symbol_moved, symbol_moved] at hsymbol
      have hname : d.node.isIdentifier name = d'.node.isIdentifier name := by
        unfold Node.isIdentifier
        rw [hsymbol, literal?_eq_of_moved hd]
      unfold coverAll
      rw [hname]
      split
      · rw [List.map_cons, List.map_cons, moved_coverAll s name hrow,
          @moved_above _ _ _ _ d d' none none hd rfl next next']
      · rw [List.map_cons, List.map_cons, hd, moved_coverAll s name hrow]

theorem moved_bindAll (s : Symbol) {row row' : List Derivation}
    (h : row.map (moved bytes lines) = row'.map (moved bytes' lines')) (next next' : NodeId)
    (declared : Option String) :
    (bindAll s next row declared).map (moved bytes lines)
      = (bindAll s next' row' declared).map (moved bytes' lines') := by
  cases declared with
  | none => exact h
  | some name => exact moved_coverAll s name h next next'

end Same

end Derivation

/-! ## 2. Steps and runs -/

section Determinism

variable {g : Grammar} {mode : BindingMode} {bytes lines bytes' lines' : Nat}
  {row row' : List Derivation}

/-- **Steps from the same row lead to the same row.** -/
theorem Step.moved_eq {next next' : NodeId} {declared declared' : Option String}
    {after after' : List Derivation} (h : Step g mode next row declared after)
    (h' : Step g mode next' row' declared' after')
    (hrow : row.map (moved bytes lines) = row'.map (moved bytes' lines')) :
    declared = declared' ∧ after.map (moved bytes lines) = after'.map (moved bytes' lines') := by
  have hsymbols : row.map symbol = row'.map symbol := by
    rw [← symbols_moved bytes lines, hrow, symbols_moved]
  cases h with
  | @intro before window rest p left right found split lookup leftChild rightChild =>
  cases h' with
  | @intro before' window' rest' p' left' right' found' split' lookup' leftChild' rightChild' =>
    rw [hsymbols, found'] at found
    injection found with found
    injection found with hposition hwidth hproduction
    subst hproduction
    -- the rows are cut at the same places
    rw [split, split', List.append_assoc, List.append_assoc, List.map_append, List.map_append,
      List.map_append, List.map_append] at hrow
    obtain ⟨hbefore, hrest⟩ := List.append_inj hrow (by simp [hposition])
    obtain ⟨hwindow, hafter⟩ := List.append_inj hrest (by simp [hwidth])
    have hchild : ∀ i : Nat, (window[i]?).map (moved bytes lines)
        = (window'[i]?).map (moved bytes' lines') := by
      intro i
      rw [← List.getElem?_map, ← List.getElem?_map, hwindow]
    have hleft : left.moved bytes lines = left'.moved bytes' lines' := by
      have hleft := hchild p'.left
      rw [leftChild, leftChild'] at hleft
      exact Option.some.inj hleft
    have hright : right.map (moved bytes lines) = right'.map (moved bytes' lines') := by
      rw [rightChild, rightChild']
      split
      · exact hchild p'.right
      · rfl
    have hdeclared : declaredBy mode p' left = declaredBy mode p' left' := by
      unfold declaredBy
      rw [literal?_eq_of_moved hleft]
    refine ⟨hdeclared, ?_⟩
    rw [hdeclared]
    refine moved_bindAll p'.result ?_ _ _ _
    rw [List.map_append, List.map_append, List.map_cons, List.map_cons, hbefore, hafter,
      moved_above hleft hright next next']

/-- **Runs from the same row that cannot go on have come to the same row.** -/
theorem Run.moved_eq {steps steps' : Nat} {names names' : List String}
    {last last' : List Derivation} (h : Run g mode steps row names last)
    (h' : Run g mode steps' row' names' last')
    (hlast : g.find (last.map symbol) = none) (hlast' : g.find (last'.map symbol) = none)
    (hrow : row.map (moved bytes lines) = row'.map (moved bytes' lines')) :
    last.map (moved bytes lines) = last'.map (moved bytes' lines') := by
  have hsymbols : ∀ {row row' : List Derivation},
      row.map (moved bytes lines) = row'.map (moved bytes' lines') →
      row.map symbol = row'.map symbol := by
    intro row row' hrow
    rw [← symbols_moved bytes lines, hrow, symbols_moved]
  induction h generalizing row' steps' names' with
  | refl row =>
      cases h' with
      | refl => exact hrow
      | step first rest =>
          cases first with
          | intro found =>
              rw [← hsymbols hrow, hlast] at found
              cases found
  | step first rest ih =>
      cases h' with
      | refl =>
          cases first with
          | intro found =>
              rw [hsymbols hrow, hlast'] at found
              cases found
      | step first' rest' => exact ih rest' hlast (first.moved_eq first' hrow).2

end Determinism

end Trivalent
