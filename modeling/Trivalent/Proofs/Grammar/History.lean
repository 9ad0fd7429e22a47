import Mathlib.Data.List.Induction
import Trivalent.Proofs.Grammar.Search

/-!
# Grammars by their history

A table is filled rule by rule, and a rule takes the place of an earlier one for its frame. What the
search finds can so be said without the table, by looking back at what was added:

* `Grammar.build` -- the table that additions make, one after another, if they are admissible;
* `Grammar.LastAdded` -- the production that was added last for a frame;
* `Grammar.lookup_build_iff` -- **the table knows what was added last, and nothing else**;
* `Grammar.Chosen` -- a part of a row that was added as a frame, when no wider one and no equally
  wide one further left was;
* `Grammar.find_build_iff`, `Grammar.find_build_eq_none_iff` -- **the search finds the part that is
  chosen, and nothing just if no part of the row was added as a frame**.
-/

namespace Trivalent

namespace Grammar

/-! ## 1. Additions -/

/-- The table that additions make of the empty one. -/
def build (additions : List (List Symbol × Production)) : Except Fault Grammar :=
  additions.foldlM (fun g addition => g.addRule addition.1 addition.2) {}

/-- The production was added for the frame, and after it no other was. -/
def LastAdded (additions : List (List Symbol × Production)) (frame : List Symbol)
    (p : Production) : Prop :=
  ∃ earlier later, additions = earlier ++ (frame, p) :: later ∧ ∀ a ∈ later, a.1 ≠ frame

section Additions

variable {additions : List (List Symbol × Production)} {frame : List Symbol} {p : Production}

theorem lastAdded_concat {other : List Symbol} {q : Production} :
    LastAdded (additions ++ [(other, q)]) frame p
      ↔ (other = frame ∧ q = p) ∨ (other ≠ frame ∧ LastAdded additions frame p) := by
  constructor
  · rintro ⟨earlier, later, heq, hlater⟩
    rcases List.eq_nil_or_concat later with rfl | ⟨between, last, rfl⟩
    · obtain ⟨-, hlast⟩ := List.append_inj' heq rfl
      cases hlast
      exact .inl ⟨rfl, rfl⟩
    · rw [List.concat_eq_append, ← List.cons_append, ← List.append_assoc] at heq
      obtain ⟨hfirst, hlast⟩ := List.append_inj' heq rfl
      cases hlast
      refine .inr ⟨hlater (other, q) (by simp), earlier, between, hfirst, fun a ha => ?_⟩
      exact hlater a (by simp [ha])
  · rintro (⟨rfl, rfl⟩ | ⟨hne, earlier, later, rfl, hlater⟩)
    · exact ⟨additions, [], rfl, fun a ha => absurd ha List.not_mem_nil⟩
    · refine ⟨earlier, later ++ [(other, q)], by simp, fun a ha => ?_⟩
      rcases List.mem_append.mp ha with ha | ha
      · exact hlater a ha
      · cases List.mem_singleton.mp ha
        exact hne

/-- Of the productions that were added for a frame, one is the last. -/
theorem exists_lastAdded_iff :
    (∃ p, LastAdded additions frame p) ↔ frame ∈ additions.map (·.1) := by
  induction additions using List.reverseRecOn with
  | nil => simp [LastAdded]
  | append_singleton additions addition ih =>
      obtain ⟨other, q⟩ := addition
      simp only [lastAdded_concat, List.map_append, List.mem_append, ← ih]
      by_cases hframe : other = frame
      · simp [hframe]
      · simp [hframe, Ne.symm hframe]

theorem addRule_eq_ok {g g' : Grammar} (h : g.addRule frame p = .ok g') :
    ∃ rule : Rule, g' = g.insert rule ∧ rule.frame = frame ∧ rule.production = p := by
  unfold addRule Rule.make at h
  split at h
  · split at h
    · cases h
      exact ⟨_, rfl, rfl, rfl⟩
    · cases h
  · cases h

theorem build_concat (additions : List (List Symbol × Production)) (frame : List Symbol)
    (p : Production) :
    build (additions ++ [(frame, p)]) = build additions >>= fun g => g.addRule frame p := by
  unfold build
  rw [List.foldlM_append]
  simp only [List.foldlM_cons, List.foldlM_nil, bind_pure]

/-- **The table knows for a frame what was added last.** -/
theorem lookup_build_iff {g : Grammar} (h : build additions = .ok g) :
    g.lookup frame = some p ↔ LastAdded additions frame p := by
  induction additions using List.reverseRecOn generalizing g with
  | nil =>
      cases h
      simp [lookup, LastAdded]
  | append_singleton additions addition ih =>
      obtain ⟨other, q⟩ := addition
      rw [build_concat] at h
      cases hbuilt : build additions with
      | error e =>
          rw [hbuilt] at h
          cases h
      | ok g₀ =>
          rw [hbuilt] at h
          obtain ⟨rule, rfl, rfl, rfl⟩ := addRule_eq_ok h
          rw [lookup_insert, lastAdded_concat, ← ih hbuilt]
          by_cases hframe : rule.frame = frame <;> simp [hframe]

theorem lookup_build_isSome_iff {g : Grammar} (h : build additions = .ok g) :
    (∃ p, g.lookup frame = some p) ↔ frame ∈ additions.map (·.1) := by
  rw [← exists_lastAdded_iff]
  exact exists_congr fun p => lookup_build_iff h

end Additions

/-! ## 2. Parts of a row -/

/-- The part of a row with the given place and width. -/
def part (symbols : List Symbol) (position width : Nat) : List Symbol :=
  (symbols.drop position).take width

/-- The part of a row that a reduction is to take: it was added as a frame, and neither a wider part
nor one that is as wide and lies further left was. -/
structure Chosen (additions : List (List Symbol × Production)) (symbols : List Symbol)
    (w : Window) : Prop where
  fits : w.position + w.width ≤ symbols.length
  last : LastAdded additions (part symbols w.position w.width) w.production
  widest : ∀ position width, position + width ≤ symbols.length → w.width < width →
    part symbols position width ∉ additions.map (·.1)
  leftmost : ∀ position < w.position, part symbols position w.width ∉ additions.map (·.1)

/-- No part of a row was added as a frame. -/
def Frameless (additions : List (List Symbol × Production)) (symbols : List Symbol) : Prop :=
  ∀ position width, position + width ≤ symbols.length →
    part symbols position width ∉ additions.map (·.1)

section Parts

variable {g : Grammar} {symbols before frame after : List Symbol} {p : Production}
  {position width : Nat}

theorem length_part (hfits : position + width ≤ symbols.length) :
    (part symbols position width).length = width := by
  unfold part
  rw [List.length_take, List.length_drop]
  omega

/-- A part that the table knows is a frame of the row. -/
theorem isFrame_part (h : g.lookup (part symbols position width) = some p) :
    g.IsFrame symbols (symbols.take position) (part symbols position width)
      (symbols.drop (position + width)) p where
  row := by
    unfold part
    rw [List.append_assoc, ← List.drop_drop, List.take_append_drop, List.take_append_drop]
  lookup := h

/-- A frame of the row is a part of it. -/
theorem IsFrame.eq_part (h : g.IsFrame symbols before frame after p) :
    frame = part symbols before.length frame.length
      ∧ before.length + frame.length ≤ symbols.length := by
  obtain ⟨rfl, -⟩ := h
  constructor
  · unfold part
    rw [List.append_assoc, List.drop_left, List.take_left]
  · rw [List.length_append, List.length_append]
    omega

/-- **The search finds the part that is chosen.** -/
theorem find_build_iff {additions : List (List Symbol × Production)}
    (h : build additions = .ok g) (w : Window) :
    g.find symbols = some w ↔ Chosen additions symbols w := by
  constructor
  · intro hfind
    obtain ⟨⟨before, frame, after, hframe, hposition, hwidth⟩, hfirst⟩ := find_eq_some hfind
    obtain ⟨hpart, hfits⟩ := hframe.eq_part
    rw [hposition, hwidth] at hpart hfits
    refine ⟨hfits, ?_, fun position width hle hlt hadded => ?_, fun position hlt hadded => ?_⟩
    · rw [← hpart, ← lookup_build_iff h]
      exact hframe.lookup
    · obtain ⟨q, hq⟩ := (lookup_build_isSome_iff h).mpr hadded
      have hle' := (hfirst _ _ _ _ (isFrame_part hq)).1
      rw [length_part hle] at hle'
      omega
    · obtain ⟨q, hq⟩ := (lookup_build_isSome_iff h).mpr hadded
      have hle := (hfirst _ _ _ _ (isFrame_part hq)).2 (length_part (by omega))
      rw [List.length_take] at hle
      omega
  · rintro ⟨hfits, hlast, hwidest, hleftmost⟩
    have hframe := isFrame_part ((lookup_build_iff h).mpr hlast)
    have hlength := length_part hfits
    have hstart : (symbols.take w.position).length = w.position := by
      rw [List.length_take]
      omega
    have hfound := find_of_first hframe fun b f a q hother => by
      obtain ⟨hpart, hle⟩ := hother.eq_part
      have hadded := (lookup_build_isSome_iff h).mp ⟨q, hother.lookup⟩
      rw [hlength, hstart]
      refine ⟨Nat.le_of_not_lt fun hlt => ?_, fun heq => Nat.le_of_not_lt fun hlt => ?_⟩
      · exact hwidest _ _ hle hlt (hpart ▸ hadded)
      · exact hleftmost _ hlt (heq ▸ hpart ▸ hadded)
    rw [hfound, hlength, hstart]

/-- **The search finds nothing just if no part of the row was added as a frame.** -/
theorem find_build_eq_none_iff {additions : List (List Symbol × Production)}
    (h : build additions = .ok g) :
    g.find symbols = none ↔ Frameless additions symbols := by
  constructor
  · intro hnone position width _ hadded
    obtain ⟨q, hq⟩ := (lookup_build_isSome_iff h).mpr hadded
    exact find_eq_none hnone (isFrame_part hq)
  · intro hnone
    refine find_eq_none_of_forall fun before frame after q hframe => ?_
    obtain ⟨hpart, hle⟩ := hframe.eq_part
    exact hnone _ _ hle (hpart ▸ (lookup_build_isSome_iff h).mp ⟨q, hframe.lookup⟩)

end Parts

end Grammar

end Trivalent
