import Trivalent.Grammar

/-!
# What the search for a window finds

`Grammar.find` runs through the widths from the greatest down and, for each of them, through the
windows from left to right. Its result says something about every window of the row, also about
those that it never came to:

* `Grammar.IsFrame` -- a part of a row that is a frame of the grammar;
* `Grammar.find_eq_some` -- the window that is found is a frame, none is wider, and of those as
  wide none lies further left;
* `Grammar.find_eq_none` -- where nothing is found, no part of the row is a frame;
* `Grammar.find_of_first` -- a frame is found if none is wider, nor as wide and further left;
* `Grammar.find_of_append`, `Grammar.find_eq_none_of_append` -- what is found in a part of the row.
-/

namespace Trivalent

namespace Grammar

/-! ## 1. The table -/

/-- A frame in the table comes from a rule, with what rules promise. -/
theorem exists_rule_of_lookup {g : Grammar} {frame : List Symbol} {p : Production}
    (h : g.lookup frame = some p) :
    ∃ rule ∈ g.rules, rule.frame = frame ∧ rule.production = p := by
  obtain ⟨rule, hfind, hp⟩ := Option.map_eq_some_iff.mp h
  exact ⟨rule, List.mem_of_find?_eq_some hfind, by simpa using List.find?_some hfind, hp⟩

theorem lookup_length {g : Grammar} {frame : List Symbol} {p : Production}
    (h : g.lookup frame = some p) : 0 < frame.length ∧ frame.length ≤ maxFrame := by
  obtain ⟨rule, _, rfl, _⟩ := exists_rule_of_lookup h
  exact ⟨rule.frame_pos, rule.frame_le⟩

theorem lookup_children {g : Grammar} {frame : List Symbol} {p : Production}
    (h : g.lookup frame = some p) : p.left < frame.length ∧ p.right < frame.length := by
  obtain ⟨rule, _, rfl, rfl⟩ := exists_rule_of_lookup h
  exact ⟨rule.left_lt, rule.right_lt⟩

/-! ## 2. One width -/

/-- A part of a row, between `before` and `after`, that is a frame with the given production. -/
structure IsFrame (g : Grammar) (symbols before frame after : List Symbol) (p : Production) :
    Prop where
  row : symbols = before ++ frame ++ after
  lookup : g.lookup frame = some p

theorem findWidth_eq_some {g : Grammar} {width position : Nat} {p : Production} :
    ∀ {symbols : List Symbol}, g.findWidth width symbols = some (position, p) →
      ∃ before frame after, g.IsFrame symbols before frame after p ∧ before.length = position
        ∧ frame.length = width
  | [], h => by simp [findWidth] at h
  | s :: rest, h => by
      unfold findWidth at h
      simp only at h
      split at h
      · rename_i q hq
        cases h
        split at hq
        · rename_i hlen
          exact ⟨[], _, (s :: rest).drop width, ⟨(List.take_append_drop _ _).symm, hq⟩, rfl, hlen⟩
        · cases hq
      · obtain ⟨⟨k, q⟩, hrest, hk⟩ := Option.map_eq_some_iff.mp h
        cases hk
        obtain ⟨before, frame, after, ⟨hrow, hlookup⟩, rfl, hlen⟩ := findWidth_eq_some hrest
        exact ⟨s :: before, frame, after, ⟨by rw [hrow]; rfl, hlookup⟩, rfl, hlen⟩

/-- A frame of the width that is searched for is found, or one further left is. -/
theorem findWidth_le {g : Grammar} :
    ∀ {symbols before frame after : List Symbol} {p : Production},
      g.IsFrame symbols before frame after p →
      ∃ position q, g.findWidth frame.length symbols = some (position, q)
        ∧ position ≤ before.length
  | [], before, frame, after, p, h => by
      have hnil := h.row
      simp only [List.nil_eq, List.append_eq_nil_iff] at hnil
      have hpos := (lookup_length h.lookup).1
      rw [hnil.1.2] at hpos
      cases hpos
  | s :: rest, before, frame, after, p, h => by
      unfold findWidth
      simp only
      split
      · rename_i q _
        exact ⟨0, q, rfl, Nat.zero_le _⟩
      · rename_i hhead
        cases before with
        | nil =>
            -- the frame stands at the very start, where it has just been looked for
            have hrow : s :: rest = frame ++ after := h.row
            rw [hrow, List.take_left, if_pos rfl, h.lookup] at hhead
            cases hhead
        | cons b before =>
            have hrow := h.row
            simp only [List.cons_append, List.cons.injEq] at hrow
            obtain ⟨k, q, hfind, hle⟩ := findWidth_le (g := g) ⟨hrow.2, h.lookup⟩
            rw [hfind]
            exact ⟨k + 1, q, rfl, Nat.succ_le_succ hle⟩

/-! ## 3. All widths -/

theorem findUpTo_eq_some {g : Grammar} {symbols : List Symbol} {w : Window} :
    ∀ {width : Nat}, g.findUpTo symbols width = some w →
      w.width ≤ width ∧ g.findWidth w.width symbols = some (w.position, w.production)
        ∧ ∀ k, w.width < k → k ≤ width → g.findWidth k symbols = none
  | 0, h => by cases h
  | width + 1, h => by
      unfold findUpTo at h
      split at h
      · rename_i position p hfind
        cases h
        exact ⟨Nat.le_refl _, hfind, fun k hlt hle => absurd hlt (Nat.not_lt.mpr hle)⟩
      · rename_i hnone
        obtain ⟨hle, hfind, hwider⟩ := findUpTo_eq_some h
        refine ⟨Nat.le_succ_of_le hle, hfind, fun k hlt hk => ?_⟩
        rcases Nat.lt_or_eq_of_le hk with hk | rfl
        · exact hwider k hlt (Nat.le_of_lt_succ hk)
        · exact hnone

theorem findUpTo_eq_none {g : Grammar} {symbols : List Symbol} :
    ∀ {width : Nat}, g.findUpTo symbols width = none →
      ∀ k, 0 < k → k ≤ width → g.findWidth k symbols = none
  | 0, _, k, hpos, hle => absurd hpos (Nat.not_lt.mpr hle)
  | width + 1, h, k, hpos, hle => by
      unfold findUpTo at h
      split at h
      · cases h
      · rename_i hnone
        rcases Nat.lt_or_eq_of_le hle with hk | rfl
        · exact findUpTo_eq_none h k hpos (Nat.le_of_lt_succ hk)
        · exact hnone

/-- **The window that is found is a frame, none is wider, and none as wide lies further left.** -/
theorem find_eq_some {g : Grammar} {symbols : List Symbol} {w : Window}
    (h : g.find symbols = some w) :
    (∃ before frame after, g.IsFrame symbols before frame after w.production
        ∧ before.length = w.position ∧ frame.length = w.width)
      ∧ ∀ before frame after p, g.IsFrame symbols before frame after p →
        frame.length ≤ w.width ∧ (frame.length = w.width → w.position ≤ before.length) := by
  obtain ⟨_, hfind, hwider⟩ := findUpTo_eq_some h
  refine ⟨findWidth_eq_some hfind, fun before frame after p hframe => ?_⟩
  obtain ⟨position, q, hfound, hle⟩ := findWidth_le hframe
  refine ⟨Nat.le_of_not_lt fun hlt => ?_, fun heq => ?_⟩
  · rw [hwider _ hlt (lookup_length hframe.lookup).2] at hfound
    cases hfound
  · rw [heq, hfind] at hfound
    cases hfound
    exact hle

/-- **Where nothing is found, no part of the row is a frame.** -/
theorem find_eq_none {g : Grammar} {symbols before frame after : List Symbol} {p : Production}
    (h : g.find symbols = none) : ¬ g.IsFrame symbols before frame after p := by
  intro hframe
  obtain ⟨position, q, hfound, _⟩ := findWidth_le hframe
  obtain ⟨hpos, hle⟩ := lookup_length hframe.lookup
  rw [findUpTo_eq_none h _ hpos hle] at hfound
  cases hfound

theorem find_eq_none_of_forall {g : Grammar} {symbols : List Symbol}
    (h : ∀ before frame after p, ¬ g.IsFrame symbols before frame after p) :
    g.find symbols = none := by
  cases hfind : g.find symbols with
  | none => rfl
  | some w =>
      obtain ⟨⟨before, frame, after, hframe, -⟩, -⟩ := find_eq_some hfind
      exact absurd hframe (h before frame after _)

/-- **The first of the widest frames is found.** -/
theorem find_of_first {g : Grammar} {symbols before frame after : List Symbol} {p : Production}
    (h : g.IsFrame symbols before frame after p)
    (hfirst : ∀ b f a q, g.IsFrame symbols b f a q →
      f.length ≤ frame.length ∧ (f.length = frame.length → before.length ≤ b.length)) :
    g.find symbols = some ⟨before.length, frame.length, p⟩ := by
  cases hfind : g.find symbols with
  | none => exact absurd h (find_eq_none hfind)
  | some w =>
      obtain ⟨⟨b, f, a, hframe, hposition, hwidth⟩, hfound⟩ := find_eq_some hfind
      obtain ⟨hnarrow, hright⟩ := hfirst b f a _ hframe
      obtain ⟨hwide, hleft⟩ := hfound before frame after p h
      have hlength : f.length = frame.length := by omega
      have hstart : b.length = before.length := by
        have hle := hright hlength
        have hge := hleft (by omega)
        omega
      -- two frames of one length at one place are the same
      have hrow : b ++ (f ++ a) = before ++ (frame ++ after) := by
        rw [← List.append_assoc, ← List.append_assoc, ← hframe.row, ← h.row]
      obtain ⟨rfl, hrest⟩ := List.append_inj hrow hstart
      obtain ⟨rfl, -⟩ := List.append_inj hrest hlength
      have hproduction := hframe.lookup
      rw [h.lookup] at hproduction
      rw [hposition, hwidth, Option.some.inj hproduction]

/-! ## 4. Parts of a row -/

section Parts

variable {g : Grammar} {left symbols right before frame after : List Symbol} {p : Production}

/-- A frame of a part is a frame of the row. -/
theorem IsFrame.append (h : g.IsFrame symbols before frame after p) (left right : List Symbol) :
    g.IsFrame (left ++ symbols ++ right) (left ++ before) frame (after ++ right) p :=
  ⟨by rw [h.row]; simp only [List.append_assoc], h.lookup⟩

/-- What is found in a row is found in the part that it lies in. -/
theorem find_of_append (h : g.IsFrame symbols before frame after p)
    (hfound : g.find (left ++ symbols ++ right)
      = some ⟨left.length + before.length, frame.length, p⟩) :
    g.find symbols = some ⟨before.length, frame.length, p⟩ := by
  refine find_of_first h fun b f a q hother => ?_
  obtain ⟨hwidth, hleft⟩ := (find_eq_some hfound).2 _ _ _ _ (hother.append left right)
  refine ⟨hwidth, fun heq => ?_⟩
  have hle := hleft heq
  rw [List.length_append] at hle
  exact Nat.le_of_add_le_add_left hle

/-- Where nothing is found in a row, nothing is found in a part of it. -/
theorem find_eq_none_of_append (h : g.find (left ++ symbols ++ right) = none) :
    g.find symbols = none :=
  find_eq_none_of_forall fun _ _ _ _ hframe => find_eq_none h (hframe.append left right)

end Parts

end Grammar

end Trivalent
