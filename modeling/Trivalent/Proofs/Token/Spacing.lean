import Trivalent.Proofs.Token.Piece

/-!
# Scanning what is put together

A source below another one is scanned as if it stood alone, also where it cannot be scanned. And
the leaves of a source hold all that the scan needs: with one blank between any two of them they are
scanned as they were, because a word that ends before something else ends before a blank as well.

* `Diagnostic.moved` -- a report some bytes and lines further on; `Token.scan_moved_error` -- so
  fails a scan further on;
* `Piece.Fits.before` -- a fine piece may stand before anything that does not make it longer;
* `madeOf_spaced` -- pieces with blanks between them are the pieces of their text;
* `tokenize_composes` -- **sources one below the other, and the leaves of one with other space
  between them**.
-/

namespace Trivalent

open Token

/-! ## 1. Failing further on -/

/-- A report some bytes and lines further on. -/
def Diagnostic.moved (bytes lines : Nat) (d : Diagnostic) : Diagnostic :=
  { d with span := d.span.map (Span.moved bytes), line := d.line + lines }

/-- **A scan fails further on as it does at the start.** -/
theorem Token.scan_moved_error (bytes lines start line : Nat) {cs : List Char} {d : Diagnostic}
    (h : scan start line cs = .error d) :
    scan (start + bytes) (line + lines) cs = .error (d.moved bytes lines) := by
  obtain ⟨pieces, hpieces⟩ := exists_madeOf cs
  rcases Piece.fine_or_offending pieces with hfine | ⟨before, p, after, problem, rfl, hbefore, hp⟩
  · rw [scan_leaves hpieces hfine] at h
    cases h
  · -- what ends the scan does not depend on where the scan starts
    rw [scan_offending hp hbefore hpieces] at h ⊢
    cases h
    simp only [Diagnostic.moved, Span.moved, Option.map_some, Nat.add_right_comm]

/-! ## 2. Blanks between pieces -/

namespace Piece

/-- A fine piece may stand before anything that does not go on with a word. -/
theorem Fits.before {p : Piece} {rest rest' : List Char} (h : p.Fits rest)
    (hfine : p.problem? = none) (hstop : ∀ c ∈ rest'.head?, isWordChar c = false) :
    p.Fits rest' := by
  cases p with
  | word w => exact ⟨h.1, h.2.1, hstop⟩
  | comment body => exact h
  | unclosed body => cases hfine
  | single c => exact h

/-- A piece that fits somewhere and with which nothing is wrong. -/
def Fine (p : Piece) : Prop := p.problem? = none ∧ ∃ rest, p.Fits rest

/-- The pieces that the grammar sees. -/
def visible (pieces : List Piece) : List Piece := pieces.filter fun p => p.lexeme?.isSome

theorem lexemes_visible (pieces : List Piece) :
    (visible pieces).filterMap lexeme? = pieces.filterMap lexeme? := by
  unfold visible
  induction pieces with
  | nil => rfl
  | cons p pieces ih =>
      cases hlexeme : p.lexeme? with
      | none =>
          rw [List.filter_cons_of_neg (by simp [hlexeme]), List.filterMap_cons_none hlexeme, ih]
      | some l =>
          rw [List.filter_cons_of_pos (by simp [hlexeme]), List.filterMap_cons_some hlexeme,
            List.filterMap_cons_some hlexeme, ih]

/-- The literals of the pieces that the grammar sees are their texts. -/
theorem literals_visible (pieces : List Piece) :
    ((visible pieces).filterMap lexeme?).map (·.literal.toList) = (visible pieces).map text := by
  have hseen : ∀ p ∈ visible pieces, ∃ l, p.lexeme? = some l := fun p hp =>
    Option.isSome_iff_exists.mp (List.mem_filter.mp hp).2
  generalize visible pieces = seen at hseen
  induction seen with
  | nil => rfl
  | cons p seen ih =>
      rw [List.forall_mem_cons] at hseen
      obtain ⟨⟨l, hlexeme⟩, hseen⟩ := hseen
      have htext : l.literal.toList = p.text := by
        obtain ⟨entry, -, rfl⟩ := Option.map_eq_some_iff.mp hlexeme
        exact String.toList_ofList
      rw [List.filterMap_cons_some hlexeme, List.map_cons, List.map_cons, ih hseen, htext]

/-- A blank is no lexeme, so blanks between pieces change none. -/
theorem lexemes_spaced (pieces : List Piece) :
    (pieces.intersperse (single ' ')).filterMap lexeme? = pieces.filterMap lexeme? := by
  have hblank : (single ' ').lexeme? = none := rfl
  induction pieces with
  | nil => rfl
  | cons p pieces ih =>
      cases pieces with
      | nil => rfl
      | cons q pieces =>
          rw [List.intersperse_cons_cons, List.filterMap_cons, List.filterMap_cons_none hblank, ih,
            List.filterMap_cons (l := q :: pieces)]

theorem problem?_spaced {pieces : List Piece} (h : ∀ p ∈ pieces, p.problem? = none) :
    ∀ p ∈ pieces.intersperse (single ' '), p.problem? = none := by
  induction pieces with
  | nil => exact h
  | cons p pieces ih =>
      cases pieces with
      | nil => exact h
      | cons q pieces =>
          rw [List.forall_mem_cons] at h
          rw [List.intersperse_cons_cons, List.forall_mem_cons, List.forall_mem_cons]
          exact ⟨h.1, rfl, ih h.2⟩

end Piece

theorem MadeOf.fits {cs : List Char} {pieces : List Piece} (h : MadeOf cs pieces) :
    ∀ p ∈ pieces, ∃ rest, p.Fits rest := by
  induction h with
  | nil => exact fun p hp => absurd hp List.not_mem_nil
  | cons fits tail ih => exact List.forall_mem_cons.mpr ⟨⟨_, fits⟩, ih⟩

/-- **Fine pieces with blanks between them are the pieces of their text.** -/
theorem madeOf_spaced {pieces : List Piece} (h : ∀ p ∈ pieces, p.Fine) :
    MadeOf ([' '].intercalate (pieces.map Piece.text)) (pieces.intersperse (.single ' ')) := by
  induction pieces with
  | nil => exact .nil
  | cons p pieces ih =>
      rw [List.forall_mem_cons] at h
      obtain ⟨⟨hfine, rest, hfits⟩, htail⟩ := h
      cases pieces with
      | nil =>
          have hlast : MadeOf (p.text ++ []) [p] :=
            .cons (hfits.before hfine fun c hc => by cases hc) .nil
          rw [List.append_nil] at hlast
          simpa using hlast
      | cons q pieces =>
          rw [List.map_cons, List.map_cons, List.intercalate_cons_cons, List.append_assoc,
            List.intersperse_cons_cons]
          refine .cons (hfits.before hfine fun c hc => ?_) (.cons (p := .single ' ') ?_ (ih htail))
          · cases hc
            decide
          · exact ⟨by decide, by decide⟩

/-! ## 3. Sources -/

theorem Spells.literals {leaves : List Node} {lexemes : List Lexeme} (h : Spells leaves lexemes) :
    leaves.filterMap Node.literal? = lexemes.map Lexeme.literal := by
  have hliteral : Node.literal? = fun n => n.lexeme?.map Lexeme.literal := by
    funext n
    unfold Node.lexeme?
    cases n.literal? <;> rfl
  calc leaves.filterMap Node.literal?
      = (leaves.map Node.lexeme?).filterMap (·.map Lexeme.literal) := by
        rw [hliteral, List.filterMap_map]
        rfl
    _ = lexemes.map Lexeme.literal := by
        rw [h, List.filterMap_map]
        exact congrFun List.filterMap_eq_map lexemes

/-- The leaves of a source with one blank between any two of them are the same leaves elsewhere. -/
theorem tokenize_spaced {source : String} {leaves : List Node} (h : tokenize source = .ok leaves) :
    ∃ leaves' lexemes, tokenize (" ".intercalate (leaves.filterMap Node.literal?)) = .ok leaves'
      ∧ Spells leaves lexemes ∧ Spells leaves' lexemes := by
  obtain ⟨pieces, hpieces⟩ := exists_madeOf source.toList
  obtain ⟨hfine, rfl⟩ := fine_of_tokenize hpieces h
  have hspells := Piece.spells_leaves 0 1 pieces
  have hvisible : ∀ p ∈ Piece.visible pieces, p.Fine := fun p hp =>
    have hmem := (List.mem_filter.mp hp).1
    ⟨hfine p hmem, hpieces.fits p hmem⟩
  have htext : (" ".intercalate ((Piece.leaves 0 1 pieces).filterMap Node.literal?)).toList
      = [' '].intercalate ((Piece.visible pieces).map Piece.text) := by
    rw [String.toList_intercalate, hspells.literals, List.map_map, ← Piece.lexemes_visible,
      ← Piece.literals_visible]
    rfl
  have hscan := tokenize_fine (htext ▸ madeOf_spaced hvisible)
    (Piece.problem?_spaced fun p hp => (hvisible p hp).1)
  refine ⟨_, _, hscan, hspells, ?_⟩
  have hspelled := Piece.spells_leaves 0 1 ((Piece.visible pieces).intersperse (.single ' '))
  rw [Piece.lexemes_spaced, Piece.lexemes_visible] at hspelled
  exact hspelled

/-- **Scanning is compositional and does not depend on space.** Behind a source that can be scanned
and a new line, any other source is scanned as it is alone, further on, whether it can be scanned or
not. And the literals of the leaves, joined by blanks, are scanned to the same lexemes. -/
theorem tokenize_composes {source : String} {leaves : List Node}
    (h : tokenize source = .ok leaves) :
    (∀ source', tokenize (source ++ "\n" ++ source')
      = match tokenize source' with
        | .ok leaves' => .ok (leaves ++ leaves'.map
          (Node.moved (byteLength source.toList + 1) (lineBreaks source.toList + 1)))
        | .error d =>
          .error (d.moved (byteLength source.toList + 1) (lineBreaks source.toList + 1)))
    ∧ ∃ leaves' lexemes, tokenize (" ".intercalate (leaves.filterMap Node.literal?)) = .ok leaves'
      ∧ Spells leaves lexemes ∧ Spells leaves' lexemes := by
  refine ⟨fun source' => ?_, tokenize_spaced h⟩
  cases hrest : tokenize source' with
  | ok leaves' => exact tokenize_append h hrest
  | error d =>
      unfold tokenize at h hrest ⊢
      rw [toList_below, scan_append 0 1 source.toList h, Nat.add_assoc, Nat.add_assoc,
        scan_moved_error _ _ 0 1 hrest]
      rfl

/-- The brackets stand side by side, and the comment ends a line; below that, the report about `9x`
is seven bytes and two lines further on. -/
theorem tokenize_composes_open :
    ∃ leaves leaves' lexemes, tokenize "(x)\x60\n\x60" = .ok leaves
      ∧ leaves.filterMap Node.literal? = ["(", "x", ")"]
      ∧ tokenize "(x)\x60\n\x60\n9x" = .error ⟨.invalidLiteral "9x", some ⟨7, 9⟩, 3⟩
      ∧ tokenize "( x )" = .ok leaves' ∧ Spells leaves lexemes ∧ Spells leaves' lexemes := by
  have hfails : tokenize "9x" = .error ⟨.invalidLiteral "9x", some ⟨0, 2⟩, 1⟩ := by
    have hpieces : MadeOf "9x".toList [.word ['9', 'x']] :=
      .cons (p := .word ['9', 'x']) (Piece.fits_word rfl (by decide) rfl) .nil
    exact @tokenize_offending "9x" [] [] (.word ['9', 'x']) _ hpieces (by decide) rfl
  have hcomputed : (match tokenize "(x)\x60\n\x60" with
      | .ok leaves => some (leaves.filterMap Node.literal?)
      | .error _ => none) = some ["(", "x", ")"] := by
    decide +kernel
  cases h : tokenize "(x)\x60\n\x60" with
  | error d =>
      rw [h] at hcomputed
      cases hcomputed
  | ok leaves =>
      rw [h] at hcomputed
      have hliterals := Option.some.inj hcomputed
      obtain ⟨hbelow, leaves', lexemes, hspaced, hspells, hspells'⟩ := tokenize_composes h
      have hbelow := hbelow "9x"
      rw [hfails] at hbelow
      rw [hliterals] at hspaced
      exact ⟨leaves, leaves', lexemes, rfl, hliterals, hbelow, hspaced, hspells, hspells'⟩

end Trivalent
