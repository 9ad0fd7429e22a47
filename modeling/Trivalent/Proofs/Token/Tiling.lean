import Trivalent.Proofs.Text.Order
import Trivalent.Proofs.Token.Piece
import Trivalent.Proofs.Work

/-!
# Leaves and the gaps between them

What a scan steps over leaves no trace but in the places of the leaves. These places say all there
is to say: where there is no leaf there is a gap, and a gap is nothing but blanks, new lines and
closed comments.

* `IsGap` -- a text that holds no token; `Piece.isGap` -- what the grammar does not see is such a
  text;
* `bytesIn` -- the bytes of a source in a span; `gapSpans` -- the spans before, between and behind
  the leaves;
* `exists_gaps` -- what lies in these spans, and that the leaves fill all the others;
* `tokenize_tiles` -- **the leaves of a source tile it**, each with its own text at its own place.
-/

namespace Trivalent

open Token

/-! ## 1. Gaps -/

/-- A text that holds no token: blanks, new lines and closed comments. -/
inductive IsGap : List Char → Prop
  | nil : IsGap []
  | space {c : Char} {rest : List Char} (char : c ∈ [' ', '\t', '\r', '\x0c', '\n'])
      (tail : IsGap rest) : IsGap (c :: rest)
  | comment {body rest : List Char} (closed : backTick ∉ body) (tail : IsGap rest) :
      IsGap (backTick :: (body ++ backTick :: rest))

theorem IsGap.append {cs ds : List Char} (h : IsGap cs) (h' : IsGap ds) : IsGap (cs ++ ds) := by
  induction h with
  | nil => exact h'
  | space char tail ih => exact .space char ih
  | comment closed tail ih =>
      rw [List.cons_append, List.append_assoc, List.cons_append]
      exact .comment closed ih

/-- Every word is for the grammar, unless it is malformed. -/
theorem Piece.entry_wordToken {w : List Char} (h : wordToken w ≠ .malformed) :
    (wordToken w).entry ≠ none := by
  unfold wordToken at h ⊢
  split at h
  · rename_i t hlookup
    have hmem := mem_of_lookup hlookup
    generalize String.ofList w = s at hmem
    simp only [reserved, List.mem_cons, Prod.mk.injEq, List.not_mem_nil, or_false] at hmem
    rcases hmem with ⟨-, rfl⟩ | ⟨-, rfl⟩ | ⟨-, rfl⟩ | ⟨-, rfl⟩ | ⟨-, rfl⟩ | ⟨-, rfl⟩ | ⟨-, rfl⟩
      | ⟨-, rfl⟩ | ⟨-, rfl⟩ <;> decide
  · split at h
    · rename_i hname
      rw [if_pos hname]
      decide
    · exact absurd rfl h

/-- **What is fine and the grammar does not see is a gap.** -/
theorem Piece.isGap {p : Piece} {rest : List Char} (hfits : p.Fits rest)
    (hfine : p.problem? = none) (hunseen : p.lexeme? = none) : IsGap p.text := by
  obtain ⟨t, htoken, hmalformed⟩ := exists_token hfine
  unfold lexeme? at hunseen
  rw [htoken, Option.bind_some, Option.map_eq_none_iff] at hunseen
  cases p with
  | word w =>
      cases htoken
      exact absurd hunseen (entry_wordToken hmalformed)
  | comment body => exact .comment hfits .nil
  | unclosed body => cases htoken
  | single c =>
      have hmem := mem_of_lookup htoken
      simp only [separators, List.mem_cons, Prod.mk.injEq, List.not_mem_nil, or_false] at hmem
      rcases hmem with ⟨rfl, rfl⟩ | ⟨rfl, rfl⟩ | ⟨rfl, rfl⟩ | ⟨rfl, rfl⟩ | ⟨rfl, rfl⟩ | ⟨rfl, rfl⟩
        | ⟨rfl, rfl⟩ | ⟨rfl, rfl⟩
      -- a delimiter is for the grammar, and the others are gaps
      iterate 3 cases hunseen
      all_goals exact .space (by decide) .nil

/-! ## 2. The bytes in a span -/

/-- The bytes of a source in a span. -/
def bytesIn (source : String) (span : Span) : List UInt8 :=
  ((bytes source).take span.stop).drop span.start

theorem bytesIn_of_split {source : String} {before text after : List Char}
    (h : source.toList = before ++ (text ++ after)) :
    bytesIn source ⟨byteLength before, byteLength before + byteLength text⟩
      = bytes (String.ofList text) := by
  have hsource : bytes source = before.flatMap String.utf8EncodeChar
      ++ text.flatMap String.utf8EncodeChar ++ after.flatMap String.utf8EncodeChar := by
    unfold bytes
    rw [← String.ofList_toList (s := source), bytes_ofList, h, List.flatMap_append,
      List.flatMap_append, List.append_assoc]
  have hstop : byteLength before + byteLength text
      = (before.flatMap String.utf8EncodeChar ++ text.flatMap String.utf8EncodeChar).length := by
    rw [List.length_append, length_bytes, length_bytes]
  unfold bytesIn
  dsimp only
  rw [hsource, hstop, List.take_left, ← length_bytes, List.drop_left]
  exact (bytes_ofList text).symm

/-- The spans before, between and behind the leaves of a source, from a given byte on. -/
def gapSpans (size : Nat) : Nat → List Node → List Span
  | start, [] => [⟨start, size⟩]
  | start, n :: leaves => ⟨start, n.span.start⟩ :: gapSpans size n.span.stop leaves

/-- Texts and, between them, other texts. -/
def alternate : List String → List String → String
  | gap :: gaps, literal :: literals => gap ++ literal ++ alternate gaps literals
  | gap :: _, [] => gap
  | [], _ => ""

/-- The leaves of a source tile it: none is empty, each one ends before the next one starts, each
one has the text of the source at its span and is on the line that its start is on; and in the spans
that are left there are gaps, so that gaps and literals in turn make up the source. -/
structure Tiles (source : String) (leaves : List Node) : Prop where
  nonempty : ∀ n ∈ leaves, n.span.start < n.span.stop
  ordered : leaves.Pairwise fun a b => a.span.stop ≤ b.span.start
  literal : ∀ n ∈ leaves,
    ∃ literal, n.literal? = some literal ∧ bytes literal = bytesIn source n.span
  line : ∀ n ∈ leaves, n.line = 1 + newlinesBefore source n.span.start
  gaps : ∃ gaps : List String, (∀ gap ∈ gaps, IsGap gap.toList)
    ∧ gaps.map bytes = (gapSpans source.utf8ByteSize 0 leaves).map (bytesIn source)
    ∧ alternate gaps (leaves.filterMap Node.literal?) = source

/-! ## 3. The leaves of a row of pieces -/

section Pieces

variable {source : String} {cs : List Char} {pieces : List Piece}

theorem Piece.leaf?_eq_some {p : Piece} {start line : Nat} {n : Node}
    (h : p.leaf? start line = some n) :
    n.literal? = some (String.ofList p.text) ∧ n.span = ⟨start, start + byteLength p.text⟩ := by
  unfold leaf? lexeme? at h
  simp only [Option.map_map, Option.map_eq_some_iff] at h
  obtain ⟨entry, -, rfl⟩ := h
  exact ⟨rfl, rfl⟩

/-- The literal of a leaf is what stands in its span. -/
theorem literal_eq_bytesIn (h : MadeOf cs pieces) {before : List Char}
    (hsplit : source.toList = before ++ cs) (line : Nat) :
    ∀ n ∈ Piece.leaves (byteLength before) line pieces,
      ∃ literal, n.literal? = some literal ∧ bytes literal = bytesIn source n.span := by
  induction h generalizing before line with
  | nil => exact fun n hn => absurd hn List.not_mem_nil
  | @cons p rest pieces fits tail ih =>
      intro n hn
      rcases List.mem_append.mp hn with hn | hn
      · obtain ⟨hliteral, hspan⟩ := Piece.leaf?_eq_some (Option.mem_toList.mp hn)
        exact ⟨_, hliteral, by rw [hspan, bytesIn_of_split hsplit]⟩
      · rw [← byteLength_append] at hn
        exact ih (by rw [List.append_assoc, hsplit]) _ n hn

/-- **Gaps and literals in turn make up what is made of fine pieces.** The induction is on the
pieces; `gap` is what has been stepped over since the last leaf. -/
theorem exists_gaps (h : MadeOf cs pieces) (hfine : ∀ p ∈ pieces, p.problem? = none)
    {before gap : List Char} (hsplit : source.toList = before ++ (gap ++ cs)) (hgap : IsGap gap)
    (line : Nat) :
    ∃ gaps : List String, (∀ g ∈ gaps, IsGap g.toList)
      ∧ gaps.map bytes = (gapSpans source.utf8ByteSize (byteLength before)
          (Piece.leaves (byteLength (before ++ gap)) line pieces)).map (bytesIn source)
      ∧ (alternate gaps ((Piece.leaves (byteLength (before ++ gap)) line pieces).filterMap
          Node.literal?)).toList = gap ++ cs := by
  induction h generalizing before gap line with
  | nil =>
      have hsize : source.utf8ByteSize = byteLength before + byteLength gap := by
        rw [← byteLength_append, ← String.ofList_toList (s := source), utf8ByteSize_eq, hsplit,
          List.append_nil]
      refine ⟨[String.ofList gap], ?_, ?_, ?_⟩
      · rw [List.forall_mem_singleton, String.toList_ofList]
        exact hgap
      · rw [hsize]
        exact congrArg (fun b => [b]) (bytesIn_of_split hsplit).symm
      · exact String.toList_ofList.trans (List.append_nil gap).symm
  | @cons p rest pieces fits tail ih =>
      rw [List.forall_mem_cons] at hfine
      unfold Piece.leaves
      rw [← byteLength_append]
      cases hleaf : p.leaf? (byteLength (before ++ gap)) line with
      | none =>
          -- the gap goes on
          have hunseen : p.lexeme? = none := Option.map_eq_none_iff.mp hleaf
          have hrest := @ih hfine.2 before (gap ++ p.text) (by rw [hsplit, List.append_assoc])
            (hgap.append (Piece.isGap fits hfine.1 hunseen)) (line + lineBreaks p.text)
          rw [List.append_assoc gap] at hrest
          rw [List.append_assoc before]
          exact hrest
      | some n =>
          obtain ⟨hliteral, hspan⟩ := Piece.leaf?_eq_some hleaf
          obtain ⟨gaps, hgaps, hbytes, htext⟩ := @ih hfine.2 (before ++ gap ++ p.text) []
            (by rw [hsplit]; simp only [List.append_assoc, List.nil_append]) .nil
            (line + lineBreaks p.text)
          rw [List.append_nil] at hbytes htext
          refine ⟨String.ofList gap :: gaps, ?_, ?_, ?_⟩
          · rw [List.forall_mem_cons, String.toList_ofList]
            exact ⟨hgap, hgaps⟩
          · have hfirst : bytesIn source ⟨byteLength before, n.span.start⟩
                = bytes (String.ofList gap) := by
              rw [hspan, byteLength_append]
              exact bytesIn_of_split hsplit
            have hstop : n.span.stop = byteLength (before ++ gap ++ p.text) := by
              rw [hspan, ← byteLength_append]
            rw [Option.toList_some, List.singleton_append, gapSpans, List.map_cons, List.map_cons,
              hfirst, hstop, hbytes]
          · rw [Option.toList_some, List.singleton_append, List.filterMap_cons_some hliteral,
              alternate, String.toList_append, String.toList_append, htext, String.toList_ofList,
              String.toList_ofList, List.nil_append, List.append_assoc]

end Pieces

/-! ## 4. Sources -/

/-- **The leaves of a source tile it.** -/
theorem tokenize_tiles {source : String} {leaves : List Node} (h : tokenize source = .ok leaves) :
    Tiles source leaves := by
  obtain ⟨pieces, hpieces⟩ := exists_madeOf source.toList
  have hplaces := tokenize_located source
  rw [h] at hplaces
  obtain ⟨hfine, hleaves⟩ := fine_of_tokenize hpieces h
  obtain ⟨gaps, hgaps, hbytes, htext⟩ := @exists_gaps source _ _ hpieces hfine [] [] rfl .nil 1
  refine ⟨fun n hn => (hplaces n hn).nonempty, tokenize_inOrder h, ?_,
    fun n hn => (hplaces n hn).line_eq, gaps, hgaps, ?_, ?_⟩
  · rw [hleaves]
    exact @literal_eq_bytesIn source _ _ hpieces [] rfl 1
  · rw [hleaves]
    exact hbytes
  · rw [hleaves]
    exact String.toList_inj.mp htext

/-- A comment of five bytes with a new line in it, and two leaves side by side on the second
line. -/
theorem tokenize_tiles_comment :
    ∃ leaves, tokenize "\x60é\n\x60 x;" = .ok leaves ∧ Tiles "\x60é\n\x60 x;" leaves
      ∧ leaves.map (fun n => (n.span, n.line)) = [(⟨6, 7⟩, 2), (⟨7, 8⟩, 2)] := by
  have hcomputed : (tokenize "\x60é\n\x60 x;").toOption.map
      (fun leaves => leaves.map fun n => (n.span, n.line))
      = some [(⟨6, 7⟩, 2), (⟨7, 8⟩, 2)] := by
    decide +kernel
  obtain ⟨leaves, htokens, hplaces⟩ := Option.map_eq_some_iff.mp hcomputed
  have htokens := Work.eq_ok_of_toOption htokens
  exact ⟨leaves, htokens, tokenize_tiles htokens, hplaces⟩

end Trivalent
