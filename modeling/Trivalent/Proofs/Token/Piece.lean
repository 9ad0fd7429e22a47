import Mathlib.Data.List.TakeWhile
import Trivalent.Proofs.Token.Concatenation

/-!
# What a text is made of

Scanning asks at every place which kind of token can take the most characters there. Here a text is
described without that question: it is made of words, each as long as word characters go on, of
comments, and of single characters. Which piece is a token, and which one is none, can be seen from
the piece alone, and the scanner agrees.

* `Piece` -- a word, a comment, a back-tick that is never closed, or any other character;
  `Piece.Fits` -- a piece that ends where it has to, before a given text;
* `MadeOf` -- a text is the row of its pieces; `exists_madeOf` -- every text is one;
* `Piece.token?` -- the kind of token that a piece is; `Piece.lexeme?`, `Piece.problem?` -- what it
  is for the grammar, and what is wrong with it;
* `Token.longest_piece` -- **the longest match at the start of a text is its first piece**;
  `Token.scan_fine`, `Token.scan_problem` -- so a scan goes on piece by piece, and ends at a piece
  with which something is wrong;
* `tokenize_pieces` -- **a source is scanned if nothing is wrong with any of its pieces, and its
  leaves are those of the pieces**; otherwise the first piece with which something is wrong is
  reported.
-/

namespace Trivalent

open Token

/-! ## 1. Pieces -/

/-- A piece of a text. -/
inductive Piece where
  /-- Word characters. -/
  | word (w : List Char)
  /-- Text between two back-ticks. -/
  | comment (body : List Char)
  /-- A back-tick that no second one closes, and the text behind it. -/
  | unclosed (body : List Char)
  /-- Any other character. -/
  | single (c : Char)
  deriving DecidableEq, Repr

namespace Piece

/-- The characters of a piece. -/
def text : Piece → List Char
  | word w => w
  | comment body => backTick :: (body ++ [backTick])
  | unclosed body => backTick :: body
  | single c => [c]

/-- The piece may stand before `rest`: a word is not empty and goes on as long as there are word
characters, a comment ends at the first back-tick, and a back-tick is left unclosed only if there is
no other one up to the end of the text. -/
def Fits : Piece → List Char → Prop
  | word w, rest =>
    w ≠ [] ∧ (∀ c ∈ w, isWordChar c = true) ∧ ∀ c ∈ rest.head?, isWordChar c = false
  | comment body, _ => backTick ∉ body
  | unclosed body, rest => backTick ∉ body ∧ rest = []
  | single c, _ => isWordChar c = false ∧ c ≠ backTick

/-- The words with a token of their own. -/
def reserved : List (String × Token) :=
  [("def", .defWord), ("as", .asWord), ("val", .valWord), ("T", .trueWord), ("U", .unsureWord),
    ("F", .falseWord), ("and", .andWord), ("or", .orWord), ("not", .notWord)]

/-- A lowercase letter, and then letters and digits. -/
def isName : List Char → Bool
  | [] => false
  | c :: cs => c.isLower && cs.all Char.isAlphanum

/-- The token that a word is. -/
def wordToken (w : List Char) : Token :=
  match reserved.lookup (String.ofList w) with
  | some t => t
  | none => if isName w then .identifier else .malformed

/-- The characters that are tokens by themselves, or blanks. -/
def separators : List (Char × Token) :=
  [('(', .openParen), (')', .closeParen), (';', .semicolon), ('\n', .newline), (' ', .blank),
    ('\t', .blank), ('\r', .blank), ('\x0c', .blank)]

/-- The kind of token that a piece is, if it is any. -/
def token? : Piece → Option Token
  | word w => some (wordToken w)
  | comment _ => some .comment
  | unclosed _ => none
  | single c => separators.lookup c

/-- What a piece is for the grammar, if it is anything. -/
def lexeme? (p : Piece) : Option Lexeme :=
  (p.token?.bind Token.entry).map fun (symbol, action) => ⟨symbol, action, String.ofList p.text⟩

/-- What is wrong with a piece, if anything is: it is no token, or it is a malformed word. A word
that starts with a lowercase letter passes for an attempt at an identifier. -/
def problem? (p : Piece) : Option Problem :=
  match p.token? with
  | none => some (.invalidLiteral (String.ofList p.text))
  | some .malformed =>
    if p.text.head?.any Char.isLower then some (.invalidIdentifier (String.ofList p.text))
    else some (.invalidLiteral (String.ofList p.text))
  | some _ => none

/-- What is found in a table is in it. -/
theorem mem_of_lookup {α β : Type} [BEq α] [LawfulBEq α] {table : List (α × β)} {a : α} {b : β}
    (h : table.lookup a = some b) : (a, b) ∈ table := by
  obtain ⟨before, after, rfl, -⟩ := List.lookup_eq_some_iff.mp h
  exact List.mem_append_right _ List.mem_cons_self

/-- A row of word characters is a word where no other one follows. -/
theorem fits_word {w rest : List Char} (h : w.all isWordChar = true) (hne : w ≠ [])
    (hstop : rest.head?.any isWordChar = false) : (Piece.word w).Fits rest := by
  refine ⟨hne, List.all_eq_true.mp h, fun c hc => ?_⟩
  rw [hc] at hstop
  exact hstop

end Piece

/-- A text is the row of its pieces. -/
inductive MadeOf : List Char → List Piece → Prop
  | nil : MadeOf [] []
  | cons {p : Piece} {rest : List Char} {pieces : List Piece} (fits : p.Fits rest)
      (tail : MadeOf rest pieces) : MadeOf (p.text ++ rest) (p :: pieces)

/-- A text that is not empty has a first piece. -/
theorem exists_piece (c : Char) (cs : List Char) :
    ∃ (p : Piece) (rest : List Char), c :: cs = p.text ++ rest ∧ p.Fits rest ∧ p.text ≠ [] := by
  by_cases hword : isWordChar c = true
  · have hne : (c :: cs).takeWhile isWordChar ≠ [] := by simp [hword]
    refine ⟨.word ((c :: cs).takeWhile isWordChar), (c :: cs).dropWhile isWordChar,
      List.takeWhile_append_dropWhile.symm, Piece.fits_word List.all_takeWhile hne ?_, hne⟩
    have hstop := List.head?_dropWhile_not isWordChar (c :: cs)
    cases hhead : ((c :: cs).dropWhile isWordChar).head? with
    | none => rfl
    | some d =>
        rw [hhead] at hstop
        simpa using hstop
  · rw [Bool.not_eq_true] at hword
    by_cases htick : c = backTick
    · subst htick
      by_cases hclosed : backTick ∈ cs
      · obtain ⟨body, rest, rfl, hbody⟩ := List.eq_append_cons_of_mem hclosed
        exact ⟨.comment body, rest, by simp [Piece.text], hbody, by simp [Piece.text]⟩
      · exact ⟨.unclosed cs, [], (List.append_nil _).symm, ⟨hclosed, rfl⟩, by simp [Piece.text]⟩
    · exact ⟨.single c, cs, rfl, ⟨hword, htick⟩, by simp [Piece.text]⟩

/-- **Every text is made of pieces.** -/
theorem exists_madeOf (cs : List Char) : ∃ pieces, MadeOf cs pieces := by
  induction hlen : cs.length using Nat.strongRecOn generalizing cs with
  | ind n ih =>
      subst hlen
      cases cs with
      | nil => exact ⟨[], .nil⟩
      | cons c cs =>
          obtain ⟨p, rest, hsplit, hfits, hne⟩ := exists_piece c cs
          have hshorter : rest.length < (c :: cs).length := by
            rw [hsplit, List.length_append]
            exact Nat.lt_add_of_pos_left (List.length_pos_iff.mpr hne)
          obtain ⟨pieces, htail⟩ := ih _ hshorter rest rfl
          exact ⟨p :: pieces, hsplit ▸ .cons hfits htail⟩

/-! ## 2. The longest match is the first piece -/

namespace Token

/-- The longest match belongs to the first kind of token that takes as much as any does. -/
theorem longestOf_eq_find? {ts : List Token} {cs : List Char} {t : Token} {size : Nat}
    (hpos : 0 < size) (hmost : ∀ u : Token, u.munch cs ≤ size)
    (hfirst : ts.find? (fun u => u.munch cs == size) = some t) :
    longestOf ts cs = some (t, size) := by
  induction ts with
  | nil => cases hfirst
  | cons u ts ih =>
      rw [List.find?_cons] at hfirst
      simp only [longestOf]
      split at hfirst
      · rename_i hu
        cases hfirst
        rw [eq_of_beq hu]
        cases hrest : longestOf ts cs with
        | none => exact if_pos hpos
        | some best =>
            obtain ⟨v, most⟩ := best
            exact if_pos (longestOf_eq_munch hrest ▸ hmost v)
      · rename_i hu
        rw [ih hfirst]
        have hlt : u.munch cs < size := Nat.lt_of_le_of_ne (hmost u) (by simpa using hu)
        exact if_neg (Nat.not_le.mpr hlt)

theorem longestOf_eq_none {ts : List Token} {cs : List Char} (h : ∀ u : Token, u.munch cs = 0) :
    longestOf ts cs = none := by
  induction ts with
  | nil => rfl
  | cons u ts ih =>
      simp only [longestOf, ih, h u]
      rfl

/-- Where only one kind of token takes anything, it is the longest match. -/
theorem longest_of_only {cs : List Char} {t : Token} {size : Nat} (hpos : 0 < size)
    (h : ∀ u : Token, u.munch cs = if u = t then size else 0) : longest cs = some (t, size) := by
  have hsame : (fun u : Token => u.munch cs == size) = (· == t) := by
    funext u
    rw [h u]
    by_cases hu : u = t
    · rw [if_pos hu, hu, beq_self_eq_true, beq_self_eq_true]
    · rw [if_neg hu, beq_eq_false_iff_ne.mpr hu, beq_eq_false_iff_ne.mpr (Nat.ne_of_lt hpos)]
  refine longestOf_eq_find? hpos (fun u => ?_) ?_
  · rw [h u]
    split
    · exact Nat.le_refl _
    · exact Nat.zero_le _
  · rw [hsame]
    cases t <;> rfl

theorem isWordChar_of_isBlank {c : Char} (h : isBlank c = true) : isWordChar c = false := by
  unfold isBlank at h
  simp only [Bool.or_eq_true, beq_iff_eq] at h
  rcases h with ((rfl | rfl) | rfl) | rfl <;> decide

/-- A spelling is not taken where another character stands than its first one. -/
theorem munchSpelling_of_ne {s : String} {a c : Char} {as : List Char} (hs : s.toList = a :: as)
    (hne : a ≠ c) (cs : List Char) : munchSpelling s (c :: cs) = 0 := by
  unfold munchSpelling
  rw [hs, List.isPrefixOf_cons_cons]
  simp [hne]

/-- Only words start with a word character. -/
theorem munch_of_isWordChar {c : Char} (h : isWordChar c = true) (cs : List Char) :
    ∀ t ∈ [openParen, closeParen, semicolon, comment, newline, blank], t.munch (c :: cs) = 0 := by
  have hne : ∀ a : Char, isWordChar a = false → a ≠ c := by
    rintro a ha rfl
    rw [ha] at h
    cases h
  intro t ht
  simp only [List.mem_cons, List.not_mem_nil, or_false] at ht
  rcases ht with rfl | rfl | rfl | rfl | rfl | rfl
  · exact munchSpelling_of_ne (s := "(") rfl (hne _ (by decide)) cs
  · exact munchSpelling_of_ne (s := ")") rfl (hne _ (by decide)) cs
  · exact munchSpelling_of_ne (s := ";") rfl (hne _ (by decide)) cs
  · show munchComment (c :: cs) = 0
    unfold munchComment
    simp [(hne backTick (by decide)).symm]
  · exact munchSpelling_of_ne (s := "\n") rfl (hne _ (by decide)) cs
  · show ((c :: cs).takeWhile isBlank).length = 0
    rw [List.takeWhile_cons_of_neg, List.length_nil]
    intro hblank
    rw [isWordChar_of_isBlank hblank] at h
    cases h

section Word

variable {w rest : List Char}

/-- What any kind of token takes where a word starts, it takes of the word. -/
theorem munch_word (h : (Piece.word w).Fits rest) (t : Token) :
    t.munch (w ++ rest) = t.munch w := by
  obtain ⟨hne, hinside, hstop⟩ := h
  cases rest with
  | nil => rw [List.append_nil]
  | cons d rest =>
      have hd : isWordChar d = false := hstop d rfl
      have halnum : d.isAlphanum = false := by
        unfold isWordChar at hd
        exact (Bool.or_eq_false_iff.mp hd).1
      have hspelled : ∀ s : String, s.toList.all isWordChar = true →
          munchSpelling s (w ++ d :: rest) = munchSpelling s w := by
        intro s hs
        unfold munchSpelling
        rw [isPrefixOf_append]
        intro hmem
        rw [List.all_eq_true.mp hs d hmem] at hd
        cases hd
      cases w with
      | nil => exact absurd rfl hne
      | cons c cs =>
          have hnone := munch_of_isWordChar (hinside c List.mem_cons_self)
          cases t with
          | identifier =>
              show munchIdentifier (c :: (cs ++ d :: rest)) = munchIdentifier (c :: cs)
              unfold munchIdentifier
              dsimp only
              rw [takeWhile_append_of_neg halnum]
          | malformed =>
              show ((c :: cs ++ d :: rest).takeWhile isWordChar).length = _
              rw [takeWhile_append_of_neg hd]
              rfl
          | openParen | closeParen | semicolon | comment | newline | blank =>
              rw [List.cons_append, hnone _ _ (by decide), hnone _ _ (by decide)]
          | _ => exact hspelled _ (by decide)

/-- A spelling takes a whole word only if the word is spelled so. -/
theorem munchSpelling_beq (hne : w ≠ []) (s : String) :
    (munchSpelling s w == w.length) = (String.ofList w == s) := by
  have hpos := List.length_pos_iff.mpr hne
  rw [Bool.eq_iff_iff, beq_iff_eq, beq_iff_eq]
  unfold munchSpelling
  constructor
  · intro h
    split at h
    · rename_i hprefix
      rw [← String.length_toList] at h
      rw [← (List.isPrefixOf_iff_prefix.mp hprefix).eq_of_length h, String.ofList_toList]
    · omega
  · rintro rfl
    rw [String.toList_ofList, if_pos (by simp), String.length_ofList]

/-- An identifier takes a whole word only if the word is a name. -/
theorem munchIdentifier_beq (hne : w ≠ []) :
    (munchIdentifier w == w.length) = Piece.isName w := by
  cases w with
  | nil => exact absurd rfl hne
  | cons c cs =>
      rw [Bool.eq_iff_iff, beq_iff_eq]
      unfold munchIdentifier Piece.isName
      dsimp only
      rw [Bool.and_eq_true, List.all_eq_true, ← List.takeWhile_eq_self_iff, List.length_cons]
      have hprefix := List.takeWhile_prefix (l := cs) Char.isAlphanum
      split
      · rename_i hlower
        refine ⟨fun h => ⟨hlower, hprefix.eq_of_length (by omega)⟩, fun h => ?_⟩
        rw [h.2, Nat.add_comm]
      · rename_i hlower
        exact ⟨fun h => by omega, fun h => absurd h.1 hlower⟩

/-- A reserved word is taken as a whole by its own token first. -/
theorem find?_of_reserved {t : Token}
    (h : Piece.reserved.lookup (String.ofList w) = some t) :
    all.find? (fun u => u.munch w == w.length) = some t := by
  have hmem := Piece.mem_of_lookup h
  have hw : w = (String.ofList w).toList := String.toList_ofList.symm
  generalize String.ofList w = s at hmem hw
  subst hw
  simp only [Piece.reserved, List.mem_cons, Prod.mk.injEq, List.not_mem_nil, or_false] at hmem
  rcases hmem with ⟨rfl, rfl⟩ | ⟨rfl, rfl⟩ | ⟨rfl, rfl⟩ | ⟨rfl, rfl⟩ | ⟨rfl, rfl⟩ | ⟨rfl, rfl⟩
    | ⟨rfl, rfl⟩ | ⟨rfl, rfl⟩ | ⟨rfl, rfl⟩ <;> rfl

/-- No token with a spelling of its own takes the whole of a word that is not reserved. -/
theorem find?_spelled_eq_none (hne : w ≠ []) (hinside : ∀ c ∈ w, isWordChar c = true)
    (h : Piece.reserved.lookup (String.ofList w) = none) :
    (all.take 12).find? (fun t => t.munch w == w.length) = none := by
  have hreserved : ∀ s : String, (Piece.reserved.lookup s).isSome →
      ¬ (munchSpelling s w == w.length) = true := by
    intro s hs hmunch
    rw [munchSpelling_beq hne, beq_iff_eq] at hmunch
    rw [← hmunch, h] at hs
    cases hs
  have hpunctuation : ∀ t ∈ [openParen, closeParen, semicolon, comment, newline, blank],
      ¬ (t.munch w == w.length) = true := by
    intro t ht hmunch
    cases w with
    | nil => exact hne rfl
    | cons c cs =>
        rw [munch_of_isWordChar (hinside c List.mem_cons_self) cs t ht] at hmunch
        cases hmunch
  refine List.find?_eq_none.mpr fun t ht => ?_
  cases t with
  | openParen | closeParen | semicolon => exact hpunctuation _ (by decide)
  | identifier | malformed | comment | newline | blank => exact absurd ht (by decide)
  | _ => exact hreserved _ (by decide)

/-- **The first kind of token that takes a whole word is the token that the word is.** -/
theorem find?_wordToken (h : (Piece.word w).Fits rest) :
    all.find? (fun t => t.munch (w ++ rest) == w.length) = some (Piece.wordToken w) := by
  simp only [munch_word h]
  obtain ⟨hne, hinside, -⟩ := h
  unfold Piece.wordToken
  cases hlookup : Piece.reserved.lookup (String.ofList w) with
  | some t => exact find?_of_reserved hlookup
  | none =>
      have hall : all = all.take 12 ++ all.drop 12 := (List.take_append_drop 12 all).symm
      rw [hall, List.find?_append, find?_spelled_eq_none hne hinside hlookup, Option.none_or]
      show List.find? _ [identifier, malformed, comment, newline, blank] = _
      rw [List.find?_cons, List.find?_cons]
      rw [show (identifier.munch w == w.length) = Piece.isName w from munchIdentifier_beq hne]
      cases Piece.isName w with
      | true => rfl
      | false =>
          have hmalformed : (malformed.munch w == w.length) = true := by
            rw [beq_iff_eq]
            exact congrArg List.length (List.takeWhile_eq_self_iff.mpr hinside)
          rw [hmalformed]
          rfl

end Word

/-- Where neither a word nor a comment starts, and nothing that separates, no token starts. -/
theorem munch_of_stray {c : Char} (hword : isWordChar c = false) (htick : c ≠ backTick)
    (hnone : Piece.separators.lookup c = none) (cs : List Char) (t : Token) :
    t.munch (c :: cs) = 0 := by
  have hne : ∀ a : Char, isWordChar a = true ∨ (Piece.separators.lookup a).isSome → a ≠ c := by
    rintro a ha rfl
    rw [hword, hnone] at ha
    simp at ha
  cases t with
  | identifier =>
      show munchIdentifier (c :: cs) = 0
      unfold munchIdentifier
      refine if_neg fun hlower => ?_
      have halpha : c.isAlpha = true := Bool.or_eq_true_iff.mpr (.inr hlower)
      simp [isWordChar, Char.isAlphanum, halpha] at hword
  | malformed =>
      show ((c :: cs).takeWhile isWordChar).length = 0
      rw [List.takeWhile_cons_of_neg (by simp [hword]), List.length_nil]
  | comment =>
      show munchComment (c :: cs) = 0
      unfold munchComment
      simp [htick]
  | blank =>
      show ((c :: cs).takeWhile isBlank).length = 0
      rw [List.takeWhile_cons_of_neg, List.length_nil]
      intro hblank
      unfold isBlank at hblank
      simp only [Bool.or_eq_true, beq_iff_eq] at hblank
      rcases hblank with ((rfl | rfl) | rfl) | rfl <;> cases hnone
  | _ => exact munchSpelling_of_ne rfl (hne _ (by decide)) cs

/-- A comment is the longest match where it starts. -/
theorem longest_comment {body : List Char} (h : backTick ∉ body) (rest : List Char) :
    longest (backTick :: (body ++ backTick :: rest)) = some (.comment, body.length + 2) := by
  have hopen : ∀ c ∈ body, (c != backTick) = true := by
    intro c hc
    rw [bne_iff_ne]
    rintro rfl
    exact h hc
  refine longest_of_only (Nat.succ_pos _) fun u => ?_
  cases u with
  | comment =>
      show munchComment (backTick :: (body ++ backTick :: rest)) = body.length + 2
      rw [munchComment_closed, List.takeWhile_eq_self_iff.mpr hopen]
  | _ => rfl

/-- So is a delimiter or a new line. -/
theorem longest_separator {c : Char} {t : Token} (h : Piece.separators.lookup c = some t)
    (hne : t ≠ .blank) (rest : List Char) : longest (c :: rest) = some (t, 1) := by
  have hmem := Piece.mem_of_lookup h
  refine longest_of_only Nat.one_pos fun u => ?_
  simp only [Piece.separators, List.mem_cons, Prod.mk.injEq, List.not_mem_nil, or_false] at hmem
  rcases hmem with ⟨rfl, rfl⟩ | ⟨rfl, rfl⟩ | ⟨rfl, rfl⟩ | ⟨rfl, rfl⟩ | ⟨rfl, rfl⟩ | ⟨rfl, rfl⟩
    | ⟨rfl, rfl⟩ | ⟨rfl, rfl⟩
  · cases u <;> rfl
  · cases u <;> rfl
  · cases u <;> rfl
  · cases u <;> rfl
  all_goals exact absurd rfl hne

/-- **The longest match at the start of a text is its first piece**, unless that is a blank: blanks
that stand side by side are one token. -/
theorem longest_piece {p : Piece} {rest : List Char} (h : p.Fits rest)
    (hblank : p.token? ≠ some .blank) :
    longest (p.text ++ rest) = p.token?.map (·, p.text.length) := by
  cases p with
  | word w =>
      refine longestOf_eq_find? (List.length_pos_iff.mpr h.1) (fun u => ?_) (find?_wordToken h)
      show u.munch (w ++ rest) ≤ w.length
      rw [munch_word h]
      exact munch_le u w
  | comment body =>
      have htext : (Piece.comment body).text ++ rest = backTick :: (body ++ backTick :: rest) := by
        simp [Piece.text]
      have hlength : (Piece.comment body).text.length = body.length + 2 := by simp [Piece.text]
      rw [htext, hlength]
      exact longest_comment h rest
  | unclosed body =>
      obtain ⟨hopen, rfl⟩ := h
      rw [List.append_nil]
      cases hlongest : longest (Piece.unclosed body).text with
      | none => rfl
      | some best => exact absurd (backTick_mem_of_longest hlongest rfl) hopen
  | single c =>
      obtain ⟨hword, htick⟩ := h
      show longest (c :: rest) = (Piece.separators.lookup c).map (·, 1)
      cases hlookup : Piece.separators.lookup c with
      | none => exact longestOf_eq_none (munch_of_stray hword htick hlookup rest)
      | some t =>
          refine longest_separator hlookup ?_ rest
          rintro rfl
          exact hblank hlookup

end Token

/-! ## 3. Scanning piece by piece -/

namespace Piece

theorem Fits.text_ne_nil {p : Piece} {rest : List Char} (h : p.Fits rest) : p.text ≠ [] := by
  cases p with
  | word w => exact h.1
  | _ => exact List.cons_ne_nil _ _

/-- Nothing is wrong with a piece that is a token and no malformed word. -/
theorem exists_token {p : Piece} (h : p.problem? = none) :
    ∃ t, p.token? = some t ∧ t ≠ .malformed := by
  unfold problem? at h
  split at h
  · cases h
  · split at h <;> cases h
  · rename_i t hmalformed htoken
    exact ⟨t, htoken, hmalformed⟩

/-- Blanks are pieces by themselves. -/
theorem eq_single_of_blank {p : Piece} (h : p.token? = some .blank) :
    ∃ c, p = single c ∧ isBlank c = true := by
  cases p with
  | word w =>
      have hword : wordToken w = .blank := Option.some.inj h
      unfold wordToken at hword
      split at hword
      · rename_i hlookup
        have hmem := mem_of_lookup hlookup
        rw [hword] at hmem
        simp [reserved] at hmem
      · split at hword <;> cases hword
  | comment body => cases h
  | unclosed body => cases h
  | single c =>
      have hmem := mem_of_lookup h
      refine ⟨c, rfl, ?_⟩
      simp only [separators, List.mem_cons, Prod.mk.injEq, List.not_mem_nil, or_false, reduceCtorEq,
        and_false, and_true, false_or] at hmem
      rcases hmem with rfl | rfl | rfl | rfl <;> rfl

/-- The leaf of a piece that starts at a given byte on a given line, if the grammar sees it. -/
def leaf? (start line : Nat) (p : Piece) : Option Node :=
  p.lexeme?.map fun l =>
    .terminal l.symbol l.literal ⟨start, start + byteLength p.text⟩ line l.action

/-- The leaves of a row of pieces, the first of which starts at a given byte on a given line. -/
def leaves : Nat → Nat → List Piece → List Node
  | _, _, [] => []
  | start, line, p :: pieces =>
    (p.leaf? start line).toList
      ++ leaves (start + byteLength p.text) (line + lineBreaks p.text) pieces

end Piece

namespace Token

/-- Blanks that stand side by side are stepped over all at once. -/
theorem scan_blanks (cs : List Char) (start line : Nat) :
    scan start line cs
      = scan (start + byteLength (cs.takeWhile isBlank))
          (line + lineBreaks (cs.takeWhile isBlank)) (cs.dropWhile isBlank) := by
  cases cs with
  | nil => rfl
  | cons c rest =>
      by_cases hblank : isBlank c = true
      · have hlongest : longest (c :: rest)
            = some (.blank, ((c :: rest).takeWhile isBlank).length) := by
          refine longest_of_only (by simp [hblank]) fun u => ?_
          unfold isBlank at hblank
          simp only [Bool.or_eq_true, beq_iff_eq] at hblank
          rcases hblank with ((rfl | rfl) | rfl) | rfl <;> cases u <;> rfl
        have hsplit : (c :: rest).takeWhile isBlank ++ (c :: rest).dropWhile isBlank = c :: rest :=
          List.takeWhile_append_dropWhile
        have htake := @List.take_left _ ((c :: rest).takeWhile isBlank)
          ((c :: rest).dropWhile isBlank)
        have hdrop := @List.drop_left _ ((c :: rest).takeWhile isBlank)
          ((c :: rest).dropWhile isBlank)
        rw [hsplit] at htake hdrop
        rw [scan_skip hlongest rfl (by decide), htake, hdrop]
      · rw [List.takeWhile_cons_of_neg hblank, List.dropWhile_cons_of_neg hblank]
        rfl

/-- They can be stepped over one by one as well. -/
theorem scan_blank {c : Char} (h : isBlank c = true) (rest : List Char) (start line : Nat) :
    scan start line (c :: rest) = scan (start + byteLength [c]) (line + lineBreaks [c]) rest := by
  rw [scan_blanks (c :: rest), scan_blanks rest, List.takeWhile_cons_of_pos h,
    List.dropWhile_cons_of_pos h, ← List.singleton_append, byteLength_append, Nat.add_assoc start,
    Nat.add_assoc line]
  unfold lineBreaks
  rw [List.count_append]

section Piece

variable {p : Piece} {rest : List Char}

/-- A piece with which nothing is wrong is scanned by itself, and the text behind it further on. -/
theorem scan_fine (h : p.Fits rest) (hfine : p.problem? = none) (start line : Nat) :
    scan start line (p.text ++ rest)
      = (scan (start + byteLength p.text) (line + lineBreaks p.text) rest).map
          ((p.leaf? start line).toList ++ ·) := by
  have hnothing : ∀ scanned : Except Diagnostic (List Node), scanned = scanned.map ([] ++ ·) := by
    intro scanned
    cases scanned <;> rfl
  obtain ⟨t, htoken, hmalformed⟩ := Piece.exists_token hfine
  have hleaf : p.leaf? start line = t.entry.map fun (symbol, action) => Node.terminal symbol
      (String.ofList p.text) ⟨start, start + byteLength p.text⟩ line action := by
    unfold Piece.leaf? Piece.lexeme?
    rw [htoken, Option.bind_some]
    cases t.entry <;> rfl
  by_cases hblank : t = .blank
  · subst hblank
    obtain ⟨c, rfl, hc⟩ := Piece.eq_single_of_blank htoken
    rw [hleaf]
    exact (scan_blank hc rest start line).trans (hnothing _)
  · have hlongest := longest_piece h (by rw [htoken]; simpa using hblank)
    rw [htoken] at hlongest
    have htake : (p.text ++ rest).take p.text.length = p.text := List.take_left
    have hdrop : (p.text ++ rest).drop p.text.length = rest := List.drop_left
    cases hentry : t.entry with
    | none =>
        rw [scan_skip hlongest hentry hmalformed, htake, hdrop, hleaf, hentry]
        exact hnothing _
    | some entry =>
        obtain ⟨symbol, action⟩ := entry
        have hline : lineBreaks p.text = 0 := by
          rw [← htake]
          have hmunch := longestOf_eq_munch hlongest
          rw [hmunch]
          exact lineBreaks_take hentry (hmunch ▸ longest_pos hlongest)
        rw [scan_token hlongest hentry, htake, hdrop, hleaf, hentry, hline]
        rfl

/-- A piece with which something is wrong ends the scan. -/
theorem scan_problem (h : p.Fits rest) {problem : Problem} (hproblem : p.problem? = some problem)
    (start line : Nat) :
    scan start line (p.text ++ rest)
      = .error ⟨problem, some ⟨start, start + byteLength p.text⟩, line⟩ := by
  have hlongest : longest (p.text ++ rest) = p.token?.map (·, p.text.length) := by
    refine longest_piece h fun hblank => ?_
    rw [Piece.problem?, hblank] at hproblem
    cases hproblem
  unfold Piece.problem? at hproblem
  split at hproblem
  · rename_i htoken
    rw [htoken] at hlongest
    cases hproblem
    cases p with
    | word w => cases htoken
    | comment body => cases htoken
    | unclosed body =>
        obtain ⟨-, rfl⟩ := h
        rw [List.append_nil] at hlongest ⊢
        exact scan_stray hlongest
    | single c =>
        have hstray : strayText c rest = [c] := if_neg (by simpa using h.2)
        have hscan := @scan_stray start line c rest hlongest
        rw [hstray] at hscan
        exact hscan
  · rename_i htoken
    rw [htoken] at hlongest
    have hword : problem = malformedProblem p.text := by
      unfold malformedProblem
      split at hproblem
      · rename_i hlower
        rw [if_pos hlower]
        exact (Option.some.inj hproblem).symm
      · rename_i hlower
        rw [if_neg hlower]
        exact (Option.some.inj hproblem).symm
    obtain ⟨c, cs, htext⟩ := List.exists_cons_of_ne_nil h.text_ne_nil
    have htake : (p.text ++ rest).take p.text.length = p.text := List.take_left
    rw [htext, List.cons_append] at hlongest htake
    have hscan := @scan_malformed start line _ c (cs ++ rest) hlongest
    rw [htake, ← List.cons_append, ← htext, ← hword] at hscan
    exact hscan
  · cases hproblem

end Piece

/-- **A text in which nothing is wrong with any piece is scanned**, and its leaves are those of the
pieces. -/
theorem scan_leaves {cs : List Char} {pieces : List Piece} (h : MadeOf cs pieces)
    (hfine : ∀ p ∈ pieces, p.problem? = none) (start line : Nat) :
    scan start line cs = .ok (Piece.leaves start line pieces) := by
  induction h generalizing start line with
  | nil =>
      unfold scan
      rfl
  | @cons p rest pieces fits tail ih =>
      rw [List.forall_mem_cons] at hfine
      rw [scan_fine fits hfine.1, ih hfine.2]
      rfl

/-- **The first piece with which something is wrong ends the scan**, whatever stands behind it. -/
theorem scan_offending {p : Piece} {problem : Problem} (hproblem : p.problem? = some problem)
    {before after : List Piece} (hbefore : ∀ q ∈ before, q.problem? = none) {cs : List Char}
    (h : MadeOf cs (before ++ p :: after)) (start line : Nat) :
    scan start line cs
      = .error ⟨problem, some ⟨start + byteLength (before.flatMap Piece.text),
          start + byteLength (before.flatMap Piece.text) + byteLength p.text⟩,
          line + lineBreaks (before.flatMap Piece.text)⟩ := by
  induction before generalizing cs start line with
  | nil =>
      cases h with
      | cons fits tail => exact scan_problem fits hproblem start line
  | cons q before ih =>
      rw [List.forall_mem_cons] at hbefore
      cases h with
      | cons fits tail =>
          have hbreaks : lineBreaks (q.text ++ before.flatMap Piece.text)
              = lineBreaks q.text + lineBreaks (before.flatMap Piece.text) := List.count_append
          rw [scan_fine fits hbefore.1, ih hbefore.2 tail, List.flatMap_cons, byteLength_append,
            hbreaks, Nat.add_assoc start, Nat.add_assoc line]
          rfl

end Token

/-! ## 4. Sources -/

namespace Piece

theorem spells_leaves (start line : Nat) (pieces : List Piece) :
    Spells (leaves start line pieces) (pieces.filterMap lexeme?) := by
  induction pieces generalizing start line with
  | nil => rfl
  | cons p pieces ih =>
      have htail := ih (start + byteLength p.text) (line + lineBreaks p.text)
      unfold Spells at htail ⊢
      unfold leaves leaf?
      rw [List.map_append, htail]
      cases hlexeme : p.lexeme? with
      | none =>
          rw [List.filterMap_cons_none hlexeme]
          rfl
      | some l =>
          rw [List.filterMap_cons_some hlexeme]
          rfl

/-- Something is wrong with no piece of a row, or with a first one. -/
theorem fine_or_offending (pieces : List Piece) :
    (∀ p ∈ pieces, p.problem? = none) ∨ ∃ before p after problem,
      pieces = before ++ p :: after ∧ (∀ q ∈ before, q.problem? = none)
        ∧ p.problem? = some problem := by
  induction pieces with
  | nil => exact .inl fun p hp => absurd hp List.not_mem_nil
  | cons p pieces ih =>
      cases hproblem : p.problem? with
      | some problem =>
          exact .inr ⟨[], p, pieces, problem, rfl, fun q hq => absurd hq List.not_mem_nil, hproblem⟩
      | none =>
          rcases ih with hfine | ⟨before, q, after, problem, rfl, hbefore, hq⟩
          · exact .inl (List.forall_mem_cons.mpr ⟨hproblem, hfine⟩)
          · exact .inr ⟨p :: before, q, after, problem, rfl,
              List.forall_mem_cons.mpr ⟨hproblem, hbefore⟩, hq⟩

/-- The report of what is wrong with a piece that stands behind others. -/
def blame (before : List Piece) (p : Piece) (problem : Problem) : Diagnostic :=
  let start := byteLength (before.flatMap text)
  ⟨problem, some ⟨start, start + byteLength p.text⟩, 1 + lineBreaks (before.flatMap text)⟩

end Piece

section Source

variable {source : String} {pieces : List Piece}

theorem tokenize_fine (h : MadeOf source.toList pieces) (hfine : ∀ p ∈ pieces, p.problem? = none) :
    tokenize source = .ok (Piece.leaves 0 1 pieces) :=
  scan_leaves h hfine 0 1

theorem tokenize_offending {before after : List Piece} {p : Piece} {problem : Problem}
    (h : MadeOf source.toList (before ++ p :: after)) (hbefore : ∀ q ∈ before, q.problem? = none)
    (hproblem : p.problem? = some problem) :
    tokenize source = .error (p.blame before problem) := by
  have hscan := scan_offending hproblem hbefore h 0 1
  rw [Nat.zero_add] at hscan
  exact hscan

/-- Only a source of fine pieces can be scanned. -/
theorem fine_of_tokenize (h : MadeOf source.toList pieces) {leaves : List Node}
    (hleaves : tokenize source = .ok leaves) :
    (∀ p ∈ pieces, p.problem? = none) ∧ leaves = Piece.leaves 0 1 pieces := by
  rcases Piece.fine_or_offending pieces with hfine | ⟨before, p, after, problem, rfl, hbefore, hp⟩
  · rw [tokenize_fine h hfine] at hleaves
    cases hleaves
    exact ⟨hfine, rfl⟩
  · rw [tokenize_offending h hbefore hp] at hleaves
    cases hleaves

end Source

/-- **The scanner accepts exactly what is made of tokens.** Every source is made of pieces, and
however it is cut into them: it can be scanned just if every word is reserved or a name, every other
character outside comments is a delimiter, a new line or a blank, and no back-tick is left open. The
leaves then are the words and delimiters among the pieces, in their order. Otherwise the first piece
with which something is wrong is reported: a word, a character, or an open back-tick with the rest
of the source. -/
theorem tokenize_pieces (source : String) :
    (∃ pieces, MadeOf source.toList pieces) ∧ ∀ pieces, MadeOf source.toList pieces →
      ((∃ leaves, tokenize source = .ok leaves) ↔ ∀ p ∈ pieces, p.problem? = none)
        ∧ (∀ leaves, tokenize source = .ok leaves → Spells leaves (pieces.filterMap Piece.lexeme?))
        ∧ ∀ before p after problem, pieces = before ++ p :: after →
          (∀ q ∈ before, q.problem? = none) → p.problem? = some problem →
          tokenize source = .error (p.blame before problem) := by
  refine ⟨exists_madeOf _, fun pieces h => ⟨⟨?_, ?_⟩, ?_, ?_⟩⟩
  · rintro ⟨leaves, hleaves⟩
    exact (fine_of_tokenize h hleaves).1
  · exact fun hfine => ⟨_, tokenize_fine h hfine⟩
  · intro leaves hleaves
    rw [(fine_of_tokenize h hleaves).2]
    exact Piece.spells_leaves 0 1 pieces
  · rintro before p after problem rfl hbefore hproblem
    exact tokenize_offending h hbefore hproblem

/-- The word `notT` is a name, the comment ends a line and takes five bytes, and `9x` is the first
piece with which something is wrong. -/
theorem tokenize_pieces_malformed :
    tokenize "notT;\x60é\n\x60(9x def_" = .error ⟨.invalidLiteral "9x", some ⟨11, 13⟩, 2⟩ := by
  have htext : "notT;\x60é\n\x60(9x def_".toList
      = Piece.text (.word ['n', 'o', 't', 'T']) ++ (Piece.text (.single ';')
        ++ (Piece.text (.comment ['é', '\n']) ++ (Piece.text (.single '(')
        ++ (Piece.text (.word ['9', 'x']) ++ (Piece.text (.single ' ')
        ++ (Piece.text (.word ['d', 'e', 'f', '_']) ++ [])))))) := by
    decide
  have hpieces := MadeOf.cons (p := .word ['n', 'o', 't', 'T']) (Piece.fits_word rfl (by decide) rfl)
    (.cons (p := .single ';') ⟨by decide, by decide⟩
    (.cons (p := .comment ['é', '\n']) (by decide : backTick ∉ _)
    (.cons (p := .single '(') ⟨by decide, by decide⟩
    (.cons (p := .word ['9', 'x']) (Piece.fits_word rfl (by decide) rfl)
    (.cons (p := .single ' ') ⟨by decide, by decide⟩
    (.cons (p := .word ['d', 'e', 'f', '_']) (Piece.fits_word rfl (by decide) rfl) .nil))))))
  rw [← htext] at hpieces
  exact ((tokenize_pieces _).2 _ hpieces).2.2
    [.word ['n', 'o', 't', 'T'], .single ';', .comment ['é', '\n'], .single '('] (.word ['9', 'x'])
    [.single ' ', .word ['d', 'e', 'f', '_']] _ rfl (by decide) rfl

end Trivalent
