import Trivalent.Symbol

/-!
# Tokens

The kinds of lexemes, what each of them matches at the start of a text, and what each of them is
for the grammar.

* `Token` -- twelve fixed spellings, identifiers, malformed words, comments and two kinds of
  blanks;
* `Token.munch` -- how many characters a kind can take at the start of a text, as many as
  possible; zero means that it does not match;
* `Token.longest` -- the kind that takes the most. Where two kinds take equally much, the one
  that stands first in `Token.all` wins: fixed spellings before identifiers before malformed words;
* `Token.entry` -- the symbol and the action with which a token enters the parser, or nothing for
  what the lexer steps over.

All classes are ASCII, so no character outside ASCII is ever part of a word.
-/

namespace Trivalent

/-- A kind of lexeme. -/
inductive Token where
  | defWord
  | asWord
  | valWord
  | trueWord
  | unsureWord
  | falseWord
  | andWord
  | orWord
  | notWord
  | openParen
  | closeParen
  | semicolon
  /-- A lowercase letter followed by letters and digits. -/
  | identifier
  /-- Any other run of word characters; it is always an error. -/
  | malformed
  /-- Text between two back-ticks, over any number of lines. -/
  | comment
  | newline
  /-- Blanks, tabs, carriage returns and form feeds. -/
  | blank
  deriving DecidableEq, Repr

namespace Token

/-- Every kind of token. An earlier one is preferred where two match equally long. -/
def all : List Token :=
  [defWord, asWord, valWord, trueWord, unsureWord, falseWord, andWord, orWord, notWord, openParen,
    closeParen, semicolon, identifier, malformed, comment, newline, blank]

/-! ## 1. What a token is for the grammar -/

/-- The symbol and the action a token stands for. The three truth values are operands that only
their actions tell apart; what the lexer steps over stands for nothing. -/
def entry : Token → Option (Symbol × Action)
  | defWord => some (.defWord, .inert)
  | asWord => some (.asWord, .inert)
  | valWord => some (.valWord, .inert)
  | trueWord => some (.operand, .makeTrue)
  | unsureWord => some (.operand, .makeUnsure)
  | falseWord => some (.operand, .makeFalse)
  | andWord => some (.andWord, .inert)
  | orWord => some (.orWord, .inert)
  | notWord => some (.notWord, .inert)
  | openParen => some (.openParen, .inert)
  | closeParen => some (.closeParen, .inert)
  | semicolon => some (.semicolon, .inert)
  | identifier => some (.identifier, .inert)
  | malformed => none
  | comment => none
  | newline => none
  | blank => none

/-! ## 2. What a token matches -/

/-- The characters words are made of. -/
def isWordChar (c : Char) : Bool := c.isAlphanum || c == '_'

/-- The characters that separate tokens and do nothing else. -/
def isBlank (c : Char) : Bool := c == ' ' || c == '\t' || c == '\r' || c == '\x0c'

/-- The back-tick, which opens and closes comments. -/
def backTick : Char := '\x60'

/-- Length of a fixed spelling, if the text starts with it. -/
def munchSpelling (spelling : String) (cs : List Char) : Nat :=
  if spelling.toList.isPrefixOf cs then spelling.length else 0

/-- Length of the identifier the text starts with. -/
def munchIdentifier : List Char → Nat
  | [] => 0
  | c :: cs => if c.isLower then 1 + (cs.takeWhile Char.isAlphanum).length else 0

/-- Length of the comment the text starts with, both back-ticks included; an open comment is
none. -/
def munchComment : List Char → Nat
  | [] => 0
  | c :: cs =>
    let body := (cs.takeWhile (· != backTick)).length
    if c == backTick && body < cs.length then body + 2 else 0

/-- The most characters a kind of token can take at the start of a text. -/
def munch : Token → List Char → Nat
  | defWord => munchSpelling "def"
  | asWord => munchSpelling "as"
  | valWord => munchSpelling "val"
  | trueWord => munchSpelling "T"
  | unsureWord => munchSpelling "U"
  | falseWord => munchSpelling "F"
  | andWord => munchSpelling "and"
  | orWord => munchSpelling "or"
  | notWord => munchSpelling "not"
  | openParen => munchSpelling "("
  | closeParen => munchSpelling ")"
  | semicolon => munchSpelling ";"
  | identifier => munchIdentifier
  | malformed => fun cs => (cs.takeWhile isWordChar).length
  | comment => munchComment
  | newline => munchSpelling "\n"
  | blank => fun cs => (cs.takeWhile isBlank).length

/-- The longest match among some kinds of token; of equally long ones, the first. -/
def longestOf : List Token → List Char → Option (Token × Nat)
  | [], _ => none
  | t :: ts, cs =>
    let size := t.munch cs
    match longestOf ts cs with
    | some (u, most) => if most ≤ size then some (t, size) else some (u, most)
    | none => if 0 < size then some (t, size) else none

/-- The token a text starts with, and its length. -/
def longest (cs : List Char) : Option (Token × Nat) := longestOf all cs

/-- A match takes at least one character. -/
theorem longestOf_pos {ts : List Token} {cs : List Char} {t : Token} {size : Nat}
    (h : longestOf ts cs = some (t, size)) : 0 < size := by
  induction ts generalizing t size with
  | nil => simp [longestOf] at h
  | cons u ts ih =>
    simp only [longestOf] at h
    cases hrest : longestOf ts cs with
    | none =>
      rw [hrest] at h
      simp only at h
      split at h
      · rename_i hpos
        simp only [Option.some.injEq, Prod.mk.injEq] at h
        omega
      · cases h
    | some best =>
      obtain ⟨v, most⟩ := best
      rw [hrest] at h
      have hmost := ih hrest
      simp only at h
      split at h <;> simp only [Option.some.injEq, Prod.mk.injEq] at h <;> omega

theorem longest_pos {cs : List Char} {t : Token} {size : Nat}
    (h : longest cs = some (t, size)) : 0 < size :=
  longestOf_pos h

end Token

end Trivalent
