import Trivalent.Arena
import Trivalent.Token

/-!
# Scanning

`tokenize` turns a source text into its leaves: words and delimiters, each with its exact text, its
byte span and its line. Blanks and comments are stepped over; a newline, also one inside a comment,
advances the line. The first text that is no token ends the scan with a diagnostic:

* a malformed word, as a whole;
* a back-tick that no second one closes, with all that follows it;
* any other character that starts no token, alone.
-/

namespace Trivalent

/-- Bytes that a sequence of characters takes in the source. -/
def byteLength : List Char → Nat
  | [] => 0
  | c :: cs => c.utf8Size + byteLength cs

theorem byteLength_append (cs ds : List Char) :
    byteLength (cs ++ ds) = byteLength cs + byteLength ds := by
  induction cs with
  | nil => simp [byteLength]
  | cons c cs ih => simp [byteLength, ih, Nat.add_assoc]

/-- Lines that a sequence of characters ends. -/
def lineBreaks (cs : List Char) : Nat := cs.count '\n'

namespace Token

/-- What is wrong with a malformed word: it passes for an attempt at an identifier if it starts
with a lowercase letter. -/
def malformedProblem (word : List Char) : Problem :=
  if word.head?.any Char.isLower then .invalidIdentifier (String.ofList word)
  else .invalidLiteral (String.ofList word)

/-- The text to blame where no token starts: an open comment takes the rest of the source, any
other character stands for itself. -/
def strayText (c : Char) (cs : List Char) : List Char := if c == backTick then c :: cs else [c]

/-- Scans the characters that are left, which start at byte `start` on line `line`. -/
def scan (start line : Nat) (cs : List Char) : Except Diagnostic (List Node) :=
  match cs with
  | [] => .ok []
  | c :: rest =>
    match h : longest (c :: rest) with
    | none =>
      let text := strayText c rest
      .error ⟨.invalidLiteral (String.ofList text), some ⟨start, start + byteLength text⟩, line⟩
    | some (token, size) =>
      let text := (c :: rest).take size
      let span : Span := ⟨start, start + byteLength text⟩
      have : rest.length + 1 - size < rest.length + 1 := by
        have := longest_pos h
        omega
      match token, token.entry with
      | .malformed, _ => .error ⟨malformedProblem text, some span, line⟩
      | _, some (symbol, action) => do
        let nodes ← scan span.stop line ((c :: rest).drop size)
        return .terminal symbol (String.ofList text) span line action :: nodes
      | _, none => scan span.stop (line + lineBreaks text) ((c :: rest).drop size)
termination_by cs.length
decreasing_by all_goals simp only [List.length_drop, List.length_cons]; omega

end Token

/-- The leaves of a source text, or the first thing in it that is no token. -/
def tokenize (source : String) : Except Diagnostic (List Node) := Token.scan 0 1 source.toList

end Trivalent
