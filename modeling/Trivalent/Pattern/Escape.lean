import Trivalent.Pattern
import Trivalent.Pattern.Cursor

/-!
# Escapes

A backslash takes a mark literally or names something that cannot be written otherwise.

There are no tables of Unicode properties. So long as characters are Unicode characters, `\d`, `\s`
and `\w` are refused, and an edge that depends on words is marked as one that needs such tables.
With the flag `u` switched off they have their ASCII meaning. The complements of these sets, and
the sets that `\p` names, are always refused.

* `Atom` -- what a character or an escape stands for;
* `Read.escape` -- what follows a backslash.
-/

namespace Trivalent

namespace Pattern

/-- What a character or an escape stands for. -/
inductive Atom where
  | char (c : Char)
  | set (set : CharSet)
  /-- An edge; `tables` says that it depends on words of Unicode characters. -/
  | edge (e : Edge) (tables : Bool)
  deriving DecidableEq, Repr

namespace Read

/-- A character by its number: in braces, or with a fixed number of digits. With two digits it is a
byte, which is a character of its own in ASCII only. -/
def hex (digits : Nat) : Read Char := do
  skipSpace
  match ← rest with
  | '{' :: cs =>
    goTo cs
    let body ← charRun fun c => (hexDigit? c).isSome
    expect '}'
    skipSpace
    (hexChar? body).elim failure pure
  | _ =>
    let c ← (hexChar? (← chars digits)).elim failure pure
    require ((← flags).unicode || digits != 2 || c.toNat < 128)
    return c

/-- An edge that depends on words. -/
def wordEdge (e : Edge) : Read Atom := do return .edge e (← flags).unicode

/-- Whether a character may stand in the name of an edge. -/
def isEdgeNameChar (c : Char) : Bool := c.isAlpha || c == '-'

/-- What follows `\b`: the name of an edge in braces, or nothing that belongs to it. Braces that do
not begin with a letter or a dash are a repetition. -/
def namedEdge : Read Edge := do
  match ← rest with
  | '{' :: cs =>
    let inside := if (← flags).spaced then afterSpace false cs else cs
    if inside.head?.any isEdgeNameChar then
      goTo inside
      let name ← charRun isEdgeNameChar
      expect '}'
      match String.ofList name with
      | "start" => return .wordStart
      | "end" => return .wordEnd
      | "start-half" => return .noWordBefore
      | "end-half" => return .noWordAfter
      | _ => failure
    else return .wordEdge
  | _ => return .wordEdge

/-- A set that has its ASCII meaning only. -/
def asciiSet (set : CharSet) : Read Atom := do
  require !(← flags).unicode
  return .set set

/-- Whether a backslash takes a character literally: the ASCII characters but letters, digits and
the two angle brackets. -/
def isMark (c : Char) : Bool := c.toNat < 128 && !c.isAlphanum && c != '<' && c != '>'

/-- What follows a backslash. -/
def escape : Read Atom := do
  match ← next with
  | 'a' => return .char '\x07'
  | 'f' => return .char '\x0c'
  | 't' => return .char '\t'
  | 'n' => return .char '\n'
  | 'r' => return .char '\r'
  | 'v' => return .char '\x0b'
  | 'x' => return .char (← hex 2)
  | 'u' => return .char (← hex 4)
  | 'U' => return .char (← hex 8)
  | 'd' => asciiSet .digits
  | 's' => asciiSet .blanks
  | 'w' => asciiSet .wordChars
  | 'A' => return .edge .textStart false
  | 'z' => return .edge .textEnd false
  | 'b' => wordEdge (← namedEdge)
  | 'B' => wordEdge .noWordEdge
  | '<' => wordEdge .wordStart
  | '>' => wordEdge .wordEnd
  | c => if isMark c then return .char c else failure

end Read

end Pattern

end Trivalent
