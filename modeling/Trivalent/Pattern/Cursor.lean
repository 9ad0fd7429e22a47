import Trivalent.Pattern.CharSet

/-!
# Reading character by character

What the readers of written patterns share.

* `Flags` -- how a text is to be read;
* `Cursor` -- what is left to read, and what has to be remembered of the text before;
* `Read` -- a reader. All it says about a text that it does not understand is that it does not;
* `Read.skipSpace` -- with the flag `x`, white space and comments can stand between most characters,
  even between the digits of a number;
* `Read.number` -- a number in decimal digits.
-/

namespace Trivalent

namespace Pattern

/-! ## 1. Readers -/

/-- How what follows is to be read. -/
structure Flags where
  /-- Letters stand for both cases. -/
  anyCase : Bool := false
  /-- `^` and `$` hold at the ends of every line. -/
  lines : Bool := false
  /-- `.` stands for a newline as well. -/
  dotAll : Bool := false
  /-- A carriage return ends a line as well. -/
  anyLineEnd : Bool := false
  /-- Repetitions are short, and long ones have to be asked for. -/
  short : Bool := false
  /-- White space and comments are skipped. -/
  spaced : Bool := false
  /-- Characters are Unicode characters. -/
  unicode : Bool := true
  deriving DecidableEq, Repr

/-- What is left to read, and how. -/
structure Cursor where
  rest : List Char
  flags : Flags := {}
  /-- The names of groups so far. -/
  names : List (List Char) := []
  /-- The number of groups so far. -/
  groups : Nat := 0
  deriving DecidableEq, Repr

/-- A reader. -/
abbrev Read := StateT Cursor Option

namespace Read

/-- Goes on only if the condition holds. -/
def require (condition : Bool) : Read Unit := if condition then pure () else failure

/-- What is left to read. -/
def rest : Read (List Char) := do return (← get).rest

/-- Says what is left to read. -/
def goTo (rest : List Char) : Read Unit := modify fun cursor => { cursor with rest }

/-- The next character, which there has to be. -/
def next : Read Char := do
  match ← rest with
  | [] => failure
  | c :: cs =>
    goTo cs
    return c

/-- The given character has to come next. -/
def expect (c : Char) : Read Unit := do require ((← next) == c)

/-- The flags that hold here. -/
def flags : Read Flags := do return (← get).flags

/-- Changes the flags. -/
def setFlags (flags : Flags) : Read Unit := modify fun cursor => { cursor with flags }

/-- Letters in either case are known for ASCII only. -/
def requireCases : Read Unit := do require !((← flags).anyCase && (← flags).unicode)

/-! ## 2. White space and comments -/

/-- The text after white space and comments, which begin with `#` and end with the line. -/
def afterSpace (inComment : Bool) : List Char → List Char
  | [] => []
  | c :: cs =>
    if inComment then afterSpace (c != '\n') cs
    else if Text.isSpace c then afterSpace false cs
    else if c == '#' then afterSpace true cs
    else c :: cs

/-- Skips white space and comments if the flags say so. -/
def skipSpace : Read Unit := do
  if (← flags).spaced then goTo (afterSpace false (← rest))

/-- The longest beginning of a text with the given kind of characters, in front of which `sofar`
has been read, and the text after it. White space and comments between the characters fall away if
`spaced` is set. -/
def spacedRun (isMember : Char → Bool) (spaced : Bool) (sofar : List Char) (inComment : Bool) :
    List Char → List Char × List Char
  | [] => (sofar.reverse, [])
  | c :: cs =>
    if inComment then spacedRun isMember spaced sofar (c != '\n') cs
    else if isMember c then spacedRun isMember spaced (c :: sofar) false cs
    else if spaced && Text.isSpace c then spacedRun isMember spaced sofar false cs
    else if spaced && c == '#' then spacedRun isMember spaced sofar true cs
    else (sofar.reverse, c :: cs)

/-- Reads characters of the given kind for as long as there are any. -/
def charRun (isMember : Char → Bool) : Read (List Char) := do
  let (members, after) := spacedRun isMember (← flags).spaced [] false (← rest)
  goTo after
  return members

/-- Reads a given number of characters. -/
def chars : Nat → Read (List Char)
  | 0 => pure []
  | count + 1 => do
    let c ← next
    skipSpace
    return c :: (← chars count)

/-! ## 3. Numbers -/

/-- The number with the given digits to a base. There has to be a digit, and the number has to fit
32 bits. -/
def numeral? (base : Nat) (digits : List Nat) : Option Nat :=
  if digits.isEmpty then none
  else
    digits.foldlM (fun value digit =>
      let value := base * value + digit
      if value < 4294967296 then some value else none) 0

/-- The value of a hexadecimal digit. -/
def hexDigit? (c : Char) : Option Nat :=
  if c.isDigit then some (c.toNat - '0'.toNat)
  else if 'a' ≤ c && c ≤ 'f' then some (c.toNat - 'a'.toNat + 10)
  else if 'A' ≤ c && c ≤ 'F' then some (c.toNat - 'A'.toNat + 10)
  else none

/-- The character with a number in hexadecimal digits. -/
def hexChar? (digits : List Char) : Option Char := do
  let code ← numeral? 16 (← digits.mapM hexDigit?)
  if code.isValidChar then some (Char.ofNat code) else none

/-- A number in decimal digits with white space around it, whatever the flags say. -/
def number : Read Nat := do
  goTo ((← rest).dropWhile Text.isSpace)
  let digits ← charRun Char.isDigit
  goTo ((← rest).dropWhile Text.isSpace)
  (numeral? 10 (digits.map fun c => c.toNat - '0'.toNat)).elim failure pure

end Read

end Pattern

end Trivalent
