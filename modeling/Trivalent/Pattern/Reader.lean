import Trivalent.Pattern.Bracket
import Trivalent.Pattern.Size
import Trivalent.Text.Alphabetic

/-!
# Reading patterns

The written form of patterns: letters stand for themselves, `.` for any character but a newline,
`[a-z]` for a set, `^` and `$` for the ends of the text, `*`, `+`, `?` and `{m,n}` for repetition,
`|` for choice, parentheses for grouping, and a backslash for escapes. Flags as in `(?i)` hold up to
the end of their group.

A written pattern is refused if it needs a table of Unicode properties, if it could cut a character
in two, as `.` could with `(?-u)`, if it is nested too deep, or if it is too large.

* `Piece` -- a pattern with what its written form needs: its depth, and tables;
* `Read.body` -- what stands inside a group;
* `Pattern.read?` -- the pattern with a given written form.
-/

namespace Trivalent

namespace Pattern

/-! ## 1. Pieces -/

/-- A pattern and what its written form needs. -/
structure Piece where
  pattern : Pattern := .empty
  /-- How deep groups, repetitions, choices, sequences and sets are nested in the written form. -/
  depth : Nat := 0
  /-- The pattern depends on words of Unicode characters. -/
  tables : Bool := false
  deriving DecidableEq, Repr

namespace Piece

/-- The deepest that a pattern may be nested. -/
def maxDepth : Nat := 250

/-- A literal character. -/
def ofChar (c : Char) : Piece := { pattern := .literal [c] }

/-- One character of a set; `ascii` says that it was written as a set of ASCII characters. -/
def ofSet (set : CharSet) (ascii : Bool) : Piece := { pattern := .ofSet set ascii }

/-- A place. -/
def ofEdge (e : Edge) (tables : Bool) : Piece := { pattern := .edge e, tables }

/-- Several pieces one level down. -/
def nest (pieces : List Piece) (pattern : Pattern) : Piece where
  pattern
  depth := pieces.foldl (fun depth piece => max depth piece.depth) 0 + 1
  tables := pieces.any (·.tables)

/-- A sequence. Flags, which are `none`, have a place in it as well and stand for the empty text. -/
def sequence : List (Option Piece) → Piece
  | [] => {}
  | [part] => part.getD {}
  | parts =>
    let pieces := parts.map (·.getD {})
    nest pieces (.concat (pieces.map (·.pattern)))

/-- A choice. -/
def choice : List Piece → Piece
  | [piece] => piece
  | pieces => nest pieces (.choice (pieces.map (·.pattern)))

/-- A group, which has a number unless it serves to hold things together only. -/
def grouped (number : Option Nat) (piece : Piece) : Piece :=
  { piece with
    pattern := number.elim piece.pattern (.group · piece.pattern)
    depth := piece.depth + 1 }

/-- A repetition. What is repeated no times at all needs nothing. -/
def repeated (piece : Piece) (min : Nat) (max : Option Nat) (short : Bool) : Piece where
  pattern := piece.pattern.times min max short
  depth := piece.depth + 1
  tables := piece.tables && max != some 0

end Piece

namespace Read

/-! ## 2. Groups and flags -/

/-- Changes one flag, by its letter. -/
def setFlag (on : Bool) (flags : Flags) : Char → Flags
  | 'i' => { flags with anyCase := on }
  | 'm' => { flags with lines := on }
  | 's' => { flags with dotAll := on }
  | 'R' => { flags with anyLineEnd := on }
  | 'U' => { flags with short := on }
  | 'x' => { flags with spaced := on }
  | 'u' => { flags with unicode := on }
  | _ => flags

/-- The letters of flags up to a colon or a closing parenthesis: those before a dash are switched
on, those after it off. None may be written twice, and a dash has to have letters after it. -/
def flagLetters : Read (List Char) := do
  let letters := (← rest).takeWhile fun c => c != ':' && c != ')'
  require (letters.length ≤ 8 && letters.all ("imsURxu-".toList.contains ·)
    && letters.eraseDups.length == letters.length && letters.getLast? != some '-')
  goTo ((← rest).drop letters.length)
  return letters

/-- The flags after some letters. -/
def changeFlags (flags : Flags) (letters : List Char) : Flags :=
  let on := letters.takeWhile (· != '-')
  let off := letters.drop on.length
  off.foldl (setFlag false) (on.foldl (setFlag true) flags)

/-- Whether a character may stand in the name of a group. -/
def isNameChar (first : Bool) (c : Char) : Bool :=
  c == '_' || Text.isAlphabetic c
    || !first && (Text.isNumeric c || c == '.' || c == '[' || c == ']')

/-- The name of a group up to its closing angle bracket. Names are not empty and not used twice. -/
def groupName : Read Unit := do
  let name := (← rest).takeWhile (· != '>')
  goTo ((← rest).drop name.length)
  expect '>'
  require (name.head?.any (isNameChar true) && name.all (isNameChar false)
    && !(← get).names.contains name)
  modify fun cursor => { cursor with names := name :: cursor.names }

/-- The number of a new group. -/
def groupNumber : Read Nat :=
  modifyGet fun cursor => (cursor.groups + 1, { cursor with groups := cursor.groups + 1 })

/-- What stands right after an opening parenthesis. -/
inductive Opening where
  /-- A group, whose content is read with the given flags. -/
  | group (number : Option Nat) (inside : Flags)
  /-- Flags for the rest of the present group. -/
  | flags (following : Flags)
  deriving DecidableEq, Repr

/-- Reads what stands right after an opening parenthesis. Conditions on the text around an
occurrence, as `(?=` and `(?<=`, are not understood. -/
def opening : Read Opening := do
  skipSpace
  let flags ← flags
  match ← rest with
  | '?' :: 'P' :: '<' :: cs =>
    goTo cs
    groupName
    return .group (← groupNumber) flags
  | '?' :: '<' :: cs =>
    goTo cs
    groupName
    return .group (← groupNumber) flags
  | '?' :: cs =>
    goTo cs
    let letters ← flagLetters
    match ← next with
    | ':' => return .group none (changeFlags flags letters)
    | _ =>
      require !letters.isEmpty
      return .flags (changeFlags flags letters)
  | _ => return .group (← groupNumber) flags

/-! ## 3. Repetition -/

/-- A repetition in braces, after the opening one: the least number and, if there is one, the
greatest. -/
def bounds : Read (Nat × Option Nat) := do
  skipSpace
  let min ← number
  match ← next with
  | '}' => return (min, some min)
  | ',' =>
    skipSpace
    match ← rest with
    | '}' :: cs =>
      goTo cs
      return (min, none)
    | _ =>
      let max ← number
      expect '}'
      require (min ≤ max)
      return (min, some max)
  | _ => failure

/-- Whether a repetition is short: a question mark after it asks for the opposite of what the flags
say. -/
def shortness : Read Bool := do
  let short := (← flags).short
  match ← rest with
  | '?' :: cs =>
    goTo cs
    return !short
  | _ => return short

/-- Repeats the last part of a sequence, of which the parts are given from the last to the first.
Flags cannot be repeated. -/
def repeatLast (parts : List (Option Piece)) (min : Nat) (max : Option Nat) :
    Read (List (Option Piece)) := do
  match parts with
  | some piece :: parts => return some (piece.repeated min max (← shortness)) :: parts
  | _ => failure

/-! ## 4. Single pieces -/

/-- A literal character. With the flag `i`, an ASCII letter stands for both cases. -/
def literal (c : Char) : Read Piece := do
  requireCases
  if (← flags).anyCase then return .ofSet (CharSet.single c).anyCase true
  else return .ofChar c

/-- Any character but those that end a line. -/
def dot : Read Piece := do
  let flags ← flags
  require flags.unicode
  let excluded : CharSet :=
    if flags.dotAll then .none
    else if flags.anyLineEnd then .union (.single '\n') (.single '\r')
    else .single '\n'
  return .ofSet excluded.complement false

/-- The edge that `^` stands for. -/
def startEdge (flags : Flags) : Edge :=
  if !flags.lines then .textStart else if flags.anyLineEnd then .anyLineStart else .lineStart

/-- The edge that `$` stands for. -/
def endEdge (flags : Flags) : Edge :=
  if !flags.lines then .textEnd else if flags.anyLineEnd then .anyLineEnd else .lineEnd

/-- A piece that is no group and no set in brackets and begins with `c`, which has been read. -/
def simple (c : Char) : Read Piece := do
  match c with
  | '.' => dot
  | '^' => return .ofEdge (startEdge (← flags)) false
  | '$' => return .ofEdge (endEdge (← flags)) false
  | '\\' =>
    match ← escape with
    | .char c => literal c
    | .set set => return .ofSet set true
    | .edge e tables => return .ofEdge e tables
  | c => literal c

/-! ## 5. Whole patterns -/

/-- Reads up to the end of the present group or of the text. `branches` holds the finished branches
of a choice and `parts` the parts of the present one, both from the last to the first. Parentheses
and brackets may be nested `levels` deep. Each round reads at least one character, so the length of
the text, which is less than `fuel`, bounds their number. -/
def body (fuel levels : Nat) (branches : List Piece) (parts : List (Option Piece)) :
    Read Piece := do
  match fuel with
  | 0 => failure
  | fuel + 1 =>
    skipSpace
    match ← rest with
    | [] => return .choice (.sequence parts.reverse :: branches).reverse
    | ')' :: _ => return .choice (.sequence parts.reverse :: branches).reverse
    | c :: cs =>
      goTo cs
      match c with
      | '|' => body fuel levels (.sequence parts.reverse :: branches) []
      | '*' => body fuel levels branches (← repeatLast parts 0 none)
      | '+' => body fuel levels branches (← repeatLast parts 1 none)
      | '?' => body fuel levels branches (← repeatLast parts 0 (some 1))
      | '{' =>
        let (min, max) ← bounds
        skipSpace
        body fuel levels branches (← repeatLast parts min max)
      | '[' =>
        match levels with
        | 0 => failure
        | levels + 1 =>
          let inside ← bracketed fuel levels
          let piece := { Piece.ofSet inside.set !(← flags).unicode with depth := inside.depth + 1 }
          body fuel (levels + 1) branches (some piece :: parts)
      | '(' =>
        match ← opening with
        | .flags following =>
          setFlags following
          body fuel levels branches (none :: parts)
        | .group number inside =>
          match levels with
          | 0 => failure
          | levels + 1 =>
            let outside ← flags
            setFlags inside
            let content ← body fuel levels [] []
            expect ')'
            setFlags outside
            body fuel (levels + 1) branches (some (content.grouped number) :: parts)
      | c => body fuel levels branches (some (← simple c) :: parts)

/-- A whole pattern. -/
def whole : Read Pattern := do
  let piece ← body ((← rest).length + 1) Piece.maxDepth [] []
  require (← rest).isEmpty
  require (piece.depth ≤ Piece.maxDepth && !piece.tables && piece.pattern.fits)
  return piece.pattern

end Read

/-- The pattern with a given written form. -/
def read? (text : List Char) : Option Pattern := (Read.whole.run { rest := text }).map (·.1)

end Pattern

end Trivalent
