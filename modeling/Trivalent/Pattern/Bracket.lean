import Trivalent.Pattern.Escape

/-!
# Sets in brackets

A set in brackets lists characters, ranges as `a-z`, sets with a name as `[:alpha:]`, escapes and
other sets in brackets. A caret at the beginning asks for all other characters, `&&` for what two
sets have in common, `--` for what is in the first set only, and `~~` for what is in one of them
only; of these the left one binds first. Dashes at the beginning stand for themselves, and so does
a closing bracket that comes first.

A complement can be written of Unicode characters only, and of letters in either case only with
ASCII characters. So a set without any member is all that can be written with the flag `i` while
the flag `u` is on.

* `SetPiece` -- a set with the depth of its written form;
* `Members` -- the members of a set so far;
* `Read.bracketed` -- a set after its opening bracket.
-/

namespace Trivalent

namespace Pattern

/-! ## 1. Sets with their depth -/

/-- A set, and how deep its written form is nested. -/
structure SetPiece where
  set : CharSet := .none
  depth : Nat := 0
  deriving DecidableEq, Repr

/-- The members of a set so far. -/
structure Members where
  ranges : List (Nat × Nat) := []
  /-- How many there are, as written. -/
  count : Nat := 0
  /-- The depth of the deepest. -/
  depth : Nat := 0
  deriving DecidableEq, Repr

namespace Members

/-- Adds a member. -/
def add (members : Members) (piece : SetPiece) : Members where
  ranges := piece.set.ranges ++ members.ranges
  count := members.count + 1
  depth := max members.depth piece.depth

/-- Adds a character. -/
def addChar (members : Members) (c : Char) : Members := members.add { set := .single c }

/-- The set of the members. Several members are a level of their own. -/
def toPiece (members : Members) : SetPiece where
  set := .ofRanges members.ranges
  depth := if members.count ≤ 1 then members.depth else members.depth + 1

end Members

/-- An operation on sets that waits for its right operand. -/
structure Pending where
  operation : CharSet → CharSet → CharSet
  left : SetPiece

/-- The operation that two marks stand for. -/
def setOperation? : Char → Char → Option (CharSet → CharSet → CharSet)
  | '&', '&' => some .inter
  | '-', '-' => some .minus
  | '~', '~' => some .differ
  | _, _ => none

/-- The sets with a name of their own inside brackets. -/
def namedSets : List (String × CharSet) :=
  [("alnum", .union .digits .letters), ("alpha", .letters),
    ("ascii", .range '\x00' '\x7f'), ("blank", .union (.single '\t') (.single ' ')),
    ("cntrl", .union (.range '\x00' '\x1f') (.single '\x7f')), ("digit", .digits),
    ("graph", .range '!' '~'), ("lower", .range 'a' 'z'), ("print", .range ' ' '~'),
    ("punct", .unionAll [.range '!' '/', .range ':' '@', .range '[' '\x60', .range '\x7b' '~']),
    ("space", .blanks), ("upper", .range 'A' 'Z'), ("word", .wordChars),
    ("xdigit", .unionAll [.digits, .range 'A' 'F', .range 'a' 'f'])]

/-- A named set after its own opening bracket, as `:alpha:]` or `:^alpha:]`: the set, whether it is
meant without the caret, and the text after it. -/
def namedSet? : List Char → Option (CharSet × Bool × List Char)
  | ':' :: cs =>
    let (positive, cs) := match cs with
      | '^' :: cs => (false, cs)
      | cs => (true, cs)
    let name := cs.takeWhile (· != ':')
    match cs.drop name.length with
    | ':' :: ']' :: after =>
      (namedSets.find? (·.1 == String.ofList name)).map fun (_, set) => (set, positive, after)
    | _ => none
  | _ => none

namespace Read

/-! ## 2. Members -/

/-- A set with its letters in either case, if the flags say so. -/
def cased (set : CharSet) : Read CharSet := do
  return if (← flags).anyCase then set.anyCase else set

/-- A finished set, of which `positive` says whether it is meant without a caret. -/
def closed (set : CharSet) (positive : Bool) : Read CharSet := do
  let set ← cased set
  if positive then return set
  else
    require (← flags).unicode
    return set.complement

/-- A character or an escape inside brackets. -/
def setAtom : Read Atom := do
  match ← next with
  | '\\' => escape
  | c => return .char c

/-- The range between two characters. -/
def rangeBetween (first last : Char) : Read CharSet := do
  requireCases
  require (first ≤ last && ((← flags).unicode || last.toNat < 128))
  return .range first last

/-- The set that an atom stands for. Inside brackets there are no edges. -/
def atomSet : Atom → Read CharSet
  | .char c => rangeBetween c c
  | .set set => pure set
  | .edge _ _ => failure

/-- The character by which it is decided whether a dash stands for a range, given the text after
the dash. A comment is not skipped here but for the mark that it begins with. -/
def afterDash (spaced : Bool) (text : List Char) : Option Char :=
  if spaced then
    let inside := match text.dropWhile Text.isSpace with
      | '#' :: cs => cs.dropWhile Text.isSpace
      | cs => cs
    inside.head?.or text.head?
  else text.head?

/-- One member of a set: an atom, or a range between two characters. A dash before the closing
bracket or before another dash makes no range. -/
def member : Read CharSet := do
  let first ← setAtom
  skipSpace
  match ← rest with
  | '-' :: cs =>
    let following := afterDash (← flags).spaced cs
    if following == some ']' || following == some '-' then atomSet first
    else
      goTo cs
      skipSpace
      match first, ← setAtom with
      | .char first, .char last => rangeBetween first last
      | _, _ => failure
  | _ => atomSet first

/-- A named set, after its name. -/
def namedMember (set : CharSet) (positive : Bool) : Read CharSet := do
  requireCases
  closed set positive

/-! ## 3. Brackets -/

/-- The members before a text that begins with dashes, and the text after the dashes. White space
and comments between them fall away if `spaced` is set. -/
def leadingDashes (spaced : Bool) (members : Members) (inComment : Bool) :
    List Char → Members × List Char
  | [] => (members, [])
  | c :: cs =>
    if inComment then leadingDashes spaced members (c != '\n') cs
    else if c == '-' then leadingDashes spaced (members.addChar '-') false cs
    else if spaced && Text.isSpace c then leadingDashes spaced members false cs
    else if spaced && c == '#' then leadingDashes spaced members true cs
    else (members, c :: cs)

/-- The beginning of a set after its bracket: whether the set is meant without a caret, and what
dashes or a bracket right at the beginning stand for. -/
def setOpening : Read (Bool × Members) := do
  skipSpace
  let positive ← match ← rest with
    | '^' :: cs => do
      goTo cs
      skipSpace
      pure false
    | _ => pure true
  let (dashes, after) := leadingDashes (← flags).spaced {} false (← rest)
  let (members, after) := match after with
    | ']' :: cs => if dashes.count = 0 then (dashes.addChar ']', cs) else (dashes, after)
    | _ => (dashes, after)
  if members.count ≠ 0 then requireCases
  goTo after
  return (positive, members)

/-- Joins the members of a set with what an operation before them waits for. -/
def operate (pending : Option Pending) (members : Members) : Read SetPiece := do
  let right := members.toPiece
  match pending with
  | none => return right
  | some ⟨operation, left⟩ =>
    return { set := operation left.set (← cased right.set)
             depth := max left.depth right.depth + 1 }

/-- Reads up to the closing bracket of a set. The opening brackets that follow may be nested
`levels` deep. Each round reads at least one character, so the length of the text, which is less
than `fuel`, bounds their number. -/
def setBody (fuel levels : Nat) (pending : Option Pending) (members : Members) : Read SetPiece := do
  match fuel with
  | 0 => failure
  | fuel + 1 =>
    skipSpace
    match ← rest with
    | [] => failure
    | '[' :: cs =>
      match namedSet? cs with
      | some (named, positive, after) =>
        goTo after
        let set ← namedMember named positive
        setBody fuel levels pending (members.add { set })
      | none =>
        match levels with
        | 0 => failure
        | levels + 1 =>
          goTo cs
          let (positive, opening) ← setOpening
          let inner ← setBody fuel levels none opening
          let set ← closed inner.set positive
          setBody fuel (levels + 1) pending (members.add { set, depth := inner.depth + 1 })
    | ']' :: cs =>
      goTo cs
      operate pending members
    | c :: cs =>
      match cs.head?.bind (setOperation? c) with
      | some operation =>
        goTo (cs.drop 1)
        let left ← operate pending members
        setBody fuel levels (some ⟨operation, { left with set := ← cased left.set }⟩) {}
      | none =>
        let set ← member
        setBody fuel levels pending (members.add { set })

/-- A set after its opening bracket, with the depth of what is inside its brackets. -/
def bracketed (fuel levels : Nat) : Read SetPiece := do
  let (positive, opening) ← setOpening
  let inner ← setBody fuel levels none opening
  return { inner with set := ← closed inner.set positive }

end Read

end Pattern

end Trivalent
