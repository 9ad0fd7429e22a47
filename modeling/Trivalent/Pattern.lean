import Std.Data.HashSet
import Trivalent.Pattern.CharSet

/-!
# Patterns

A pattern describes texts, and occurs in a text if some part of the text is one of them. This file
fixes

* `Edge` -- conditions on a place in a text that depend on the characters beside it;
* `Pattern` -- literals, sets and edges, joined by sequence, choice and repetition;
* `Pattern.concat`, `Pattern.choice`, `Pattern.times` -- patterns in their simplest form: nothing
  empty in a sequence, one literal instead of several in a row, one set instead of a choice between
  characters, what all branches of a choice begin with in front of it, and no repetition of what is
  empty;
* `Pattern.acceptsHere` -- whether a pattern describes the empty text at a place;
* `Pattern.after` -- what is left of a pattern once it has read a character, one pattern for each
  way to read it;
* `Pattern.occursIn` -- the search. It goes through the text once and keeps what is left of every
  occurrence that has begun.

A search asks whether there is an occurrence and not which, so it makes no difference whether a
repetition is meant to be long or short.
-/

namespace Trivalent

/-! ## 1. Edges -/

/-- A condition on a place in a text. -/
inductive Edge where
  | textStart
  | textEnd
  /-- Lines end with a newline. -/
  | lineStart
  | lineEnd
  /-- Lines end with a newline, a carriage return, or both in this order. -/
  | anyLineStart
  | anyLineEnd
  /-- A word starts or ends. -/
  | wordEdge
  | noWordEdge
  | wordStart
  | wordEnd
  /-- No word reaches the place from the left. -/
  | noWordBefore
  /-- No word goes on to the right of the place. -/
  | noWordAfter
  deriving DecidableEq, Repr, Hashable

namespace Edge

/-- Whether there is a character and it belongs to a word. -/
def isWord (c : Option Char) : Bool := c.any CharSet.wordChars.contains

/-- Whether a place satisfies the condition, given the characters before and after it, if any. -/
def holds (before after : Option Char) : Edge → Bool
  | textStart => before.isNone
  | textEnd => after.isNone
  | lineStart => before.isNone || before == some '\n'
  | lineEnd => after.isNone || after == some '\n'
  | anyLineStart =>
    before.isNone || before == some '\n' || before == some '\r' && after != some '\n'
  | anyLineEnd => after.isNone || after == some '\r' || after == some '\n' && before != some '\r'
  | wordEdge => isWord before != isWord after
  | noWordEdge => isWord before == isWord after
  | wordStart => !isWord before && isWord after
  | wordEnd => isWord before && !isWord after
  | noWordBefore => !isWord before
  | noWordAfter => !isWord after

end Edge

/-! ## 2. Patterns -/

/-- A description of texts. -/
inductive Pattern where
  /-- The empty text. -/
  | empty
  /-- The given characters. -/
  | literal (chars : List Char)
  /-- One character of a set; `ascii` says that it was written as a set of ASCII characters. -/
  | one (set : CharSet) (ascii : Bool)
  /-- The empty text at a place that satisfies a condition. -/
  | edge (e : Edge)
  /-- A numbered group. -/
  | group (number : Nat) (p : Pattern)
  | seq (p q : Pattern)
  | either (p q : Pattern)
  /-- At least `min` times in a row and, if `max` is given, at most that often; as seldom as
  possible if `short` is set. -/
  | repeated (p : Pattern) (min : Nat) (max : Option Nat) (short : Bool)
  deriving DecidableEq, Repr, Hashable

namespace Pattern

/-- The parts of a sequence. -/
def parts : Pattern → List Pattern
  | empty => []
  | seq p q => p :: q.parts
  | p => [p]

/-- The branches of a choice. -/
def branches : Pattern → List Pattern
  | either p q => p :: q.branches
  | p => [p]

/-- The text of a literal. -/
def literal? : Pattern → Option (List Char)
  | literal chars => some chars
  | _ => none

/-- The set that a pattern for one character stands for, literals apart. -/
def set? : Pattern → Option CharSet
  | one set _ => some set
  | _ => none

/-- The character that a literal of length one stands for. -/
def char? : Pattern → Option Char
  | literal [c] => some c
  | _ => none

/-- One character of a set; if there is just one, a literal. The set without members is the same
however it is written. -/
def ofSet (set : CharSet) (ascii : Bool) : Pattern :=
  match set.single? with
  | some c => literal [c]
  | none => one set (ascii && !set.isEmpty)

/-- Joins literals in a row. -/
def joinLiterals : List Pattern → List Pattern :=
  List.foldr (fun p ps =>
    match p, ps with
    | literal a, literal b :: ps => literal (a ++ b) :: ps
    | p, ps => p :: ps) []

/-- Patterns in a row, put together from the right. -/
def chain (ps : List Pattern) : Pattern :=
  match ps.reverse with
  | [] => empty
  | last :: earlier => earlier.foldl (fun q p => seq p q) last

/-- Patterns in a row. -/
def concat (ps : List Pattern) : Pattern := chain (joinLiterals (ps.flatMap parts))

/-- A choice between patterns, put together from the right. -/
def fork (ps : List Pattern) : Pattern :=
  match ps.reverse with
  | [] => one .none false
  | last :: earlier => earlier.foldl (fun q p => either p q) last

/-- A choice between patterns that have nothing in front in common. A choice between characters is
a set, and so is one between sets. -/
def plainChoice (ps : List Pattern) : Pattern :=
  match ps.flatMap branches with
  | [p] => p
  | ps =>
    match ps.mapM char?, ps.mapM set? with
    | some chars, _ => ofSet (.unionAll (chars.map .single)) false
    | none, some sets => ofSet (.unionAll sets) false
    | none, none => fork ps

/-- What two lists have in common at the beginning. -/
def commonStart : List Pattern → List Pattern → List Pattern
  | p :: ps, q :: qs => if p = q then p :: commonStart ps qs else []
  | _, _ => []

/-- What the branches of a choice have in common at the beginning, if each is a sequence. -/
def sharedStart (ps : List Pattern) : List Pattern :=
  match ps.map parts with
  | [] => []
  | first :: others =>
    if (first :: others).all (2 ≤ ·.length) then others.foldl commonStart first else []

/-- A choice between patterns. What all of them begin with is taken in front. -/
def choice (ps : List Pattern) : Pattern :=
  match ps.flatMap branches with
  | [p] => p
  | ps =>
    let shared := sharedStart ps
    if shared.isEmpty then plainChoice ps
    else
      let rests := ps.map fun p => concat (p.parts.drop shared.length)
      concat (shared ++ [plainChoice rests])

/-- Whether every text of the pattern is empty. -/
def isZeroWidth : Pattern → Bool
  | empty => true
  | literal _ => false
  | one _ _ => false
  | edge _ => true
  | group _ p => p.isZeroWidth
  | seq p q => p.isZeroWidth && q.isZeroWidth
  | either p q => p.isZeroWidth && q.isZeroWidth
  | repeated p _ max _ => max.isSome && p.isZeroWidth

/-- A pattern several times in a row. The empty text does not change if it is repeated. -/
def times (p : Pattern) (min : Nat) (max : Option Nat) (short : Bool) : Pattern :=
  let (min, max) :=
    if p.isZeroWidth then (Nat.min min 1, some (Nat.min (max.getD 1) 1)) else (min, max)
  match min, max with
  | 0, some 0 => empty
  | 1, some 1 => p
  | min, max => repeated p min max short

/-! ## 3. Searching -/

/-- One pattern before another; an empty one falls away. -/
def andThen : Pattern → Pattern → Pattern
  | empty, q => q
  | p, q => seq p q

/-- Whether the pattern describes the empty text at a place, given the characters beside it. -/
def acceptsHere (before after : Option Char) : Pattern → Bool
  | empty => true
  | literal chars => chars.isEmpty
  | one _ _ => false
  | edge e => e.holds before after
  | group _ p => p.acceptsHere before after
  | seq p q => p.acceptsHere before after && q.acceptsHere before after
  | either p q => p.acceptsHere before after || q.acceptsHere before after
  | repeated p min _ _ => min == 0 || p.acceptsHere before after

/-- What is left of a repetition after one round. Where the repeated pattern accepts the empty
text, it can make up for all rounds that are still required. -/
def nextRounds (p : Pattern) (accepts : Bool) (min : Nat) (max : Option Nat) (short : Bool) :
    Pattern :=
  let min := if accepts then 0 else min - 1
  if max == some 1 then empty else repeated p min (max.map (· - 1)) short

/-- What is left of the pattern after it has read `c`, where `before` stands before `c`, in front
of `others`. -/
def after (before : Option Char) (c : Char) : Pattern → List Pattern → List Pattern
  | empty, others => others
  | literal [], others => others
  | literal [d], others => if c == d then empty :: others else others
  | literal (d :: e :: chars), others => if c == d then literal (e :: chars) :: others else others
  | one set _, others => if set.contains c then empty :: others else others
  | edge _, others => others
  | group _ p, others => p.after before c others
  | seq p q, others =>
    let others := (p.after before c []).foldl (fun others p => p.andThen q :: others) others
    if p.acceptsHere before (some c) then q.after before c others else others
  | either p q, others => q.after before c (p.after before c others)
  | repeated p min max short, others =>
    if max == some 0 then others
    else
      let next := nextRounds p (p.acceptsHere before (some c)) min max short
      (p.after before c []).foldl (fun others p => p.andThen next :: others) others

/-- The patterns of a list, each once. -/
def distinct (ps : List Pattern) : List Pattern :=
  if ps.length ≤ 16 then ps.eraseDups
  else (Std.HashSet.ofList ps).toList

/-- Searches for an occurrence that begins in `text` or is one of those begun earlier, of which
`begun` is left. -/
def search (p : Pattern) (before : Option Char) (begun : List Pattern) : List Char → Bool
  | [] => (p :: begun).any (acceptsHere before none)
  | c :: text =>
    (p :: begun).any (acceptsHere before (some c))
      || search p (some c)
          (distinct ((p :: begun).foldl (fun others p => p.after before c others) [])) text

/-- Whether the pattern occurs in a text. -/
def occursIn (p : Pattern) (text : String) : Bool := p.search none [] text.toList

end Pattern

end Trivalent
