import Trivalent.Pattern
import Trivalent.Pattern.Bytes

/-!
# Needles

A needle is a text, as bytes, with which an occurrence of a pattern can begin. A needle is exact if
the occurrence can end with it, and then does not go on. A pattern of which all needles are known
and exact stands for a choice between these texts, and can be searched for without an automaton.

Needles are looked for within limits: there are at most 250 of at most 100 bytes each, a set with
more than 10 members stands for anything, and a repetition is followed up to ten times. Needles
with which a search would not be fast are shortened, so that they are no longer exact.

* `Needles` -- the needles of a pattern, if they are known;
* `Needles.cross`, `Needles.union` -- the needles of a sequence and of a choice;
* `Pattern.needles` -- the needles of a pattern;
* `Needle.tuned` -- the needles that are best to search for;
* `Pattern.isLiteralSearch` -- whether a pattern stands for a choice between its needles.
-/

namespace Trivalent

/-- A text with which an occurrence can begin. -/
structure Needle where
  bytes : List Nat := []
  /-- The occurrence can end here and does not go on. -/
  exact : Bool := true
  deriving DecidableEq, Repr

/-! ## 1. Lists of needles -/

namespace Needle

/-- The needle as one that is not exact. -/
def inexact (needle : Needle) : Needle := { needle with exact := false }

/-- The first bytes of a needle; what is cut off makes it one that is not exact. -/
def keepFirst (count : Nat) (needle : Needle) : Needle :=
  if needle.bytes.length ≤ count then needle
  else { bytes := needle.bytes.take count, exact := false }

/-- Puts a needle before others, and joins it with an equal one. -/
def cons (needle : Needle) : List Needle → List Needle
  | [] => [needle]
  | other :: others =>
    if needle.bytes = other.bytes then
      { other with exact := needle.exact && other.exact } :: others
    else needle :: other :: others

/-- Joins equal needles in a row. -/
def joinEqual (needles : List Needle) : List Needle := needles.foldr cons []

/-- A needle after another, unless that one is not exact. -/
def follow (needle : Needle) (others : List Needle) : List Needle :=
  if needle.exact then others.map fun other => { other with bytes := needle.bytes ++ other.bytes }
  else [needle]

/-- The needles without those that begin with an earlier one. -/
def withoutLonger (needles : List Needle) : List Needle :=
  (needles.foldl (fun kept needle =>
    if kept.any fun other => other.bytes.isPrefixOf needle.bytes then kept
    else needle :: kept) []).reverse

/-- What two lists of bytes have in common at the beginning. -/
def commonBytes : List Nat → List Nat → List Nat
  | a :: as, b :: bs => if a = b then a :: commonBytes as bs else []
  | _, _ => []

/-- What all needles have in common at the beginning. -/
def sharedBytes : List Needle → List Nat
  | [] => []
  | needle :: needles =>
    needles.foldl (fun bytes other => commonBytes bytes other.bytes) needle.bytes

/-- The ASCII characters that are frequent in texts. -/
def frequentChars : String := "\n\r (),-./0129:_abcdefghilmnoprstuvxy|"

/-- Whether a byte is frequent in texts. All bytes beyond ASCII that begin a character are. -/
def isFrequent (byte : Nat) : Bool :=
  128 ≤ byte || frequentChars.toList.any (·.toNat == byte)

/-- Shortens the needles so long as there are too many of them: each pair gives a number of bytes
to keep and the number of needles from which on this is done. -/
def shorten : List (Nat × Nat) → List Needle → List Needle
  | [], needles => needles
  | (count, limit) :: attempts, needles =>
    if needles.length ≤ limit then needles
    else shorten attempts (withoutLonger (needles.map (keepFirst count)))

/-- The pairs for `shorten`. -/
def attempts : List (Nat × Nat) := [(5, 10), (4, 10), (3, 64), (2, 64), (1, 10)]

/-- The needles that are best to search for, of `needles`, none of which is empty. If they begin
alike, what they begin with is taken instead of them: a byte that is rare, or a text that is
long. Many needles are shortened, unless that makes them too short or leaves too many of them. -/
def tuned (needles : List Needle) : List Needle :=
  let kept := withoutLonger needles
  let shared := sharedBytes kept
  if 1 < needles.length && shared.length ≤ 3 && shared.head?.any (!isFrequent ·) then
    joinEqual (kept.map (keepFirst 1))
  else
    let fast := kept.all (·.exact) && kept.length ≤ 16
    let kept :=
      if 4 < shared.length || 1 < shared.length && !fast then
        joinEqual (kept.map (keepFirst shared.length))
      else kept
    let short := shorten attempts kept
    if kept.all (·.exact) && (short.any (·.bytes.length ≤ 2) || 64 < short.length) then kept
    else short

end Needle

/-! ## 2. Needles of sequences and choices -/

/-- The needles of a pattern, if they are known; otherwise an occurrence can begin with
anything. -/
abbrev Needles := Option (List Needle)

namespace Needles

/-- The most needles of a pattern. -/
def maxCount : Nat := 250

/-- The most bytes of a needle. -/
def maxLength : Nat := 100

/-- The most members of a set of which each is a needle. -/
def maxMembers : Nat := 10

/-- The most rounds of a repetition that are followed. -/
def maxRounds : Nat := 10

/-- The needles of the empty text. -/
def nothing : Needles := some [{}]

/-- The needles as ones that are not exact. -/
def inexact (needles : Needles) : Needles := needles.map (·.map Needle.inexact)

/-- Whether there is no needle that something could be added to. -/
def isInexact (needles : Needles) : Bool := needles.all (·.all (!·.exact))

/-- The needles of a pattern before another. -/
def cross (first second : Needles) : Needles :=
  match first with
  | none => none
  | some needles =>
    let anything : Needles :=
      if needles.any (·.bytes.isEmpty) then none else some (needles.map Needle.inexact)
    let crossed : Needles := match second with
      | none => anything
      | some others =>
        if maxCount < needles.length * others.length then anything
        else some (Needle.joinEqual (needles.flatMap fun needle => needle.follow others))
    crossed.map fun needles => needles.map (Needle.keepFirst maxLength)

/-- The needles of either of two patterns. If there are too many, they are shortened to four
bytes. -/
def union (first second : Needles) : Needles :=
  match first, second with
  | some needles, some others =>
    if needles.length + others.length ≤ maxCount then some (Needle.joinEqual (needles ++ others))
    else
      let needles := Needle.joinEqual (needles.map (Needle.keepFirst 4))
      let others := Needle.joinEqual (others.map (Needle.keepFirst 4))
      if needles.length + others.length ≤ maxCount then
        some (Needle.joinEqual (needles ++ others))
      else none
  | _, _ => none

/-- The needles of one character of a set. -/
def ofSet (set : CharSet) : Needles :=
  if maxMembers < set.ranges.foldl (fun count (first, last) => count + (last + 1 - first)) 0 then
    none
  else
    some (set.ranges.flatMap fun (first, last) =>
      (List.range (last + 1 - first)).map fun i => { bytes := utf8Bytes (first + i) })

/-- The needles of a pattern several times in a row, up to the number of rounds that are
followed. -/
def rounds (needles : Needles) : Nat → Needles → Needles
  | 0, sofar => sofar
  | count + 1, sofar =>
    if sofar.isInexact then sofar else rounds needles count (sofar.cross needles)

/-- The needles of a repetition. -/
def repeated (needles : Needles) (min : Nat) (max : Option Nat) (short : Bool) : Needles :=
  if min = 0 then
    let once := if max == some 1 then needles else needles.inexact
    if short then nothing.union once else once.union nothing
  else
    let several := rounds needles (Nat.min min maxRounds) nothing
    if max == some min && min ≤ maxRounds then several else several.inexact

/-- What is done with the needles of a pattern. -/
inductive Use where
  /-- The pattern comes after one with the given needles. -/
  | after (first : Needles)
  /-- The pattern is a choice beside one with the given needles. -/
  | beside (first : Needles)
  deriving DecidableEq, Repr

/-- Puts the needles of a pattern to their use. -/
def Use.apply : Use → Needles → Needles
  | after first, needles => if first.isInexact then first else first.cross needles
  | beside first, needles => first.union needles

end Needles

/-! ## 3. Needles of patterns -/

namespace Pattern

/-- Puts the needles of a pattern to their use. -/
def useNeedles (use : Needles.Use) : Pattern → Needles
  | empty => use.apply .nothing
  | literal chars =>
    use.apply (some [Needle.keepFirst Needles.maxLength { bytes := textBytes chars }])
  | one set _ => use.apply (Needles.ofSet set)
  | edge _ => use.apply .nothing
  | group _ p => use.apply (p.useNeedles (.after .nothing))
  | seq p q =>
    match use with
    | .after _ => q.useNeedles (.after (p.useNeedles use))
    | use => use.apply (q.useNeedles (.after (p.useNeedles (.after .nothing))))
  | either p q =>
    match use with
    | .beside _ => q.useNeedles (.beside (p.useNeedles use))
    | use => use.apply (q.useNeedles (.beside (p.useNeedles (.beside (some [])))))
  | repeated p min max short =>
    use.apply ((p.useNeedles (.after .nothing)).repeated min max short)

/-- The needles of a pattern. -/
def needles (p : Pattern) : Needles := p.useNeedles (.after .nothing)

/-- Whether the pattern is made up of characters only, without groups and edges. -/
def isPlain : Pattern → Bool
  | empty => true
  | literal _ => true
  | one _ _ => true
  | edge _ => false
  | group _ _ => false
  | seq p q => p.isPlain && q.isPlain
  | either p q => p.isPlain && q.isPlain
  | repeated p _ _ _ => p.isPlain

/-- Whether the pattern stands for a choice between literals that is searched for as such. -/
def isLiteralSearch (p : Pattern) : Bool :=
  p.isPlain && p.needles.any fun needles =>
    needles.all (!·.bytes.isEmpty) && !needles.isEmpty
      && (Needle.tuned needles).all (·.exact)

end Pattern

end Trivalent
