import Trivalent.Text

/-!
# Sets of characters

A set of characters is a list of closed ranges of code points. The ranges are kept in increasing
order, apart from each other and not adjacent, so that a set has one form only and the number of
its ranges means something. The code points from `D800` to `DFFF` stand for no character, and no
range begins or ends there.

* `CharSet.ofRanges`, `CharSet.union` -- the set with some ranges, and the members of either set;
* `CharSet.inter`, `CharSet.minus`, `CharSet.differ` -- the other operations on two sets;
* `CharSet.complement` -- the ranges between those of a set. Between a range that ends with `D7FF`
  and one that begins with `E000` there is no character. The range that takes its place is the one
  with these two ends, so the ranges of a complement can be adjacent;
* `CharSet.anyCase` -- the same ASCII letters in either case.
-/

namespace Trivalent

/-- A set of characters, as closed ranges of code points. -/
structure CharSet where
  ranges : List (Nat × Nat) := []
  deriving DecidableEq, Repr, Hashable

namespace CharSet

/-- The last code point. -/
def lastCode : Nat := 0x10FFFF

/-- The code point after another, where the gap in the middle is stepped over. -/
def codeAfter (code : Nat) : Nat := if code = 0xD7FF then 0xE000 else code + 1

/-- The code point before another, where the gap in the middle is stepped over. -/
def codeBefore (code : Nat) : Nat := if code = 0xE000 then 0xD7FF else code - 1

/-! ## 1. Ranges -/

/-- Joins a range with those after it that it touches, where all are in increasing order. -/
def joinFrom : Nat × Nat → List (Nat × Nat) → List (Nat × Nat)
  | r, [] => [r]
  | (a, b), (c, d) :: ranges =>
    if c ≤ b + 1 then joinFrom (a, max b d) ranges else (a, b) :: joinFrom (c, d) ranges

/-- Joins the ranges that touch, where all are in increasing order. -/
def joinRanges : List (Nat × Nat) → List (Nat × Nat)
  | [] => []
  | r :: ranges => joinFrom r ranges

/-- What two lists of ranges in increasing order have in common. -/
def interRanges : List (Nat × Nat) → List (Nat × Nat) → List (Nat × Nat)
  | [], _ => []
  | _, [] => []
  | (a, b) :: as, (c, d) :: bs =>
    let later := if b < d then interRanges as ((c, d) :: bs) else interRanges ((a, b) :: as) bs
    if max a c ≤ min b d then (max a c, min b d) :: later else later
termination_by as bs => as.length + bs.length

/-- What the first of two lists of ranges in increasing order has beyond the second. -/
def minusRanges : List (Nat × Nat) → List (Nat × Nat) → List (Nat × Nat)
  | [], _ => []
  | as, [] => as
  | (a, b) :: as, (c, d) :: bs =>
    if d < a then minusRanges ((a, b) :: as) bs
    else if b < c then (a, b) :: minusRanges as ((c, d) :: bs)
    else
      let later :=
        if d < b then minusRanges ((codeAfter d, b) :: as) bs else minusRanges as ((c, d) :: bs)
      if a < c then (a, codeBefore c) :: later else later
termination_by as bs => as.length + bs.length

/-- The ranges between those of a list in increasing order, and after the last, where `code` is the
last code point before the list. -/
def gapsAfter : Nat → List (Nat × Nat) → List (Nat × Nat)
  | code, [] => if code < lastCode then [(codeAfter code, lastCode)] else []
  | code, (a, b) :: ranges =>
    (min (codeAfter code) (codeBefore a), max (codeAfter code) (codeBefore a)) :: gapsAfter b ranges

/-- The ranges before, between and after those of a list in increasing order. -/
def gaps : List (Nat × Nat) → List (Nat × Nat)
  | [] => [(0, lastCode)]
  | (a, b) :: ranges =>
    if 0 < a then (0, codeBefore a) :: gapsAfter b ranges else gapsAfter b ranges

/-- The ASCII letters of a range in the other case. -/
def otherCase : Nat × Nat → List (Nat × Nat)
  | (first, last) =>
    let shifted (low high : Nat) (shift : Nat → Nat) : List (Nat × Nat) :=
      let (first, last) := (max first low, min last high)
      if first ≤ last then [(shift first, shift last)] else []
    shifted 0x41 0x5A (· + 32) ++ shifted 0x61 0x7A (· - 32)

/-! ## 2. Sets -/

/-- The set without members. -/
def none : CharSet := {}

/-- The characters between two. -/
def range (first last : Char) : CharSet := ⟨[(first.toNat, last.toNat)]⟩

/-- The set of one character. -/
def single (c : Char) : CharSet := range c c

/-- Whether a character is in the set. -/
def contains (set : CharSet) (c : Char) : Bool := Text.inRanges set.ranges c.toNat

/-- The only member of a set that has just one. -/
def single? (set : CharSet) : Option Char :=
  match set.ranges with
  | [(first, last)] => if first = last then some (Char.ofNat first) else Option.none
  | _ => Option.none

/-- Whether the set has no members. -/
def isEmpty (set : CharSet) : Bool := set.ranges.isEmpty

/-- Whether all members are ASCII characters. -/
def isAscii (set : CharSet) : Bool := set.ranges.all fun (_, last) => last < 128

/-- The set with some ranges, in whatever order. -/
def ofRanges (ranges : List (Nat × Nat)) : CharSet :=
  ⟨joinRanges (ranges.mergeSort fun r s => r.1 ≤ s.1)⟩

/-- The members of either set. -/
def union (a b : CharSet) : CharSet := ofRanges (a.ranges ++ b.ranges)

/-- What is not in the set. -/
def complement (set : CharSet) : CharSet := ⟨gaps set.ranges⟩

/-- The members of both sets. -/
def inter (a b : CharSet) : CharSet := ⟨interRanges a.ranges b.ranges⟩

/-- The members of the first set only. -/
def minus (a b : CharSet) : CharSet := ⟨minusRanges a.ranges b.ranges⟩

/-- The members of one of the sets only. -/
def differ (a b : CharSet) : CharSet := (a.union b).minus (a.inter b)

/-- The set with its ASCII letters in either case. -/
def anyCase (set : CharSet) : CharSet :=
  ofRanges (set.ranges ++ set.ranges.flatMap otherCase)

/-- The union of several sets. -/
def unionAll (sets : List CharSet) : CharSet := ofRanges (sets.flatMap (·.ranges))

/-! ## 3. Some sets -/

/-- The ASCII digits. -/
def digits : CharSet := range '0' '9'

/-- The ASCII letters. -/
def letters : CharSet := (range 'A' 'Z').union (range 'a' 'z')

/-- The characters of a word: ASCII letters, digits and the underscore. -/
def wordChars : CharSet := unionAll [digits, letters, single '_']

/-- The ASCII white space. -/
def blanks : CharSet := (range '\t' '\r').union (single ' ')

end CharSet

end Trivalent
