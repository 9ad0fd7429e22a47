import Trivalent.Pattern.CharSet

/-!
# Characters as bytes

The bytes of characters in UTF-8, and of ranges of characters.

* `utf8Bytes` -- the bytes of a code point;
* `byteSequences` -- a range of code points as sequences of byte ranges. Each sequence stands for
  all ways to pick a byte from each of its ranges.
-/

namespace Trivalent

/-- The bytes of a code point. -/
def utf8Bytes (code : Nat) : List Nat :=
  if code < 0x80 then [code]
  else if code < 0x800 then [0xC0 + code / 0x40, 0x80 + code % 0x40]
  else if code < 0x10000 then
    [0xE0 + code / 0x1000, 0x80 + code / 0x40 % 0x40, 0x80 + code % 0x40]
  else
    [0xF0 + code / 0x40000, 0x80 + code / 0x1000 % 0x40, 0x80 + code / 0x40 % 0x40,
      0x80 + code % 0x40]

/-- Where a range is cut because its ends differ above the last digits to a base: behind the block
of its first code point, or before the block of its last, if that block is not whole. -/
def blockCut (first last base : Nat) : Option Nat :=
  if first / base = last / base then none
  else if first % base ≠ 0 then some (first / base * base + (base - 1))
  else if last % base ≠ base - 1 then some (last / base * base - 1)
  else none

/-- Where a range of code points is cut in two, if its code points are not written as one sequence
of byte ranges: the last code point before the cut. The gap in the middle comes first, then the
numbers of bytes, then the blocks of code points that differ in their last bytes only. -/
def rangeCut (first last : Nat) : Option Nat :=
  if first < 0xE000 ∧ 0xD7FF < last then some 0xD7FF
  else
    match [0x7F, 0x7FF, 0xFFFF].find? fun most => first ≤ most && most < last with
    | some most => some most
    | none =>
      if last < 0x80 then none
      else [0x40, 0x1000, 0x40000].findSome? (blockCut first last)

/-- The sequences of byte ranges that a range of code points is written in. -/
def byteSequences (first last : Nat) : List (List (Nat × Nat)) :=
  match rangeCut first last with
  | none => [(utf8Bytes first).zip (utf8Bytes last)]
  | some cut =>
    if _h : first ≤ cut ∧ cut < last then
      byteSequences first cut ++ byteSequences (CharSet.codeAfter cut) last
    else []
termination_by last + 1 - first
decreasing_by
  · omega
  · simp only [CharSet.codeAfter]
    split <;> omega

/-- The sequences of byte ranges that the characters of a set are written in. -/
def CharSet.byteSequences (set : CharSet) : List (List (Nat × Nat)) :=
  set.ranges.flatMap fun (first, last) => Trivalent.byteSequences first last

/-- The bytes of a text. -/
def textBytes (chars : List Char) : List Nat := chars.flatMap fun c => utf8Bytes c.toNat

end Trivalent
