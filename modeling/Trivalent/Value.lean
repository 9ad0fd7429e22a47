import Trivalent.Failure

/-!
# Truth values

A value is one of the constants `T` and `F`, or a truth table over the unsure atoms it depends on.
A table has one row for each assignment of its atoms, so its length is a power of two, at least
two. This file fixes

* `Value` -- constants and tables, with the digit sequence they stand for (`Value.digits`);
* `Value.ofRows?`, `Value.atom` -- the tables that can be written down and the table of the n-th
  unsure atom: true in its first half, false in its second;
* `Value.negate`, `Value.or`, `Value.and` -- the connectives. Tables of different size are first
  brought to one size; repeating the rows of a table adds an atom it does not depend on;
* `Value.double`, `Value.halve`, `Value.collapse` -- the steps the connectives are built from;
* `Value.text` -- the written form.

The rows are a plain list, so that every step above is a list function with the laws of lists.
-/

namespace Trivalent

/-- A truth value: a constant, or a table with one row per assignment of the unsure atoms. -/
inductive Value where
  | const (b : Bool)
  | table (rows : List Bool)
  deriving Repr

/-! ## 1. Steps on rows -/

namespace Rows

/-- The same expression seen over one more atom that it does not depend on. -/
def double (rows : List Bool) : List Bool := rows ++ rows

/-- Drops the second half when it repeats the first. Two rows are never dropped to one, and only
one step is taken. -/
def halve (rows : List Bool) : List Bool :=
  let half := rows.length / 2
  if 2 < rows.length && rows.take half == rows.drop half then rows.take half else rows

@[simp] theorem length_double (rows : List Bool) : (double rows).length = 2 * rows.length := by
  simp [double, Nat.two_mul]

/-- Doubles until there are at least `size` rows. No rows stay no rows. -/
def stretch (size : Nat) (rows : List Bool) : List Bool :=
  if 0 < rows.length ∧ rows.length < size then stretch size (double rows) else rows
termination_by size - rows.length
decreasing_by simp only [length_double]; omega

/-- One step of `stretchHalving`: halve, then double. Where that gives nothing new, double. -/
def grow (rows : List Bool) : List Bool :=
  let grown := double (halve rows)
  if rows.length < grown.length then grown else double rows

theorem length_lt_grow {rows : List Bool} (h : 0 < rows.length) :
    rows.length < (grow rows).length := by
  simp only [grow]
  split
  · assumption
  · simp only [length_double]; omega

/-- Grows until there are at least `size` rows, halving before each doubling. -/
def stretchHalving (size : Nat) (rows : List Bool) : List Bool :=
  if 0 < rows.length ∧ rows.length < size then stretchHalving size (grow rows) else rows
termination_by size - rows.length
decreasing_by
  rename_i h
  have := length_lt_grow h.1
  omega

end Rows

namespace Value

/-! ## 2. Forms of a value -/

/-- Equality runs along the rows in constant space, tables being as long as they are. -/
protected def beq : Value → Value → Bool
  | const a, const b => a == b
  | table r, table s => r == s
  | _, _ => false

instance : BEq Value := ⟨Value.beq⟩

instance : LawfulBEq Value where
  eq_of_beq {v w} h :=
    match v, w, h with
    | const _, const _, h => congrArg const (eq_of_beq h)
    | table _, table _, h => congrArg table (eq_of_beq h)
  rfl {v} :=
    match v with
    | const b => beq_self_eq_true b
    | table rows => beq_self_eq_true rows

instance : DecidableEq Value := fun v w => decidable_of_iff (v == w) beq_iff_eq

/-- The digit of a row. -/
def digit (row : Bool) : Nat := if row then 2 else 0

/-- The digits of a value: `2` for `T`, `0` for `F`, and the header `1` before the rows of a
table. -/
def digits : Value → List Nat
  | const b => [digit b]
  | table rows => 1 :: rows.map digit

/-- The rows of a table; constants have none. -/
def rows : Value → List Bool
  | const _ => []
  | table rows => rows

/-- The constant `T`. -/
def isTrue (v : Value) : Bool := v == const true

/-- The constant `F`. -/
def isFalse (v : Value) : Bool := v == const false

/-- A value with at least one row. -/
def isTable (v : Value) : Bool := !v.rows.isEmpty

/-- The written form: `T`, `F`, or the rows of a table in brackets. -/
def text : Value → String
  | const true => "T"
  | const false => "F"
  | table rows =>
    "U[" ++ " ".intercalate (rows.map fun row => if row then "2" else "0") ++ "]"

/-- Whether a number is a power of two. -/
def isPowerOfTwo (n : Nat) : Bool := n != 0 && n &&& (n - 1) == 0

/-- The row a digit stands for. -/
def rowOfDigit? : Nat → Option Bool
  | 2 => some true
  | 0 => some false
  | _ => none

/-- The table with the given rows, if there are two, four, eight, … of them and each is `2`
or `0`. -/
def ofRows? (digits : List Nat) : Option Value :=
  if 2 ≤ digits.length && isPowerOfTwo digits.length then
    (digits.mapM rowOfDigit?).map table
  else none

/-- The table of the unsure atom with number `n`, counted from one; zero counts as one. It has
`2 ^ n` rows, which a machine word has to count: at 64 they are all shifted out of the word, and a
larger number cannot be shifted by at all. -/
def atom (n : Nat) : Except Fault Value :=
  let n := max n 1
  if 64 < n then .error .shiftOverflow
  else
    let half := Nat.pow 2 n % (maxWord + 1) / 2
    if (maxWord + 1) / 4 ≤ half then .error .tableOverflow
    else .ok (table (List.replicate half true ++ List.replicate half false))

/-! ## 3. Negation and the steps towards a normal form -/

/-- Negation. -/
def negate : Value → Value
  | const b => const (!b)
  | table rows => table (rows.map (!·))

/-- Repeats the rows of a table. -/
def double : Value → Value
  | const b => const b
  | table rows => table (Rows.double rows)

/-- Drops the second half of a table that repeats its first half. -/
def halve : Value → Value
  | const b => const b
  | table rows => table (Rows.halve rows)

/-- A table without a true row says no more than `F`: what is contradictory for every assignment
of its atoms is contradictory. -/
def collapse : Value → Value
  | const b => const b
  | table rows => if !rows.isEmpty && rows.all (!·) then const false else table rows

/-! ## 4. Connectives -/

/-- Disjunction. `T` absorbs and `F` is neutral; two tables are stretched to one size, joined row
by row, halved and collapsed. -/
def or : Value → Value → Value
  | const true, _ => const true
  | _, const true => const true
  | const false, w => w
  | v, const false => v
  | table r, table s =>
    let r := Rows.stretch s.length r
    let s := Rows.stretch r.length s
    (table (List.zipWith (· || ·) r s)).halve.collapse

/-- Conjunction. `F` absorbs and `T` is neutral; two tables are stretched to one size, met row by
row and collapsed, but not halved. A shorter left table is halved on the way up. -/
def and : Value → Value → Value
  | const false, _ => const false
  | _, const false => const false
  | const true, w => w
  | v, const true => v
  | table r, table s =>
    let r := Rows.stretchHalving s.length r
    let s := Rows.stretch r.length s
    (table (List.zipWith (· && ·) r s)).collapse

end Value

end Trivalent
