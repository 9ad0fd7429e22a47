import Mathlib.Logic.Function.Iterate
import Trivalent.Proofs.Value.Algebra

/-!
# Bringing two tables to one size

The connectives stretch the shorter of two tables before they combine the rows. A disjunction only
doubles. A conjunction halves its left table before each doubling and doubles it as it is where that
leads nowhere, while its right table is only doubled; so the two operands are not treated alike, and
the left one changes on the way in more than one direction.

* `Rows.Loops` -- a loop over rows, pass by pass; `Rows.loops_stretch` -- **the loops end**;
* `Rows.Evens` -- the two loops of a connective, which leave both tables with as many rows as the
  longer one has; `Rows.evens_stretch`;
* `Rows.stretch_both` -- which table is stretched first does not matter;
* `Value.or_comm`, `Value.and_comm` -- so the connectives are commutative, as the values are written;
* `Value.padding_harmless` -- **halving on the way up changes nothing**: a conjunction is the
  row-wise minimum of tables that have only been doubled.
-/

namespace Trivalent

/-! ## 1. Loops -/

namespace Rows

/-- A loop that goes on while there are fewer than `size` rows: it makes `passes` passes and stops
at `last`. -/
structure Loops (pass : List Bool → List Bool) (size passes : Nat) (rows last : List Bool) :
    Prop where
  last_eq : last = pass^[passes] rows
  running : ∀ k < passes, (pass^[k] rows).length < size
  stopped : size ≤ last.length

/-- One more pass at the start. -/
theorem Loops.succ {pass : List Bool → List Bool} {size passes : Nat} {rows last : List Bool}
    (hlt : rows.length < size) (h : Loops pass size passes (pass rows) last) :
    Loops pass size (passes + 1) rows last where
  last_eq := by rw [Function.iterate_succ_apply, h.last_eq]
  running k hk := by
    cases k with
    | zero => exact hlt
    | succ k =>
        rw [Function.iterate_succ_apply]
        exact h.running k (Nat.lt_of_succ_lt_succ hk)
  stopped := h.stopped

/-- **Doubling comes to an end.** -/
theorem loops_stretch (size : Nat) {rows : List Bool} (h : 0 < rows.length) :
    ∃ passes, Loops double size passes rows (stretch size rows) := by
  fun_induction stretch size rows with
  | case1 rows hlt ih =>
      obtain ⟨passes, hloops⟩ := ih (by rw [length_double]; omega)
      exact ⟨passes + 1, hloops.succ hlt.2⟩
  | case2 rows hge => exact ⟨0, rfl, fun k hk => absurd hk (Nat.not_lt_zero k), by omega⟩

/-- The two loops of a connective: the left rows are brought to the size of the right ones in `n`
passes, and then the right rows to the size of the left ones in `m`. Both end with as many rows as
the longer table has. -/
structure Evens (pass : List Bool → List Bool) (n m : Nat) (r s r' s' : List Bool) : Prop where
  left : Loops pass s.length n r r'
  right : Loops double r'.length m s s'
  length_left : r'.length = max r.length s.length
  length_right : s'.length = max r.length s.length

theorem evens_stretch {r s : List Bool} (hr : WellFormed r) (hs : WellFormed s) :
    ∃ n m, Evens double n m r s (stretch s.length r) (stretch (stretch s.length r).length s) := by
  have hlength : (stretch s.length r).length = max r.length s.length := by
    obtain ⟨k, hk⟩ := hs
    rw [hk, length_stretch hr]
  obtain ⟨n, hn⟩ := loops_stretch s.length (Nat.lt_of_lt_of_le Nat.two_pos hr.two_le)
  obtain ⟨m, hm⟩ := loops_stretch (stretch s.length r).length
    (Nat.lt_of_lt_of_le Nat.two_pos hs.two_le)
  exact ⟨n, m, hn, hm, hlength, (length_stretch_both hr hs).symm.trans hlength⟩

/-- Halving on the way up makes the same passes. -/
theorem Evens.grow {n m : Nat} {r s r' s' : List Bool} (h : Evens double n m r s r' s') :
    Evens grow n m r s r' s' := by
  have hgrow : Rows.grow = double := funext grow_eq_double
  rw [hgrow]
  exact h

/-! ## 2. The order of the operands -/

/-- Rows that are stretched to a smaller size stay as they are. -/
theorem stretch_max (size : Nat) (rows : List Bool) :
    stretch (max rows.length size) rows = stretch size rows := by
  by_cases hlt : rows.length < size
  · rw [Nat.max_eq_right (Nat.le_of_lt hlt)]
  · rw [Nat.max_eq_left (Nat.le_of_not_lt hlt), stretch, if_neg (by omega), stretch,
      if_neg (by omega)]

/-- Stretched one after the other, both tables are stretched to the size of the longer one. -/
theorem stretch_both {r s : List Bool} (hr : WellFormed r) (hs : WellFormed s) :
    stretch s.length r = stretch (max r.length s.length) r
      ∧ stretch (stretch s.length r).length s = stretch (max r.length s.length) s := by
  refine ⟨(stretch_max s.length r).symm, ?_⟩
  obtain ⟨n, m, heven⟩ := evens_stretch hr hs
  rw [heven.length_left]

/-- Rows that are combined can be given in either order. -/
theorem combined_comm {op : Bool → Bool → Bool} (hop : ∀ x y, op x y = op y x) {r s : List Bool}
    (hr : WellFormed r) (hs : WellFormed s) :
    List.zipWith op (stretch s.length r) (stretch (stretch s.length r).length s)
      = List.zipWith op (stretch r.length s) (stretch (stretch r.length s).length r) := by
  obtain ⟨hleft, hright⟩ := stretch_both hr hs
  obtain ⟨hleft', hright'⟩ := stretch_both hs hr
  rw [hright, hright', hleft, hleft', Nat.max_comm s.length r.length]
  exact List.zipWith_comm_of_comm hop

end Rows

namespace Value

/-- **Disjunctions are commutative**, also as they are written. -/
theorem or_comm {a b : Value} (ha : a.WellFormed) (hb : b.WellFormed) : a.or b = b.or a := by
  cases a with
  | const x =>
      cases b with
      | const y => cases x <;> cases y <;> rfl
      | table s => cases x <;> rfl
  | table r =>
      cases b with
      | const y => cases y <;> rfl
      | table s =>
          unfold Value.or
          dsimp only
          rw [Rows.combined_comm Bool.or_comm ha hb]

/-- The conjunction of two tables, without the halving on the way. -/
theorem and_tables (r s : List Bool) :
    (table r).and (table s)
      = (table (List.zipWith (· && ·) (Rows.stretch s.length r)
          (Rows.stretch (Rows.stretch s.length r).length s))).collapse := by
  unfold Value.and
  dsimp only
  rw [Rows.stretchHalving_eq_stretch]

/-- **Conjunctions are commutative**, although only the left table is halved. -/
theorem and_comm {a b : Value} (ha : a.WellFormed) (hb : b.WellFormed) : a.and b = b.and a := by
  cases a with
  | const x =>
      cases b with
      | const y => cases x <;> cases y <;> rfl
      | table s => cases x <;> rfl
  | table r =>
      cases b with
      | const y => cases y <;> rfl
      | table s => rw [and_tables, and_tables, Rows.combined_comm Bool.and_comm ha hb]

/-! ## 3. Conjunctions -/

/-- The digit of a conjunction of rows is the smaller one. -/
theorem digits_zipWith_and (r s : List Bool) :
    (List.zipWith (· && ·) r s).map digit = List.zipWith min (r.map digit) (s.map digit) := by
  have hdigit : ∀ x y, digit (x && y) = min (digit x) (digit y) := by decide
  rw [List.map_zipWith, List.zipWith_map]
  simp only [hdigit]

/-- **Halving on the way up changes nothing.** Two regular tables are brought to one size by two
loops, those of a disjunction and those of a conjunction alike: they end, after as many passes in
both cases, with as many rows as the longer table has, and the rows that a conjunction gets by
halving are those that a disjunction gets by plain doubling. So a conjunction is the collapse of the
row-wise minimum of tables that have only been doubled. Both connectives give the same digits if
their operands, which may be constants, are exchanged. -/
theorem padding_harmless {a b : Value} (ha : a.Regular) (hb : b.Regular) :
    (∀ r s, a = table r → b = table s → ∃ n m r' s',
        (r' = Rows.stretch s.length r ∧ r' = Rows.stretchHalving s.length r
          ∧ s' = Rows.stretch r'.length s)
        ∧ Rows.Evens Rows.double n m r s r' s' ∧ Rows.Evens Rows.grow n m r s r' s'
        ∧ a.or b = (table (List.zipWith (· || ·) r' s')).halve.collapse
        ∧ a.and b = (table (List.zipWith (· && ·) r' s')).collapse
        ∧ (List.zipWith (· && ·) r' s').map digit
          = List.zipWith min ((Rows.double^[n] r).map digit) ((Rows.double^[m] s).map digit))
      ∧ (a.or b).digits = (b.or a).digits ∧ (a.and b).digits = (b.and a).digits := by
  have ha := a.regular_iff.mp ha
  have hb := b.regular_iff.mp hb
  refine ⟨?_, by rw [or_comm ha hb], by rw [and_comm ha hb]⟩
  rintro r s rfl rfl
  obtain ⟨n, m, heven⟩ := Rows.evens_stretch ha hb
  refine ⟨n, m, _, _, ⟨rfl, (Rows.stretchHalving_eq_stretch _ _).symm, rfl⟩, heven, heven.grow, rfl,
    and_tables r s, ?_⟩
  rw [← heven.left.last_eq, ← heven.right.last_eq]
  exact digits_zipWith_and _ _

/-- A left table that can be halved, and a right one four times as long. The left one is back at its
own size after each halving and doubling, and still comes to the size of the right one. -/
theorem padding_harmless_redundant :
    ∃ r s : List Bool, (table r).digits = [1, 2, 0, 2, 0] ∧ Rows.double (Rows.halve r) = r
      ∧ (table s).digits = [1, 2, 2, 2, 2, 2, 2, 2, 2, 0, 0, 0, 0, 0, 0, 0, 0]
      ∧ (∃ n m r' s', Rows.Evens Rows.grow n m r s r' s'
        ∧ (table r).and (table s) = (table (List.zipWith (· && ·) r' s')).collapse)
      ∧ ((table r).and (table s)).digits = [1, 2, 0, 2, 0, 2, 0, 2, 0, 0, 0, 0, 0, 0, 0, 0, 0]
      ∧ ((table s).and (table r)).digits = [1, 2, 0, 2, 0, 2, 0, 2, 0, 0, 0, 0, 0, 0, 0, 0, 0] := by
  let r := [true, false, true, false]
  let s := List.replicate 8 true ++ List.replicate 8 false
  obtain ⟨heven, -, hcomm⟩ := padding_harmless (a := table r) (b := table s)
    ((table r).regular_iff.mpr ⟨1, rfl⟩) ((table s).regular_iff.mpr ⟨3, rfl⟩)
  obtain ⟨n, m, r', s', -, -, hgrow, -, hand, -⟩ := heven r s rfl rfl
  have hdigits : ((table r).and (table s)).digits
      = [1, 2, 0, 2, 0, 2, 0, 2, 0, 0, 0, 0, 0, 0, 0, 0, 0] := by
    decide +kernel
  exact ⟨r, s, rfl, by decide +kernel, rfl, ⟨n, m, r', s', hgrow, hand⟩, hdigits,
    hcomm.symm.trans hdigits⟩

end Value

end Trivalent
