import Mathlib.Order.Bounds.Basic
import Trivalent.Proofs.Value.Padding

/-!
# Normal forms of tables

One function of the atoms has a table of every size that is large enough. Doubling and halving lead
from one of them to the next, and halving again and again leads to the smallest: the number of its
rows is the smallest period of the table among two, four, eight, …. Collapsing takes the tables
without a true row to `F`. None of this is disturbed by negation.

* `Rows.halve_double`, `Rows.map_halve` -- halving after doubling, and under negation;
* `Rows.Period` -- the numbers of rows that a table can be cut to: two, four, eight, … rows with
  which it repeats;
* `Rows.length_le_of_period` -- a table that cannot be halved has no smaller period;
  `Rows.isLeast_of_halve` -- halving keeps the least period;
* `Rows.exists_least_period` -- **halving comes to the least period**, by induction on the exponent;
* `Value.collapse_eq_false_iff` -- what collapses to `F`;
* `Value.normalizes` -- **the laws of the steps towards a normal form**, and of the constants beside
  any value.
-/

namespace Trivalent

namespace Rows

/-! ## 1. Halving and doubling -/

/-- Rows are halved if there are more than two and the second half repeats the first. -/
theorem halve_eq (rows : List Bool) :
    halve rows
      = if 2 < rows.length ∧ rows.take (rows.length / 2) = rows.drop (rows.length / 2) then
          rows.take (rows.length / 2)
        else rows := by
  unfold halve
  simp only [Bool.and_eq_true, decide_eq_true_eq, beq_iff_eq]

/-- **Halving undoes doubling**, where there are two rows at least. -/
theorem halve_double {rows : List Bool} (h : 2 ≤ rows.length) : halve (double rows) = rows := by
  have hhalf : 2 * rows.length / 2 = rows.length := by omega
  rw [halve_eq, length_double, hhalf]
  unfold double
  rw [List.take_left, List.drop_left, if_pos ⟨by omega, rfl⟩]

/-- Two halves that differ still differ when all rows are negated. -/
theorem map_halve (rows : List Bool) : (halve rows).map (!·) = halve (rows.map (!·)) := by
  have hnot : Function.Injective (!· : Bool → Bool) := fun a b h => Bool.not_inj h
  have hsame := (List.map_injective_iff.mpr hnot).eq_iff
    (a := rows.take (rows.length / 2)) (b := rows.drop (rows.length / 2))
  rw [halve_eq, halve_eq, List.length_map, ← List.map_take, ← List.map_drop]
  simp only [hsame]
  split
  · rfl
  · rfl

/-! ## 2. Periods -/

/-- Rows that repeat after every `n` of them. -/
def Repeats (rows : List Bool) (n : Nat) : Prop :=
  ∀ i, i < rows.length → rows[i]? = rows[i % n]?

/-- Two, four, eight, … rows with which a table repeats. -/
structure Period (rows : List Bool) (n : Nat) : Prop where
  two_le : 2 ≤ n
  power : ∃ k, n = 2 ^ k
  repeats : Repeats rows n

/-- A table repeats with all of its rows. -/
theorem WellFormed.period {rows : List Bool} (h : WellFormed rows) : Period rows rows.length where
  two_le := h.two_le
  power := let ⟨k, hk⟩ := h; ⟨k + 1, hk⟩
  repeats i hi := by rw [Nat.mod_eq_of_lt hi]

/-- **A table that cannot be halved has no smaller period.** -/
theorem length_le_of_period {rows : List Bool} {n : Nat} (h : WellFormed rows)
    (hfixed : halve rows = rows) (hn : Period rows n) : rows.length ≤ n := by
  refine Nat.le_of_not_lt fun hlt => ?_
  obtain ⟨k, hk⟩ := h
  obtain ⟨m, hm⟩ := hn.power
  have htwo := hn.two_le
  have hhalf : rows.length / 2 = 2 ^ k := by rw [hk, Nat.pow_succ]; omega
  have hdvd : n ∣ rows.length / 2 := by
    rw [hk, hm] at hlt
    rw [hhalf, hm]
    exact Nat.pow_dvd_pow 2 (Nat.le_of_lt_succ ((Nat.pow_lt_pow_iff_right (by omega)).mp hlt))
  -- a period divides half of the rows, so the second half repeats the first
  have hsame : rows.take (rows.length / 2) = rows.drop (rows.length / 2) := by
    refine List.ext_getElem? fun i => ?_
    rw [List.getElem?_drop]
    by_cases hi : i < rows.length / 2
    · rw [List.getElem?_take_of_lt hi, hn.repeats i (by omega),
        hn.repeats (rows.length / 2 + i) (by omega), Nat.add_mod, Nat.mod_eq_zero_of_dvd hdvd,
        Nat.zero_add, Nat.mod_mod]
    · rw [List.getElem?_eq_none (by rw [List.length_take]; omega),
        List.getElem?_eq_none (by rw [hk, Nat.pow_succ] at *; omega)]
  rw [halve_eq, if_pos ⟨by omega, hsame⟩] at hfixed
  have hlength := congrArg List.length hfixed
  rw [List.length_take] at hlength
  omega

/-- Rows repeat as they do when they are written twice. -/
theorem Repeats.of_double {rows : List Bool} {n : Nat} (h : Repeats (double rows) n) :
    Repeats rows n := by
  intro i hi
  have hmod : i % n < rows.length := Nat.lt_of_le_of_lt (Nat.mod_le i n) hi
  have hrow := h i (by rw [length_double]; omega)
  unfold double at hrow
  rwa [List.getElem?_append_left hi, List.getElem?_append_left hmod] at hrow

/-- Rows written twice repeat as they did before, if the period divides their number. -/
theorem Repeats.double {rows : List Bool} {n : Nat} (h : Repeats rows n) (hpos : 0 < n)
    (hdvd : n ∣ rows.length) : Repeats (double rows) n := by
  intro i hi
  rw [length_double] at hi
  unfold Rows.double
  by_cases hfirst : i < rows.length
  · have hmod : i % n < rows.length := Nat.lt_of_le_of_lt (Nat.mod_le i n) hfirst
    rw [List.getElem?_append_left hfirst, List.getElem?_append_left hmod, h i hfirst]
  · have hle : n ≤ rows.length := Nat.le_of_dvd (by omega) hdvd
    have hmod : i % n < rows.length := Nat.lt_of_lt_of_le (Nat.mod_lt i hpos) hle
    have hback : (i - rows.length) % n = i % n := by
      obtain ⟨c, hc⟩ := hdvd
      rw [hc, Nat.sub_mul_mod (by omega)]
    rw [List.getElem?_append_right (by omega), List.getElem?_append_left hmod,
      h _ (by omega), hback]

/-! ## 3. Halving again and again -/

/-- Halving keeps the least period. -/
theorem isLeast_of_halve {rows : List Bool} {p : Nat} (h : WellFormed rows)
    (hne : halve rows ≠ rows) (hp : IsLeast {m | Period (halve rows) m} p) :
    IsLeast {m | Period rows m} p := by
  have hrows := double_halve hne
  obtain ⟨⟨htwo, ⟨j, hj⟩, hrepeats⟩, hleast⟩ := hp
  have hle : p ≤ (halve rows).length := hleast h.halve.period
  have hdvd : p ∣ (halve rows).length := by
    obtain ⟨k, hk⟩ := h.halve
    rw [hk, hj] at hle
    rw [hk, hj]
    exact Nat.pow_dvd_pow 2 ((Nat.pow_le_pow_iff_right (by omega)).mp hle)
  refine ⟨⟨htwo, ⟨j, hj⟩, ?_⟩, fun m hm => hleast ⟨hm.two_le, hm.power, ?_⟩⟩
  · have hdouble := hrepeats.double (by omega) hdvd
    rwa [hrows] at hdouble
  · refine Repeats.of_double ?_
    rw [hrows]
    exact hm.repeats

/-- **Halving comes to the least period.** -/
theorem exists_least_period {rows : List Bool} (h : WellFormed rows) :
    ∃ n, halve (halve^[n] rows) = halve^[n] rows
      ∧ IsLeast {m | Period rows m} (halve^[n] rows).length := by
  obtain ⟨k, hk⟩ := h
  -- a table that can be halved has an exponent to spare
  induction k generalizing rows with
  | zero =>
      have hfixed : halve rows = rows := by rw [halve_eq, if_neg (by omega)]
      exact ⟨0, hfixed, WellFormed.period ⟨0, hk⟩,
        fun m hm => length_le_of_period ⟨0, hk⟩ hfixed hm⟩
  | succ k ih =>
      by_cases hfixed : halve rows = rows
      · exact ⟨0, hfixed, WellFormed.period ⟨k + 1, hk⟩,
          fun m hm => length_le_of_period ⟨k + 1, hk⟩ hfixed hm⟩
      · have hlength : (halve rows).length = 2 ^ (k + 1) := by
          have hdouble := length_double (halve rows)
          rw [double_halve hfixed, hk, Nat.pow_succ] at hdouble
          omega
        obtain ⟨n, hn, hleast⟩ := ih hlength
        exact ⟨n + 1, hn, isLeast_of_halve ⟨k + 1, hk⟩ hfixed hleast⟩

end Rows

namespace Value

/-! ## 4. Values -/

theorem negate_negate (v : Value) : v.negate.negate = v := by
  cases v with
  | const b => exact congrArg const (Bool.not_not b)
  | table rows =>
      show table ((rows.map (!·)).map (!·)) = table rows
      rw [List.map_map, show (!·) ∘ (!·) = @id Bool from funext Bool.not_not, List.map_id]

theorem halve_double {v : Value} (h : v.WellFormed) : v.double.halve = v := by
  cases v with
  | const b => rfl
  | table rows => exact congrArg table (Rows.halve_double (Rows.WellFormed.two_le h))

theorem double_halve {v : Value} (h : v.halve ≠ v) : v.halve.double = v := by
  cases v with
  | const b => rfl
  | table rows => exact congrArg table (Rows.double_halve fun hrows => h (congrArg table hrows))

theorem negate_double (v : Value) : v.double.negate = v.negate.double := by
  cases v with
  | const b => rfl
  | table rows => exact congrArg table List.map_append

theorem negate_halve (v : Value) : v.halve.negate = v.negate.halve := by
  cases v with
  | const b => rfl
  | table rows => exact congrArg table (Rows.map_halve rows)

/-- What collapses to `F` is `F`, or a table with rows of which none is true. -/
theorem collapse_eq_false_iff (v : Value) :
    v.collapse = const false ↔ v = const false ∨ v.isTable ∧ ∀ row ∈ v.rows, row = false := by
  cases v with
  | const b => simp [collapse, isTable, rows]
  | table rows =>
      unfold collapse
      simp [isTable, Value.rows]

theorem collapse_collapse (v : Value) : v.collapse.collapse = v.collapse := by
  cases v with
  | const b => rfl
  | table rows =>
      by_cases h : (!rows.isEmpty && rows.all (!·)) = true
      · have hfalse : (table rows).collapse = const false := if_pos h
        rw [hfalse]
        rfl
      · have hsame : (table rows).collapse = table rows := if_neg h
        rw [hsame, hsame]

theorem halve_iterate (n : Nat) (rows : List Bool) :
    halve^[n] (table rows) = table (Rows.halve^[n] rows) := by
  have hsemiconj : Function.Semiconj table Rows.halve halve := fun _ => rfl
  exact (hsemiconj.iterate_right n rows).symm

/-- **The laws of the steps towards a normal form.** Negation is its own inverse and commutes with
doubling and halving. Halving undoes doubling, and doubling undoes a halving that drops anything.
Collapsing twice is collapsing once; what it takes to `F` is `F` and the tables without a true row.
Halving again and again comes to a table that it leaves as it is, and the number of its rows is the
least among two, four, eight, … with which the rows of the value repeat. `F` is neutral and `T`
absorbs in disjunctions, `T` is neutral and `F` absorbs in conjunctions, on either side. -/
theorem normalizes {v : Value} (h : v.Regular) :
    v.negate.negate = v
      ∧ v.double.halve = v
      ∧ (v.halve ≠ v → v.halve.double = v)
      ∧ (v.double.negate = v.negate.double ∧ v.halve.negate = v.negate.halve)
      ∧ v.collapse.collapse = v.collapse
      ∧ (v.collapse = const false ↔ v = const false ∨ v.isTable ∧ ∀ row ∈ v.rows, row = false)
      ∧ (v.isTable → ∃ n, (halve^[n] v).halve = halve^[n] v
        ∧ IsLeast {m | 2 ≤ m ∧ (∃ k, m = 2 ^ k)
            ∧ ∀ i, i < v.rows.length → v.rows[i]? = v.rows[i % m]?} (halve^[n] v).rows.length)
      ∧ (((const false).or v).digits = v.digits ∧ (v.or (const false)).digits = v.digits)
      ∧ (((const true).or v).digits = [2] ∧ (v.or (const true)).digits = [2])
      ∧ (((const true).and v).digits = v.digits ∧ (v.and (const true)).digits = v.digits)
      ∧ (((const false).and v).digits = [0] ∧ (v.and (const false)).digits = [0]) := by
  have h := v.regular_iff.mp h
  have hor : ∀ b, v.or (const b) = (const b).or v := fun b => or_comm h trivial
  have hand : ∀ b, v.and (const b) = (const b).and v := fun b => and_comm h trivial
  refine ⟨v.negate_negate, halve_double h, double_halve, ⟨v.negate_double, v.negate_halve⟩,
    v.collapse_collapse, v.collapse_eq_false_iff, fun htable => ?_, ?_, ?_, ?_, ?_⟩
  · cases v with
    | const b => cases htable
    | table rows =>
        obtain ⟨n, hfixed, hleast⟩ := Rows.exists_least_period h
        refine ⟨n, ?_, ?_⟩
        · rw [halve_iterate]
          exact congrArg table hfixed
        · rw [halve_iterate]
          refine ⟨⟨hleast.1.two_le, hleast.1.power, hleast.1.repeats⟩, fun m hm => ?_⟩
          exact hleast.2 ⟨hm.1, hm.2.1, hm.2.2⟩
  · rw [hor, const_false_or]
    exact ⟨rfl, rfl⟩
  · rw [hor]
    exact ⟨rfl, rfl⟩
  · rw [hand, const_true_and]
    exact ⟨rfl, rfl⟩
  · rw [hand]
    exact ⟨rfl, rfl⟩

/-- Eight rows that repeat after four: halving drops four of them, once. -/
theorem normalizes_repeated :
    ∃ v : Value, v.digits = [1, 2, 0, 0, 0, 2, 0, 0, 0] ∧ v.halve.digits = [1, 2, 0, 0, 0]
      ∧ v.halve.halve = v.halve ∧ v.halve.double = v ∧ v.halve.negate = v.negate.halve
      ∧ ∃ n, IsLeast {m | 2 ≤ m ∧ (∃ k, m = 2 ^ k)
          ∧ ∀ i, i < v.rows.length → v.rows[i]? = v.rows[i % m]?} (halve^[n] v).rows.length := by
  let v := table [true, false, false, false, true, false, false, false]
  obtain ⟨-, -, hdouble, ⟨-, hnegate⟩, -, -, hleast, -⟩ :=
    normalizes (v := v) (v.regular_iff.mpr ⟨2, rfl⟩)
  obtain ⟨n, -, hn⟩ := hleast rfl
  exact ⟨v, rfl, by decide +kernel, by decide +kernel, hdouble (by decide +kernel), hnegate, n, hn⟩

end Value

end Trivalent
