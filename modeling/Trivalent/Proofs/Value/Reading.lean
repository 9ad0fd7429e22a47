import Mathlib.Algebra.Ring.Nat
import Trivalent.Value

/-!
# Values read row by row

A value is a truth function of the unsure atoms. Row `i` of a table belongs to the assignment in
which atom `k` is true exactly when bit `k - 1` of `i` is zero, and a table says the same of an
atom beyond its size whatever that atom is, so it is read periodically. This file fixes the reading
and shows that the connectives respect it:

* `Value.truthAt` -- the truth of a value at any row number;
* `Value.WellFormed` -- a constant, or a table of `2 ^ k` rows with `1 ≤ k`;
* `Rows.stretchHalving_eq_stretch` -- halving a table on the way up changes nothing: on a
  well-formed table both ways of stretching give the same rows;
* `Value.Denotes` -- a well-formed value together with the function it reads as;
  `Denotes.negate`, `Denotes.or`, `Denotes.and` -- **the connectives are Boolean logic at every
  row**, although equal functions have tables of many sizes;
* `Value.denotes_atom` -- atom `n` reads as bit `n - 1` of the row number being zero.
-/

namespace Trivalent

/-! ## 1. Reading rows -/

namespace Rows

/-- The row that belongs to the assignment `i`; rows repeat with their number. -/
def truthAt (rows : List Bool) (i : Nat) : Bool := rows[i % rows.length]?.getD false

/-- Two, four, eight, … rows. -/
def WellFormed (rows : List Bool) : Prop := ∃ k, rows.length = 2 ^ (k + 1)

theorem WellFormed.two_le {rows : List Bool} (h : WellFormed rows) : 2 ≤ rows.length := by
  obtain ⟨k, hk⟩ := h
  rw [hk, Nat.pow_succ]
  have : 0 < 2 ^ k := Nat.two_pow_pos k
  omega

theorem WellFormed.double {rows : List Bool} (h : WellFormed rows) : WellFormed (double rows) := by
  obtain ⟨k, hk⟩ := h
  refine ⟨k + 1, ?_⟩
  rw [length_double, hk, Nat.pow_succ 2 (k + 1), Nat.mul_comm]

/-- A row number below the length of the rows picks that row. -/
theorem truthAt_of_lt {rows : List Bool} {i : Nat} (h : i < rows.length) :
    truthAt rows i = rows[i] := by
  unfold truthAt
  rw [Nat.mod_eq_of_lt h, List.getElem?_eq_getElem h]
  rfl

/-- Only the row number modulo the length counts. -/
theorem truthAt_mod (rows : List Bool) (i : Nat) :
    truthAt rows (i % rows.length) = truthAt rows i := by
  unfold truthAt
  rw [Nat.mod_mod]

/-- **Repeating the rows adds an atom that nothing depends on.** -/
theorem truthAt_double (rows : List Bool) (i : Nat) : truthAt (double rows) i = truthAt rows i := by
  unfold truthAt
  have hmod : i % (2 * rows.length) % rows.length = i % rows.length :=
    Nat.mod_mul_left_mod i 2 rows.length
  rw [length_double]
  unfold double
  by_cases hlt : i % (2 * rows.length) < rows.length
  · rw [List.getElem?_append_left hlt]
    rw [Nat.mod_eq_of_lt hlt] at hmod
    rw [hmod]
  · have hle : rows.length ≤ i % (2 * rows.length) := Nat.le_of_not_lt hlt
    rw [List.getElem?_append_right hle]
    cases Nat.eq_zero_or_pos rows.length with
    | inl hzero =>
        rw [List.eq_nil_of_length_eq_zero hzero]
        simp
    | inr hpos =>
        have hup : i % (2 * rows.length) < 2 * rows.length := Nat.mod_lt _ (by omega)
        rw [Nat.mod_eq_sub_mod hle, Nat.mod_eq_of_lt (by omega)] at hmod
        rw [hmod]

/-! ## 2. Halving and stretching -/

/-- Halving drops nothing that doubling does not bring back. -/
theorem double_halve {rows : List Bool} (h : halve rows ≠ rows) : double (halve rows) = rows := by
  unfold halve at h ⊢
  simp only at h ⊢
  split at h
  · rename_i hrep
    rw [if_pos hrep]
    simp only [Bool.and_eq_true, decide_eq_true_eq, beq_iff_eq] at hrep
    calc double (rows.take (rows.length / 2))
        = rows.take (rows.length / 2) ++ rows.drop (rows.length / 2) :=
          congrArg (rows.take (rows.length / 2) ++ ·) hrep.2
      _ = rows := List.take_append_drop _ rows
  · exact absurd rfl h

theorem truthAt_halve (rows : List Bool) (i : Nat) : truthAt (halve rows) i = truthAt rows i := by
  by_cases h : halve rows = rows
  · rw [h]
  · rw [← truthAt_double, double_halve h]

theorem WellFormed.halve {rows : List Bool} (h : WellFormed rows) : WellFormed (halve rows) := by
  by_cases hsame : Rows.halve rows = rows
  · rw [hsame]
    exact h
  · obtain ⟨k, hk⟩ := h
    have hlen : 2 * (Rows.halve rows).length = rows.length := by
      rw [← length_double, double_halve hsame]
    have htwo : 2 < rows.length := by
      refine Classical.byContradiction fun hle => hsame ?_
      unfold Rows.halve
      simp [hle]
    rw [hk, Nat.pow_succ] at hlen htwo
    cases k with
    | zero => omega
    | succ k => exact ⟨k, by omega⟩

/-- **Growing is doubling**: a table that can be halved is only brought back to its own size by
the doubling after it, and then the plain doubling is taken. -/
theorem grow_eq_double (rows : List Bool) : grow rows = double rows := by
  unfold grow
  simp only
  by_cases h : halve rows = rows
  · rw [h]
    exact ite_self _
  · rw [double_halve h, if_neg (Nat.lt_irrefl _)]

theorem stretchHalving_eq_stretch (size : Nat) (rows : List Bool) :
    stretchHalving size rows = stretch size rows := by
  fun_induction stretch size rows with
  | case1 rows h ih =>
      rw [stretchHalving, if_pos h, grow_eq_double]
      exact ih
  | case2 rows h => rw [stretchHalving, if_neg h]

theorem truthAt_stretch (size : Nat) (rows : List Bool) (i : Nat) :
    truthAt (stretch size rows) i = truthAt rows i := by
  fun_induction stretch size rows with
  | case1 rows h ih => rw [ih, truthAt_double]
  | case2 rows h => rfl

theorem WellFormed.stretch {rows : List Bool} (h : WellFormed rows) (size : Nat) :
    WellFormed (stretch size rows) := by
  fun_induction Rows.stretch size rows with
  | case1 rows hlt ih => exact ih h.double
  | case2 rows hlt => exact h

/-- **Stretching meets the size asked for exactly**, sizes being powers of two. -/
theorem length_stretch {rows : List Bool} {m : Nat} (h : WellFormed rows) :
    (stretch (2 ^ m) rows).length = max rows.length (2 ^ m) := by
  fun_induction Rows.stretch (2 ^ m) rows with
  | case1 rows hlt ih =>
      rw [ih h.double, length_double]
      obtain ⟨k, hk⟩ := h
      rw [hk] at hlt ⊢
      -- below a power of two, twice a power of two is still at most that power
      have hkm : k + 1 < m := (Nat.pow_lt_pow_iff_right (by omega)).mp hlt.2
      have hle : 2 ^ (k + 2) ≤ 2 ^ m := Nat.pow_le_pow_right (by omega) hkm
      rw [Nat.pow_succ] at hle
      omega
  | case2 rows hge =>
      have := h.two_le
      omega

/-! ## 3. Rows combined -/

theorem truthAt_map (f : Bool → Bool) {rows : List Bool} (h : WellFormed rows) (i : Nat) :
    truthAt (rows.map f) i = f (truthAt rows i) := by
  have hlt : i % rows.length < rows.length := Nat.mod_lt _ (by have := h.two_le; omega)
  unfold truthAt
  rw [List.length_map, List.getElem?_map, List.getElem?_eq_getElem hlt]
  rfl

theorem WellFormed.map {rows : List Bool} (h : WellFormed rows) (f : Bool → Bool) :
    WellFormed (rows.map f) := by
  obtain ⟨k, hk⟩ := h
  exact ⟨k, by rw [List.length_map, hk]⟩

theorem truthAt_zipWith (f : Bool → Bool → Bool) {r s : List Bool} (hr : WellFormed r)
    (hlen : r.length = s.length) (i : Nat) :
    truthAt (List.zipWith f r s) i = f (truthAt r i) (truthAt s i) := by
  have hpos : 0 < r.length := by have := hr.two_le; omega
  have hlt : i % r.length < r.length := Nat.mod_lt _ hpos
  have hlt' : i % r.length < s.length := hlen ▸ hlt
  unfold truthAt
  rw [List.length_zipWith, ← hlen, Nat.min_self, List.getElem?_zipWith,
    List.getElem?_eq_getElem hlt, List.getElem?_eq_getElem hlt']
  rfl

theorem WellFormed.zipWith {r s : List Bool} (hr : WellFormed r) (hlen : r.length = s.length)
    (f : Bool → Bool → Bool) : WellFormed (List.zipWith f r s) := by
  obtain ⟨k, hk⟩ := hr
  exact ⟨k, by rw [List.length_zipWith, ← hlen, Nat.min_self, hk]⟩

/-- The two stretchings of a connective bring both tables to one size. -/
theorem length_stretch_both {r s : List Bool} (hr : WellFormed r) (hs : WellFormed s) :
    (stretch s.length r).length = (stretch (stretch s.length r).length s).length := by
  obtain ⟨m, hm⟩ := (hr.stretch s.length)
  rw [hm, length_stretch hs, ← hm]
  obtain ⟨k, hk⟩ := hs
  rw [hk, length_stretch hr]
  omega

/-- The rows of atom `n`, where `half` is `2 ^ (n - 1)`. -/
def atomRows (half : Nat) : List Bool := List.replicate half true ++ List.replicate half false

/-- **Atom `k + 1` is true where bit `k` of the row number is zero.** -/
theorem truthAt_atomRows (k i : Nat) : truthAt (atomRows (2 ^ k)) i = !i.testBit k := by
  have hpow : 2 ^ k + 2 ^ k = 2 ^ (k + 1) := by rw [Nat.pow_succ]; omega
  have hlt : i % 2 ^ (k + 1) < 2 ^ (k + 1) := Nat.mod_lt _ (Nat.two_pow_pos _)
  have hbit : (i % 2 ^ (k + 1)).testBit k = i.testBit k := by
    rw [Nat.testBit_mod_two_pow]
    simp
  unfold truthAt atomRows
  rw [List.length_append, List.length_replicate, List.length_replicate, hpow, ← hbit]
  by_cases h : i % 2 ^ (k + 1) < 2 ^ k
  · rw [List.getElem?_append_left (by rwa [List.length_replicate]), Nat.testBit_lt_two_pow h,
      List.getElem?_replicate, if_pos h]
    rfl
  · have hge : 2 ^ k ≤ i % 2 ^ (k + 1) := Nat.le_of_not_lt h
    rw [List.getElem?_append_right (by rwa [List.length_replicate]),
      Nat.testBit_of_two_pow_le_and_two_pow_add_one_gt hge hlt, List.length_replicate,
      List.getElem?_replicate, if_pos (by omega)]
    rfl

theorem wellFormed_atomRows (k : Nat) : WellFormed (atomRows (2 ^ k)) := by
  refine ⟨k, ?_⟩
  unfold atomRows
  rw [List.length_append, List.length_replicate, List.length_replicate, Nat.pow_succ]
  omega

end Rows

/-! ## 4. Reading values -/

namespace Value

/-- The truth of a value at the assignment `i`. -/
def truthAt : Value → Nat → Bool
  | const b, _ => b
  | table rows, i => Rows.truthAt rows i

/-- A constant, or a table of two, four, eight, … rows. -/
def WellFormed : Value → Prop
  | const _ => True
  | table rows => Rows.WellFormed rows

/-- Being well-formed and reading as a given function of the assignment: what every operation on
values is specified by. -/
def Denotes (v : Value) (f : Nat → Bool) : Prop := v.WellFormed ∧ ∀ i, v.truthAt i = f i

theorem denotes_const (b : Bool) : (const b).Denotes fun _ => b := ⟨trivial, fun _ => rfl⟩

theorem Denotes.negate {v : Value} {f : Nat → Bool} (h : v.Denotes f) :
    v.negate.Denotes fun i => !f i := by
  obtain ⟨hwf, hf⟩ := h
  cases v with
  | const b => exact ⟨trivial, fun i => congrArg (!·) (hf i)⟩
  | table rows =>
      refine ⟨Rows.WellFormed.map hwf _, fun i => ?_⟩
      show Rows.truthAt (rows.map (!·)) i = !f i
      rw [Rows.truthAt_map _ hwf]
      exact congrArg (!·) (hf i)

theorem Denotes.halve {v : Value} {f : Nat → Bool} (h : v.Denotes f) : v.halve.Denotes f := by
  obtain ⟨hwf, hf⟩ := h
  cases v with
  | const b => exact ⟨trivial, hf⟩
  | table rows =>
      refine ⟨Rows.WellFormed.halve hwf, fun i => ?_⟩
      rw [← hf i]
      exact Rows.truthAt_halve rows i

/-- A table that is false in every row reads as `F` does. -/
theorem Denotes.collapse {v : Value} {f : Nat → Bool} (h : v.Denotes f) : v.collapse.Denotes f := by
  obtain ⟨hwf, hf⟩ := h
  cases v with
  | const b => exact ⟨trivial, hf⟩
  | table rows =>
      unfold Value.collapse
      simp only
      split
      · rename_i hall
        simp only [Bool.and_eq_true, List.all_eq_true] at hall
        refine ⟨trivial, fun i => ?_⟩
        have hlt : i % rows.length < rows.length :=
          Nat.mod_lt _ (by have := Rows.WellFormed.two_le hwf; omega)
        have hrow := hall.2 _ (List.getElem_mem hlt)
        rw [← hf i]
        show false = Rows.truthAt rows i
        rw [← Rows.truthAt_mod, Rows.truthAt_of_lt hlt]
        simpa using hrow.symm
      · exact ⟨hwf, hf⟩

/-- Two tables brought to one size and combined row by row. -/
theorem denotes_zipWith (op : Bool → Bool → Bool) {r s : List Bool} {f g : Nat → Bool}
    (hr : (table r).Denotes f) (hs : (table s).Denotes g) :
    (table (List.zipWith op (Rows.stretch s.length r)
      (Rows.stretch (Rows.stretch s.length r).length s))).Denotes fun i => op (f i) (g i) := by
  obtain ⟨hr, hf⟩ := hr
  obtain ⟨hs, hg⟩ := hs
  have hlen := Rows.length_stretch_both hr hs
  have hwf := Rows.WellFormed.stretch hr s.length
  refine ⟨hwf.zipWith hlen op, fun i => ?_⟩
  show Rows.truthAt _ i = _
  rw [Rows.truthAt_zipWith op hwf hlen, Rows.truthAt_stretch, Rows.truthAt_stretch]
  exact congr (congrArg op (hf i)) (hg i)

theorem Denotes.congr {v : Value} {f g : Nat → Bool} (h : v.Denotes f) (hfg : ∀ i, f i = g i) :
    v.Denotes g :=
  ⟨h.1, fun i => (h.2 i).trans (hfg i)⟩

theorem const_false_or (v : Value) : (const false).or v = v := by
  cases v with
  | const b => cases b <;> rfl
  | table rows => rfl

theorem const_true_and (v : Value) : (const true).and v = v := by
  cases v with
  | const b => cases b <;> rfl
  | table rows => rfl

/-- **Disjunction is disjunction at every row.** -/
theorem Denotes.or {v w : Value} {f g : Nat → Bool} (hv : v.Denotes f) (hw : w.Denotes g) :
    (v.or w).Denotes fun i => f i || g i := by
  cases v with
  | const b =>
      have hf : ∀ i, f i = b := fun i => (hv.2 i).symm
      cases b with
      | true => exact (denotes_const true).congr fun i => by rw [hf i]; rfl
      | false =>
          rw [const_false_or]
          exact hw.congr fun i => by rw [hf i]; rfl
  | table r =>
      cases w with
      | const c =>
          have hg : ∀ i, g i = c := fun i => (hw.2 i).symm
          cases c with
          | true => exact (denotes_const true).congr fun i => by rw [hg i, Bool.or_true]
          | false => exact hv.congr fun i => by rw [hg i, Bool.or_false]
      | table s => exact (denotes_zipWith (· || ·) hv hw).halve.collapse

/-- **Conjunction is conjunction at every row.** -/
theorem Denotes.and {v w : Value} {f g : Nat → Bool} (hv : v.Denotes f) (hw : w.Denotes g) :
    (v.and w).Denotes fun i => f i && g i := by
  cases v with
  | const b =>
      have hf : ∀ i, f i = b := fun i => (hv.2 i).symm
      cases b with
      | false => exact (denotes_const false).congr fun i => by rw [hf i]; rfl
      | true =>
          rw [const_true_and]
          exact hw.congr fun i => by rw [hf i]; rfl
  | table r =>
      cases w with
      | const c =>
          have hg : ∀ i, g i = c := fun i => (hw.2 i).symm
          cases c with
          | false => exact (denotes_const false).congr fun i => by rw [hg i, Bool.and_false]
          | true => exact hv.congr fun i => by rw [hg i, Bool.and_true]
      | table s =>
          unfold Value.and
          simp only
          rw [Rows.stretchHalving_eq_stretch]
          exact (denotes_zipWith (· && ·) hv hw).collapse

/-! ## 5. Atoms -/

/-- The table of an atom whose rows a machine word can count. -/
theorem atom_eq {n : Nat} (hpos : 0 < n) (hle : n ≤ 62) :
    atom n = .ok (table (Rows.atomRows (2 ^ (n - 1)))) := by
  have hmax : max n 1 = n := by omega
  have hhalf : Nat.pow 2 n % (maxWord + 1) / 2 = 2 ^ (n - 1) := by
    have hlt : 2 ^ n < maxWord + 1 :=
      Nat.lt_of_le_of_lt (Nat.pow_le_pow_right (by omega) hle) (by decide)
    show 2 ^ n % (maxWord + 1) / 2 = 2 ^ (n - 1)
    rw [Nat.mod_eq_of_lt hlt]
    obtain ⟨m, rfl⟩ : ∃ m, n = m + 1 := ⟨n - 1, by omega⟩
    rw [Nat.pow_succ, Nat.mul_div_cancel _ (by omega)]
    rfl
  have hsmall : 2 ^ (n - 1) < (maxWord + 1) / 4 :=
    Nat.lt_of_le_of_lt (Nat.pow_le_pow_right (by omega) (show n - 1 ≤ 61 by omega)) (by decide)
  unfold atom
  simp only
  rw [hmax, hhalf, if_neg (by omega), if_neg (by omega)]
  rfl

/-- **Atom `n` reads as bit `n - 1` being zero.** -/
theorem denotes_atom {n : Nat} {v : Value} (hpos : 0 < n) (hle : n ≤ 62) (h : atom n = .ok v) :
    v.Denotes fun i => !i.testBit (n - 1) := by
  rw [atom_eq hpos hle] at h
  cases h
  exact ⟨Rows.wellFormed_atomRows (n - 1), Rows.truthAt_atomRows (n - 1)⟩

end Value

end Trivalent
