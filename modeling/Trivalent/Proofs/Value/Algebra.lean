import Trivalent.Proofs.Evaluation.Session

/-!
# The laws of the connectives

One function of the atoms has tables of many sizes, and which of them a connective gives depends on
how it comes by it: disjunctions are halved, conjunctions are not, and a table that is false in
every row collapses. So the laws of logic fail for tables as they are written, and hold for what they
say.

* `Value.truthAt_iff` -- the row of a value in its digits;
* `Value.Agree` -- two values say the same at every row;
* `Value.connectives_pointwise` -- **the connectives are Boolean logic at every row**, the steps
  they are built from change no row, and the laws of a distributive lattice with negation hold up
  to `Agree`.
-/

namespace Trivalent

namespace Value

/-- A value is true at a row if it is the digit `2` alone, or if the digit after the header that the
row number picks is `2`; row numbers beyond the last digit start again. -/
theorem truthAt_iff (v : Value) (i : Nat) :
    v.truthAt i ↔ v.digits = [2] ∨ v.digits.tail[i % v.digits.tail.length]? = some 2 := by
  have hdigit : ∀ row, digit row = 2 ↔ row = true := by decide
  cases v with
  | const b => cases b <;> simp [truthAt, digits, digit]
  | table rows =>
      simp only [truthAt, Rows.truthAt, digits, List.tail_cons, List.length_map, List.getElem?_map,
        List.cons.injEq, show (1 : Nat) ≠ 2 from by decide, false_and, false_or]
      cases rows[i % rows.length]? with
      | none => simp
      | some row => simp [hdigit]

/-- Two values say the same at every row, whatever their sizes are. -/
def Agree (v w : Value) : Prop := ∀ i, v.truthAt i = w.truthAt i

theorem Denotes.double {v : Value} {f : Nat → Bool} (h : v.Denotes f) : v.double.Denotes f := by
  obtain ⟨hwf, hf⟩ := h
  cases v with
  | const b => exact ⟨trivial, hf⟩
  | table rows =>
      refine ⟨Rows.WellFormed.double hwf, fun i => ?_⟩
      rw [← hf i]
      exact Rows.truthAt_double rows i

theorem Denotes.regular {v : Value} {f : Nat → Bool} (h : v.Denotes f) : v.Regular :=
  v.regular_iff.mpr h.1

theorem Regular.denotes {v : Value} (h : v.Regular) : v.Denotes v.truthAt :=
  (v.regular_iff.mp h).denotes

/-- Values of the same function agree. -/
theorem Denotes.agree {v w : Value} {f g : Nat → Bool} (hv : v.Denotes f) (hw : w.Denotes g)
    (hfg : ∀ i, f i = g i) : v.Agree w :=
  fun i => (hv.2 i).trans ((hfg i).trans (hw.2 i).symm)

/-- **The connectives are Boolean logic at every row**, a row being read off the digits. On regular
values, negation, disjunction and conjunction are regular and have at each row the negation,
disjunction and conjunction of what their operands have there; doubling, halving and collapsing keep
a value regular and change no row. So De Morgan's laws, distributivity, absorption and associativity
hold row by row. -/
theorem connectives_pointwise {a b c : Value} (ha : a.Regular) (hb : b.Regular) (hc : c.Regular) :
    (∀ i, a.truthAt i ↔ a.digits = [2] ∨ a.digits.tail[i % a.digits.tail.length]? = some 2)
      ∧ (a.negate.Regular ∧ ∀ i, a.negate.truthAt i = !a.truthAt i)
      ∧ ((a.or b).Regular ∧ ∀ i, (a.or b).truthAt i = (a.truthAt i || b.truthAt i))
      ∧ ((a.and b).Regular ∧ ∀ i, (a.and b).truthAt i = (a.truthAt i && b.truthAt i))
      ∧ (a.double.Regular ∧ a.double.Agree a)
      ∧ (a.halve.Regular ∧ a.halve.Agree a)
      ∧ (a.collapse.Regular ∧ a.collapse.Agree a)
      ∧ ((a.or b).negate.Agree (a.negate.and b.negate)
        ∧ (a.and b).negate.Agree (a.negate.or b.negate))
      ∧ ((a.and (b.or c)).Agree ((a.and b).or (a.and c))
        ∧ (a.or (b.and c)).Agree ((a.or b).and (a.or c)))
      ∧ ((a.or (a.and b)).Agree a ∧ (a.and (a.or b)).Agree a)
      ∧ (((a.or b).or c).Agree (a.or (b.or c)) ∧ ((a.and b).and c).Agree (a.and (b.and c))) := by
  have ha := ha.denotes
  have hb := hb.denotes
  have hc := hc.denotes
  refine ⟨a.truthAt_iff, ⟨ha.negate.regular, ha.negate.2⟩, ⟨(ha.or hb).regular, (ha.or hb).2⟩,
    ⟨(ha.and hb).regular, (ha.and hb).2⟩, ⟨ha.double.regular, ha.double.2⟩,
    ⟨ha.halve.regular, ha.halve.2⟩, ⟨ha.collapse.regular, ha.collapse.2⟩, ⟨?_, ?_⟩, ⟨?_, ?_⟩,
    ⟨?_, ?_⟩, ⟨?_, ?_⟩⟩
  · exact (ha.or hb).negate.agree (ha.negate.and hb.negate) fun i => Bool.not_or _ _
  · exact (ha.and hb).negate.agree (ha.negate.or hb.negate) fun i => Bool.not_and _ _
  · exact (ha.and (hb.or hc)).agree ((ha.and hb).or (ha.and hc)) fun i =>
      Bool.and_or_distrib_left _ _ _
  · exact (ha.or (hb.and hc)).agree ((ha.or hb).and (ha.or hc)) fun i =>
      Bool.or_and_distrib_left _ _ _
  · exact (ha.or (ha.and hb)).agree ha fun i => by cases a.truthAt i <;> rfl
  · exact (ha.and (ha.or hb)).agree ha fun i => by cases a.truthAt i <;> rfl
  · exact ((ha.or hb).or hc).agree (ha.or (hb.or hc)) fun i => Bool.or_assoc _ _ _
  · exact ((ha.and hb).and hc).agree (ha.and (hb.and hc)) fun i => Bool.and_assoc _ _ _

/-- The table of `[2 0]` written out over three atoms, with itself over one: no law holds as the
values are written, and each of them row by row. -/
theorem connectives_pointwise_redundant :
    ∃ a b : Value, a.digits = [1, 2, 0, 2, 0, 2, 0, 2, 0] ∧ b.digits = [1, 2, 0]
      ∧ ((a.and b).negate.digits ≠ (a.negate.or b.negate).digits
        ∧ (a.and b).negate.Agree (a.negate.or b.negate))
      ∧ ((a.and (b.or b)).digits ≠ ((a.and b).or (a.and b)).digits
        ∧ (a.and (b.or b)).Agree ((a.and b).or (a.and b)))
      ∧ ((a.or (a.and b)).digits ≠ a.digits ∧ (a.or (a.and b)).Agree a)
      ∧ (((a.or b).or b).digits ≠ (a.or (b.or b)).digits
        ∧ ((a.or b).or b).Agree (a.or (b.or b))) := by
  let a := table [true, false, true, false, true, false, true, false]
  let b := table [true, false]
  obtain ⟨-, -, -, -, -, -, -, hmorgan, hdistrib, habsorb, hassoc⟩ := connectives_pointwise
    (a := a) (b := b) (c := b) (a.regular_iff.mpr ⟨2, rfl⟩) (b.regular_iff.mpr ⟨0, rfl⟩)
    (b.regular_iff.mpr ⟨0, rfl⟩)
  exact ⟨a, b, rfl, rfl, ⟨by decide +kernel, hmorgan.2⟩, ⟨by decide +kernel, hdistrib.1⟩,
    ⟨by decide +kernel, habsorb.1⟩, ⟨by decide +kernel, hassoc.1⟩⟩

end Value

end Trivalent
