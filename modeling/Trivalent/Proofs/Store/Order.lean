import Mathlib.Data.Set.Function
import Mathlib.Data.String.Basic
import Trivalent.Store

/-!
# Bindings in order

Bindings are kept in increasing order of their names. Writing keeps the order, and bindings in order
are known from what can be read in them.

* `Bindings.Ordered` -- the names increase from each binding to the next;
* `Bindings.Ordered.ext` -- **bindings in order in which the same can be read are the same**;
* `Bindings.renamed`, `Bindings.renamed_insert` -- the same values under other names. Where no two
  of the names become one, **a value can be written before the names are changed or afterwards**.
-/

namespace Trivalent

namespace Bindings

/-! ## 1. The order -/

theorem mem_of_get? {bindings : Bindings} {name : String} {value : Value}
    (h : bindings.get? name = some value) : (name, value) ∈ bindings := by
  induction bindings with
  | nil => cases h
  | cons first rest ih =>
      obtain ⟨other, old⟩ := first
      unfold get? at h
      split at h
      · rename_i heq
        cases h
        rw [heq]
        exact List.mem_cons_self
      · exact List.mem_cons_of_mem _ (ih h)

theorem mem_insert {bindings : Bindings} {name : String} {value : Value} {entry : String × Value}
    (h : entry ∈ bindings.insert name value) : entry = (name, value) ∨ entry ∈ bindings := by
  induction bindings with
  | nil => exact .inl (List.mem_singleton.mp h)
  | cons first rest ih =>
      obtain ⟨other, old⟩ := first
      unfold insert at h
      split at h
      · exact List.mem_cons.mp h
      · split at h
        · exact (List.mem_cons.mp h).imp_right (List.mem_cons_of_mem _)
        · rcases List.mem_cons.mp h with rfl | h
          · exact .inr List.mem_cons_self
          · exact (ih h).imp_right (List.mem_cons_of_mem _)

/-- The names increase from each binding to the next. -/
def Ordered (bindings : Bindings) : Prop := bindings.Pairwise fun a b => a.1 < b.1

/-- Writing keeps the order. -/
theorem Ordered.insert {bindings : Bindings} (h : bindings.Ordered) (name : String)
    (value : Value) : (bindings.insert name value).Ordered := by
  induction bindings with
  | nil => exact List.pairwise_singleton _ _
  | cons first rest ih =>
      obtain ⟨other, old⟩ := first
      obtain ⟨hfirst, hrest⟩ := List.pairwise_cons.mp h
      unfold Bindings.insert
      split
      · rename_i hlt
        refine List.pairwise_cons.mpr ⟨fun entry hentry => ?_, h⟩
        rcases List.mem_cons.mp hentry with rfl | hentry
        · exact hlt
        · exact lt_trans hlt (hfirst entry hentry)
      · rename_i hnot
        split
        · rename_i heq
          exact List.pairwise_cons.mpr ⟨fun entry hentry => heq ▸ hfirst entry hentry, hrest⟩
        · rename_i hne
          refine List.pairwise_cons.mpr ⟨fun entry hentry => ?_, ih hrest⟩
          rcases mem_insert hentry with rfl | hentry
          · exact lt_of_le_of_ne (not_lt.mp hnot) (Ne.symm hne)
          · exact hfirst entry hentry

theorem get?_eq_none {bindings : Bindings} {name : String}
    (h : ∀ entry ∈ bindings, name < entry.1) : bindings.get? name = none := by
  induction bindings with
  | nil => rfl
  | cons first rest ih =>
      unfold get?
      rw [if_neg (ne_of_lt (h first List.mem_cons_self))]
      exact ih fun entry hentry => h entry (List.mem_cons_of_mem _ hentry)

/-- A name can be read in bindings that start with it, and in bindings that start with a greater one
it cannot. -/
theorem Ordered.le_of_get? {name : String} {value : Value} {rest bindings : Bindings}
    (hother : Ordered bindings)
    (h : get? ((name, value) :: rest) = bindings.get?) :
    ∃ name' value' rest', bindings = (name', value') :: rest' ∧ name' ≤ name := by
  have hread : bindings.get? name = some value := by
    rw [← h]
    exact if_pos rfl
  cases bindings with
  | nil => cases hread
  | cons first rest' =>
      refine ⟨first.1, first.2, rest', rfl, not_lt.mp fun hlt => ?_⟩
      have hnone : get? (first :: rest') name = none := by
        refine get?_eq_none fun entry hentry => ?_
        rcases List.mem_cons.mp hentry with rfl | hentry
        · exact hlt
        · exact lt_trans hlt ((List.pairwise_cons.mp hother).1 entry hentry)
      rw [hnone] at hread
      cases hread

/-- **Bindings in order in which the same can be read are the same.** -/
theorem Ordered.ext {bindings other : Bindings} (h : bindings.Ordered) (hother : other.Ordered)
    (hget : bindings.get? = other.get?) : bindings = other := by
  induction bindings generalizing other with
  | nil =>
      cases other with
      | nil => rfl
      | cons first rest =>
          obtain ⟨name, value⟩ := first
          obtain ⟨_, _, _, hnil, -⟩ := h.le_of_get? hget.symm
          cases hnil
  | cons first rest ih =>
      obtain ⟨name, value⟩ := first
      obtain ⟨name', value', rest', rfl, hle⟩ := hother.le_of_get? hget
      obtain ⟨_, _, _, hcons, hge⟩ := h.le_of_get? hget.symm
      cases hcons
      obtain rfl := le_antisymm hle hge
      have hvalue : value = value' := by
        have hread := congrFun hget name'
        simpa only [get?, if_true, Option.some.injEq] using hread
      obtain ⟨hfirst, hrest⟩ := List.pairwise_cons.mp h
      obtain ⟨hfirst', hrest'⟩ := List.pairwise_cons.mp hother
      rw [hvalue, ih hrest hrest' ?_]
      -- the rest is read at every name but the first one, which stands in neither rest
      funext asked
      by_cases hasked : asked = name'
      · rw [hasked, get?_eq_none hfirst, get?_eq_none hfirst']
      · have hread := congrFun hget asked
        simpa only [get?, if_neg hasked] using hread

/-! ## 2. Other names -/

/-- The same values under other names. -/
def renamed (ρ : String → String) : Bindings → Bindings
  | [] => []
  | (name, value) :: rest => (renamed ρ rest).insert (ρ name) value

theorem ordered_renamed (ρ : String → String) (bindings : Bindings) :
    (bindings.renamed ρ).Ordered := by
  induction bindings with
  | nil => exact .nil
  | cons first rest ih => exact ih.insert _ _

/-- Every name that can be read is among the given ones. -/
def Within (bindings : Bindings) (names : Set String) : Prop :=
  ∀ name, (bindings.get? name).isSome → name ∈ names

section Renamed

variable {ρ : String → String} {names : Set String} {bindings : Bindings}

theorem Within.insert (h : bindings.Within names) {name : String} (hname : name ∈ names)
    (value : Value) : (bindings.insert name value).Within names := by
  intro asked hasked
  rw [get?_insert] at hasked
  split at hasked
  · rename_i heq
    exact heq ▸ hname
  · exact h asked hasked

theorem Within.cons {first : String × Value} {rest : Bindings}
    (h : Within (first :: rest) names) : first.1 ∈ names ∧ rest.Within names := by
  refine ⟨h first.1 (by simp [get?]), fun asked hasked => ?_⟩
  by_cases hfirst : asked = first.1
  · exact h asked (by simp [get?, hfirst])
  · exact h asked (by simpa [get?, hfirst] using hasked)

/-- What is read under a name is read under the new one afterwards, and nothing else is. -/
theorem get?_renamed_eq_some (hρ : Set.InjOn ρ names) (h : bindings.Within names) {asked : String}
    {value : Value} :
    (bindings.renamed ρ).get? asked = some value
      ↔ ∃ name, ρ name = asked ∧ bindings.get? name = some value := by
  induction bindings with
  | nil => simp [renamed, get?]
  | cons first rest ih =>
      obtain ⟨hfirst, hrest⟩ := h.cons
      unfold renamed
      rw [get?_insert]
      split
      · rename_i hasked
        constructor
        · exact fun hvalue => ⟨first.1, hasked.symm, by rw [← hvalue, get?, if_pos rfl]⟩
        · rintro ⟨name, hname, hvalue⟩
          obtain rfl := hρ (h name (hvalue ▸ rfl)) hfirst (hname.trans hasked)
          rw [get?, if_pos rfl] at hvalue
          exact hvalue
      · rename_i hasked
        rw [ih hrest]
        refine exists_congr fun name => and_congr_right fun hname => ?_
        rw [get?, if_neg]
        rintro rfl
        exact hasked hname.symm

theorem get?_renamed (hρ : Set.InjOn ρ names) (h : bindings.Within names) {name : String}
    (hname : name ∈ names) : (bindings.renamed ρ).get? (ρ name) = bindings.get? name := by
  ext value
  rw [get?_renamed_eq_some hρ h]
  constructor
  · rintro ⟨other, hother, hvalue⟩
    rwa [hρ (h other (hvalue ▸ rfl)) hname hother] at hvalue
  · exact fun hvalue => ⟨name, rfl, hvalue⟩

/-- **A value can be written before the names are changed or afterwards.** -/
theorem renamed_insert (hρ : Set.InjOn ρ names) (h : bindings.Within names) {name : String}
    (hname : name ∈ names) (value : Value) :
    (bindings.insert name value).renamed ρ = (bindings.renamed ρ).insert (ρ name) value := by
  refine (ordered_renamed ρ _).ext ((ordered_renamed ρ _).insert _ _) (funext fun asked => ?_)
  ext found
  rw [get?_renamed_eq_some hρ (h.insert hname value), get?_insert]
  split
  · rename_i hasked
    subst hasked
    constructor
    · rintro ⟨other, hother, hfound⟩
      obtain rfl := hρ (h.insert hname value other (hfound ▸ rfl)) hname hother
      rwa [get?_insert, if_pos rfl] at hfound
    · exact fun hfound => ⟨name, rfl, by rw [get?_insert, if_pos rfl, hfound]⟩
  · rename_i hasked
    rw [get?_renamed_eq_some hρ h]
    refine exists_congr fun other => and_congr_right fun hother => ?_
    rw [get?_insert, if_neg]
    rintro rfl
    exact hasked hother.symm

end Renamed

end Bindings

end Trivalent
