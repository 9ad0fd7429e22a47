import Trivalent.Value

/-!
# The store

What a program has computed so far: a value for each name, and how many unsure atoms there are.

* `Bindings` -- names with their values, kept in increasing order of the names, so that two sets
  of bindings are equal exactly when they bind the same names to the same values;
* `Store.assign`, `Store.get?` -- writing and reading a name.
-/

namespace Trivalent

/-- Names with their values, in increasing order of the names. -/
abbrev Bindings := List (String × Value)

namespace Bindings

/-- The value of a name. -/
def get? : Bindings → String → Option Value
  | [], _ => none
  | (other, value) :: rest, name => if name = other then some value else get? rest name

/-- Gives a name a value, in place of the one it has. -/
def insert (name : String) (value : Value) : Bindings → Bindings
  | [] => [(name, value)]
  | (other, old) :: rest =>
    if name < other then (name, value) :: (other, old) :: rest
    else if name = other then (name, value) :: rest
    else (other, old) :: insert name value rest

/-- Reading after writing. -/
theorem get?_insert (bindings : Bindings) (name : String) (value : Value) (asked : String) :
    (bindings.insert name value).get? asked
      = if asked = name then some value else bindings.get? asked := by
  induction bindings with
  | nil => simp [get?, insert]
  | cons entry rest ih =>
    obtain ⟨other, old⟩ := entry
    simp only [insert]
    split
    · simp only [get?]
    · split
      · rename_i heq
        subst heq
        by_cases h : asked = name <;> simp [get?, h]
      · rename_i hne
        simp only [get?]
        rw [ih]
        by_cases h : asked = name
        · subst h
          simp [hne]
        · simp [h]

end Bindings

/-- Bindings, and the number of unsure atoms there are. -/
structure Store where
  bindings : Bindings := []
  atoms : Nat := 0
  deriving DecidableEq, Repr

namespace Store

/-- The value of a name. -/
def get? (store : Store) (name : String) : Option Value := store.bindings.get? name

/-- Gives a name a value. -/
def assign (store : Store) (name : String) (value : Value) : Store :=
  { store with bindings := store.bindings.insert name value }

/-- Number of names that have a value. -/
def size (store : Store) : Nat := store.bindings.length

end Store

end Trivalent
