import Trivalent.Proofs.Reduction.Step

/-!
# Whole reductions

A parse makes steps until no window is a frame. This file says what a whole run gives:

* `Run` -- steps one after another, with the names they declare; `Run.preserves` carries over to a
  run what every step preserves;
* `Workspace.reduceRow_run` -- a reduction makes a run that ends in a row without frames, unless
  there is a run that is longer than it may be;
* `Workspace.conclude_run` -- how a row of several nodes is reported.

That no run is longer than it may be is the subject of `Trivalent.Proofs.Reduction.Termination`.
-/

namespace Trivalent

open Trivalent.Derivation

/-! ## 1. Runs -/

/-- A number of steps, one after another, and the names that they declare. -/
inductive Run (g : Grammar) (mode : BindingMode) :
    Nat → List Derivation → List String → List Derivation → Prop
  | refl (row : List Derivation) : Run g mode 0 row [] row
  | step {next steps : Nat} {row row' row'' : List Derivation} {declared : Option String}
      {names : List String} (first : Step g mode next row declared row')
      (rest : Run g mode steps row' names row'') :
      Run g mode (steps + 1) row (declared.toList ++ names) row''

/-- What every step preserves, a run preserves. -/
theorem Run.preserves {g : Grammar} {mode : BindingMode} {P : List Derivation → Prop}
    (hstep : ∀ {next row declared row'}, Step g mode next row declared row' → P row → P row')
    {steps : Nat} {row row' : List Derivation} {names : List String}
    (h : Run g mode steps row names row') (hrow : P row) : P row' := by
  induction h with
  | refl row => exact hrow
  | step first rest ih => exact ih (hstep first hrow)

namespace Workspace

theorem Grown.trans {a b c : Workspace} {names names' : List String} {row row' : List Derivation}
    (hab : Grown a b names row) (hbc : Grown b c names' row') :
    Grown a c (names ++ names') row' where
  within := hab.within.trans hbc.within
  holds := hbc.holds
  bound := by rw [hbc.bound, hab.bound, List.append_assoc]

/-- Writing an event changes the journal only. -/
theorem Grown.note {a b : Workspace} {names : List String} {row : List Derivation}
    (h : Grown a b names row) (e : Event) :
    Grown a { b with journal := b.journal.note e } names row :=
  ⟨h.within, h.holds, h.bound⟩

/-- A reduction of a row that the arena holds makes a run of at most the allowed length and
concludes; or there is a run that is longer. -/
theorem reduceRow_run {g : Grammar} {mode : BindingMode} :
    ∀ (steps : Nat) (row : List Derivation) (w : Workspace), (∀ d ∈ row, w.arena.Holds d) →
      (∃ made names row' w', Run g mode made row names row' ∧ Grown w w' names row'
        ∧ g.find (row'.map symbol) = none
        ∧ (reduceRow g mode steps (row.map slot)).run w = (conclude (row'.map slot)).run w')
      ∨ ∃ names row', Run g mode (steps + 1) row names row' := by
  intro steps
  induction steps with
  | zero =>
      intro row w hrow
      rw [reduceRow, symbols_slots]
      cases hfind : g.find (row.map symbol) with
      | none =>
          exact .inl ⟨0, [], row, w, .refl row, ⟨.refl _, hrow, (List.append_nil _).symm⟩, hfind,
            rfl⟩
      | some window =>
          obtain ⟨declared, row', w', _, hstep, _⟩ :=
            @reduceWindow_run g mode w row window hrow hfind
          exact .inr ⟨_, row', .step hstep (.refl row')⟩
  | succ steps ih =>
      intro row w hrow
      rw [reduceRow, symbols_slots]
      cases hfind : g.find (row.map symbol) with
      | none =>
          exact .inl ⟨0, [], row, w, .refl row, ⟨.refl _, hrow, (List.append_nil _).symm⟩, hfind,
            rfl⟩
      | some window =>
          obtain ⟨declared, row', w', hrun, hstep, hgrown⟩ :=
            @reduceWindow_run g mode w row window hrow hfind
          have hslots := slots_run hgrown.holds
          simp only [EStateM.run_bind]
          rw [hrun]
          simp only
          rw [hslots]
          simp only [Workspace.note, EStateM.run_modify]
          have hnoted := hgrown.note (.remaining ((row'.map slot).map (·.symbol)))
          rcases ih row' _ hnoted.holds with
            ⟨made, names, last, w'', hmade, hlast, hnone, heq⟩ | hlong
          · exact .inl ⟨made + 1, _, last, w'', .step hstep hmade, hnoted.trans hlast, hnone, heq⟩
          · obtain ⟨names, last, hmade⟩ := hlong
            exact .inr ⟨_, last, .step hstep hmade⟩

/-- A row of more than one node is reported with its symbols, from its first node to its last. -/
theorem conclude_run {w : Workspace} {d e : Derivation} {rest : List Derivation}
    (hrow : ∀ x ∈ d :: e :: rest, w.arena.Holds x) :
    (conclude ((d :: e :: rest).map slot)).run w
      = .error (.diagnostic ⟨.irreducible ((d :: e :: rest).map symbol),
          some (d.node.span.union ((e :: rest).getLast (by simp)).node.span), d.node.line⟩) w := by
  have hlast : ((e :: rest).map slot).getLast (by simp) = ((e :: rest).getLast (by simp)).slot :=
    List.getLast_map (by simp)
  have hd := Arena.fetch_run (hrow d List.mem_cons_self).get? w
  have he := Arena.fetch_run (hrow ((e :: rest).getLast (by simp))
    (List.mem_cons_of_mem _ (List.getLast_mem _))).get? w
  have hsymbols := symbols_slots (d :: e :: rest)
  simp only [List.map_cons] at hlast hsymbols ⊢
  simp only [conclude, EStateM.run_bind, EStateM.run_get, hlast, List.map_cons, hsymbols]
  rw [show d.slot.id = d.id from rfl, hd]
  simp only
  rw [show ((e :: rest).getLast (by simp)).slot.id = ((e :: rest).getLast (by simp)).id from rfl, he]
  rfl

end Workspace

end Trivalent
