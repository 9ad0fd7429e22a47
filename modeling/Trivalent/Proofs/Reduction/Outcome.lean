import Trivalent.Proofs.Grammar.History
import Trivalent.Proofs.Reduction.Endless

/-!
# What a reduction exhausts

A reduction looks for the first of the widest frames, pass after pass, and ends where there is none.
Said by the rules that were added to its grammar, and without the search:

* `Workspace.Outcome` -- what a reduction gives if a given row is left;
* `Workspace.reduce_exhausts` -- **what is reduced is the first of the widest parts that were added
  as frames, no part of the row that is left was, and what comes of the reduction tells this row**.
-/

namespace Trivalent

open Trivalent.Derivation

namespace Workspace

/-! ## 1. What comes of a row -/

/-- What comes of a reduction that leaves the given row: a success just if the row is one node, and
then this node; the report of an irreducible row just if there are several, and then with their
symbols, whose names are written with blanks between them. -/
structure Outcome (result : EStateM.Result Failure Workspace NodeId) (row : List Slot) : Prop where
  ok_iff : (∃ root v, result = .ok root v) ↔ row.length = 1
  root : ∀ {root v}, result = .ok root v → row.map (·.id) = [root]
  irreducible_iff : (∃ remaining span line v,
    result = .error (.diagnostic ⟨.irreducible remaining, span, line⟩) v) ↔ 2 ≤ row.length
  remaining : ∀ {remaining span line v},
    result = .error (.diagnostic ⟨.irreducible remaining, span, line⟩) v →
      remaining = row.map (·.symbol)
        ∧ Symbol.joinNames remaining = " ".intercalate (row.map (·.symbol.name))

/-- A row that the arena holds is concluded with what is left of it. -/
theorem outcome_conclude {w : Workspace} {row : List Derivation}
    (hrow : ∀ d ∈ row, w.arena.Holds d) :
    Outcome ((conclude (row.map slot)).run w) (row.map slot) := by
  match row, hrow with
  | [], _ =>
      have hrun : (conclude ([].map slot)).run w
          = .error (.diagnostic ⟨.unexpectedEnd, none, 1⟩) w := rfl
      rw [hrun]
      exact ⟨by simp, by simp, by simp, by simp⟩
  | [d], _ =>
      have hrun : (conclude ([d].map slot)).run w = .ok d.id w := rfl
      rw [hrun]
      refine ⟨by simp, fun {root v} hok => ?_, by simp, by simp⟩
      cases hok
      rfl
  | d :: e :: rest, hrow =>
      rw [conclude_run hrow]
      refine ⟨by simp, by simp, by simp, fun {remaining span line v} herror => ?_⟩
      cases herror
      rw [symbols_slots]
      refine ⟨rfl, ?_⟩
      unfold Symbol.joinNames
      simp only [List.map_map]
      rfl

/-! ## 2. What is left of a row -/

/-- **The search takes the first of the widest parts that were added as frames, and a reduction goes
on until no part was.** The grammar is any that additions of rules have made, where a later one
replaces an earlier one for the same frame, and the row is any of nodes that the arena has. Unless
passes can be made without end, the reduction comes to a row of which no part was added as a frame.
It succeeds just if this row is one node, and where it reports an irreducible row, it names the
symbols of this one. -/
theorem reduce_exhausts {additions : List (List Symbol × Production)} {g : Grammar}
    (hbuild : Grammar.build additions = .ok g) (mode : BindingMode) {w : Workspace}
    {live : List NodeId} (hlive : ∀ id ∈ live, id < w.arena.size) :
    ∃ row, (slots live).run w = .ok row w ∧ row.map (·.id) = live
      ∧ (∀ slot ∈ row, (w.arena.get? slot.id).map (·.symbol) = some slot.symbol)
      ∧ (∀ window, g.find (row.map (·.symbol)) = some window
          ↔ Grammar.Chosen additions (row.map (·.symbol)) window)
      ∧ (g.find (row.map (·.symbol)) = none
          ↔ Grammar.Frameless additions (row.map (·.symbol)))
      ∧ ((∃ steps w' row', Reduces g mode steps w row w' row'
            ∧ (slots (row'.map (·.id))).run w' = .ok row' w'
            ∧ Grammar.Frameless additions (row'.map (·.symbol))
            ∧ Outcome ((reduce g mode live).run w) row')
        ∨ (∀ k, ∃ v other, Reduces g mode k w row v other)
          ∧ ∃ v, (reduce g mode live).run w = .error (.fault .endless) v) := by
  obtain ⟨row, rfl, hrow⟩ := exists_leaves_of_lt hlive
  refine ⟨row.map slot, slots_run hrow, ?_, ?_, fun window => Grammar.find_build_iff hbuild window,
    Grammar.find_build_eq_none_iff hbuild, ?_⟩
  · rw [List.map_map]
    rfl
  · intro slot hslot
    obtain ⟨d, hd, rfl⟩ := List.mem_map.mp hslot
    exact congrArg (Option.map (·.symbol)) (hrow d hd).get?
  · refine (reduce_ends_or_endless g mode hrow).imp_left ?_
    rintro ⟨steps, w', last, hreduces, hnone, hholds, hend⟩
    refine ⟨steps, w', last.map slot, hreduces, ?_, ?_, ?_⟩
    · rw [List.map_map]
      exact slots_run hholds
    · rw [symbols_slots, ← Grammar.find_build_eq_none_iff hbuild]
      exact hnone
    · rw [hend]
      exact outcome_conclude hholds

/-- A grammar in which operands and expressions turn into one another. -/
def circle : Grammar where
  rules :=
    [⟨[.operand], ⟨.expression, .left, 0, 0, false⟩, Nat.one_pos, one_le_maxFrame, Nat.one_pos,
        Nat.one_pos⟩,
     ⟨[.expression, .orWord, .operand], ⟨.codeBlock, .disjoin, 0, 2, false⟩, by decide, by decide,
        by decide, by decide⟩,
     ⟨[.expression], ⟨.operand, .left, 0, 0, false⟩, Nat.one_pos, one_le_maxFrame, Nat.one_pos,
        Nat.one_pos⟩]

/-- How the grammar comes about, with a first rule that is replaced by the last. -/
def circleAdditions : List (List Symbol × Production) :=
  ([.operand], ⟨.statement, .left, 0, 0, false⟩)
    :: circle.rules.reverse.map fun rule => (rule.frame, rule.production)

/-- The leaves of `T or F`. -/
def circleLeaves : List Node :=
  [.terminal .operand "T" ⟨0, 1⟩ 1 .makeTrue, .terminal .orWord "or" ⟨2, 4⟩ 1 .inert,
    .terminal .operand "F" ⟨5, 6⟩ 1 .makeFalse]

/-- The first operand turns into an expression, by the rule that was added last. With this a wider
part is a frame, and the circle is left. -/
theorem reduce_exhausts_circle :
    Grammar.Chosen circleAdditions [.operand, .orWord, .operand]
        ⟨0, 1, ⟨.expression, .left, 0, 0, false⟩⟩
      ∧ ∃ row : List Slot, row.map (·.id) = [4]
        ∧ Grammar.Frameless circleAdditions (row.map (·.symbol)) := by
  obtain ⟨row, hslots, -, -, hchosen, -, hend⟩ := @reduce_exhausts circleAdditions circle rfl .bind
    (.ofLeaves circleLeaves {}) [0, 1, 2] (by decide)
  cases hslots
  refine ⟨(hchosen _).mp (by decide), ?_⟩
  have hroot : (reduce circle .bind [0, 1, 2]).run' (.ofLeaves circleLeaves {}) = some 4 := by
    decide +kernel
  unfold EStateM.run' at hroot
  rcases hend with ⟨steps, w', row', -, -, hframeless, houtcome⟩ | ⟨-, v, herror⟩
  · cases hrun : (reduce circle .bind [0, 1, 2]).run (.ofLeaves circleLeaves {}) with
    | ok root v =>
        rw [hrun] at hroot
        cases hroot
        exact ⟨row', houtcome.root hrun, hframeless⟩
    | error e v =>
        rw [hrun] at hroot
        cases hroot
  · rw [herror] at hroot
    cases hroot

end Workspace

end Trivalent
