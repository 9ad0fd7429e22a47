import Mathlib.Data.Finset.Card
import Mathlib.Logic.Relation
import Trivalent.Proofs.Parse.Shape

/-!
# Reductions by any grammar end

The measure of `Trivalent.Proofs.Reduction.Termination` needs a rank for every symbol. Here the rank
comes from the grammar itself: where one-symbol rules never lead back to the symbol they started
from, a symbol ranks by how many symbols they lead to.

* `Grammar.Leads`, `Grammar.Acyclic` -- the one-symbol rules and that they do not run in a circle;
* `Grammar.Acyclic.exists_ranked`, `Grammar.Ranked.acyclic` -- this is the same as to have a rank;
* `Workspace.advance` -- one pass through the loop of a reduction; `Workspace.Reduces` -- passes one
  after another, as the loop makes them;
* `Workspace.exists_reduces` -- passes come to a row without frames, each making the row lighter;
* `Workspace.Terminates` -- what it is for a reduction to end; `Workspace.reduce_terminates` --
  **every reduction by an acyclic grammar ends**, whatever the arena, the row and the binding mode,
  and the grammar of the language is acyclic.
-/

namespace Trivalent

open Trivalent.Derivation

/-! ## 1. Acyclic grammars -/

namespace Grammar

/-- A one-symbol rule leads from its symbol to its result. -/
def Leads (g : Grammar) (s t : Symbol) : Prop := ∃ p, g.lookup [s] = some p ∧ p.result = t

/-- One-symbol rules never lead back to the symbol they started from. -/
def Acyclic (g : Grammar) : Prop := ∀ s, ¬ Relation.TransGen g.Leads s s

/-- Where ranks go down along one-symbol rules, there is no way back. -/
theorem Ranked.acyclic {g : Grammar} {rank : Symbol → Nat} (h : g.Ranked rank) : g.Acyclic := by
  have hdrop : ∀ {s t}, Relation.TransGen g.Leads s t → rank t < rank s := by
    intro s t hpath
    induction hpath with
    | single hlead =>
        obtain ⟨p, hlookup, rfl⟩ := hlead
        exact h.drops _ p hlookup
    | tail _ hlead ih =>
        obtain ⟨p, hlookup, rfl⟩ := hlead
        exact Nat.lt_trans (h.drops _ p hlookup) ih
  exact fun s hloop => Nat.lt_irrefl _ (hdrop hloop)

/-- **Without a circle there are ranks**: the number of symbols that a symbol leads to. -/
theorem Acyclic.exists_ranked {g : Grammar} (h : g.Acyclic) : ∃ rank, g.Ranked rank := by
  classical
  let below (s : Symbol) : Finset Symbol :=
    Symbol.all.toFinset.filter (Relation.TransGen g.Leads s)
  have hmem : ∀ {s t}, t ∈ below s ↔ Relation.TransGen g.Leads s t := by
    intro s t
    rw [Finset.mem_filter, List.mem_toFinset]
    exact and_iff_right (Symbol.mem_all t)
  refine ⟨fun s => (below s).card, ⟨fun s => ?_, fun s p hlookup => ?_⟩⟩
  · -- a symbol is not among those that it leads to
    have hsub : below s ⊂ Symbol.all.toFinset := by
      refine Finset.filter_ssubset.mpr ⟨s, List.mem_toFinset.mpr (Symbol.mem_all s), h s⟩
    exact Nat.lt_of_lt_of_le (Finset.card_lt_card hsub) (List.toFinset_card_le _)
  · have hlead : g.Leads s p.result := ⟨p, hlookup, rfl⟩
    refine Finset.card_lt_card ⟨fun t ht => ?_, fun hsub => ?_⟩
    · exact hmem.mpr (.head hlead (hmem.mp ht))
    · exact h p.result (hmem.mp (hsub (hmem.mpr (.single hlead))))

end Grammar

/-! ## 2. The loop, pass by pass -/

namespace Workspace

/-- One pass through the loop: the window is reduced, and the row that comes out is looked up and
noted. -/
def advance (mode : BindingMode) (row : List Slot) (window : Grammar.Window) :
    Work Workspace (List Slot) := do
  let row ← slots (← reduceWindow mode row window)
  note (.remaining (row.map (·.symbol)))
  return row

/-- A number of passes through the loop, from one workspace and row to another. -/
inductive Reduces (g : Grammar) (mode : BindingMode) :
    Nat → Workspace → List Slot → Workspace → List Slot → Prop
  | refl (w : Workspace) (row : List Slot) : Reduces g mode 0 w row w row
  | step {steps : Nat} {w w₁ w' : Workspace} {row row₁ row' : List Slot} {window : Grammar.Window}
      (found : g.find (row.map (·.symbol)) = some window)
      (pass : (advance mode row window).run w = .ok row₁ w₁)
      (rest : Reduces g mode steps w₁ row₁ w' row') : Reduces g mode (steps + 1) w row w' row'

section Loop

variable {g : Grammar} {mode : BindingMode} {w w' : Workspace} {row row' : List Slot} {steps : Nat}

/-- Where a window is found, the loop makes a pass and goes on. -/
theorem reduceRow_succ {window : Grammar.Window} (found : g.find (row.map (·.symbol)) = some window)
    (bound : Nat) :
    reduceRow g mode (bound + 1) row = advance mode row window >>= reduceRow g mode bound := by
  conv => lhs; unfold reduceRow
  rw [found]
  simp only [advance, bind_assoc, pure_bind]

/-- Passes that come to a row without frames are what the loop does, if it may make that many. -/
theorem Reduces.reduceRow_eq (h : Reduces g mode steps w row w' row')
    (hnone : g.find (row'.map (·.symbol)) = none) {bound : Nat} (hle : steps ≤ bound) :
    (reduceRow g mode bound row).run w = (conclude row').run w' := by
  induction h generalizing bound with
  | refl w row =>
      unfold reduceRow
      rw [hnone]
  | @step steps w w₁ w' row row₁ row' window found pass rest ih =>
      obtain ⟨bound, rfl⟩ : ∃ b, bound = b + 1 := ⟨bound - 1, by omega⟩
      rw [reduceRow_succ found, EStateM.run_bind, pass]
      exact ih hnone (Nat.le_of_succ_le_succ hle)

/-- No passes go on beyond a row without frames. -/
theorem Reduces.steps_le (h : Reduces g mode steps w row w' row')
    (hnone : g.find (row'.map (·.symbol)) = none) {k : Nat} {v : Workspace} {other : List Slot}
    (hk : Reduces g mode k w row v other) : k ≤ steps := by
  induction h generalizing k with
  | refl w row =>
      cases hk with
      | refl => exact Nat.le_refl 0
      | step found pass rest =>
          rw [hnone] at found
          cases found
  | step found pass rest ih =>
      cases hk with
      | refl => exact Nat.zero_le _
      | step found' pass' rest' =>
          -- the search and the pass have one outcome
          rw [found] at found'
          cases found'
          rw [pass] at pass'
          cases pass'
          exact Nat.succ_le_succ (ih hnone rest')

end Loop

/-! ## 3. Every pass makes the row lighter -/

/-- A pass over a row that the arena holds succeeds, and makes a step. -/
theorem advance_run {g : Grammar} {mode : BindingMode} {w : Workspace} {row : List Derivation}
    {window : Grammar.Window} (hrow : ∀ d ∈ row, w.arena.Holds d)
    (hfound : g.find (row.map symbol) = some window) :
    ∃ declared row' w', (advance mode (row.map slot) window).run w = .ok (row'.map slot) w'
      ∧ Step g mode w.arena.size row declared row' ∧ ∀ d ∈ row', w'.arena.Holds d := by
  obtain ⟨declared, row', w', hrun, hstep, hgrown⟩ :=
    @reduceWindow_run g mode w row window hrow hfound
  have hnoted := hgrown.note (.remaining ((row'.map slot).map (·.symbol)))
  refine ⟨declared, row', _, ?_, hstep, hnoted.holds⟩
  unfold advance
  rw [EStateM.run_bind, hrun]
  simp only [EStateM.run_bind]
  rw [slots_run hgrown.holds]
  rfl

/-- **Passes come to a row without frames**, and there are no more of them than the first row is
heavy. -/
theorem exists_reduces {g : Grammar} {mode : BindingMode} {rank : Symbol → Nat} (hg : g.Ranked rank)
    {n : Nat} (row : List Derivation) (w : Workspace) (hlen : row.length ≤ n)
    (hrow : ∀ d ∈ row, w.arena.Holds d) :
    ∃ steps w' row', Reduces g mode steps w (row.map slot) w' row'
      ∧ g.find (row'.map (·.symbol)) = none ∧ steps ≤ weight rank n row := by
  induction hweight : weight rank n row using Nat.strongRecOn generalizing row w with
  | ind _ ih =>
      subst hweight
      cases hfind : g.find (row.map symbol) with
      | none => exact ⟨0, w, row.map slot, .refl w _, by rw [symbols_slots, hfind], Nat.zero_le _⟩
      | some window =>
          obtain ⟨declared, row₁, w₁, hpass, hstep, hholds⟩ :=
            @advance_run g mode w row window hrow hfind
          obtain ⟨hshorter, hlighter⟩ := hstep.lighter hg
          have hlen₁ := Nat.le_trans hshorter hlen
          have hlt := weight_lt hg.bounded hlen₁ hlighter
          obtain ⟨steps, w', row', hrest, hnone, hsteps⟩ := ih _ hlt row₁ w₁ hlen₁ hholds rfl
          exact ⟨steps + 1, w', row', .step (by rw [symbols_slots, hfind]) hpass hrest, hnone,
            Nat.lt_of_le_of_lt hsteps hlt⟩

/-! ## 4. Reductions end -/

/-- The reduction of a row of nodes ends: passes come to a row no part of which is a frame, no passes
go on for longer, and the reduction concludes with that row. -/
def Terminates (g : Grammar) (mode : BindingMode) (w : Workspace) (live : List NodeId) : Prop :=
  ∃ row steps w' row', (slots live).run w = .ok row w ∧ Reduces g mode steps w row w' row'
    ∧ (∀ before frame after p, ¬ g.IsFrame (row'.map (·.symbol)) before frame after p)
    ∧ (∀ k v other, Reduces g mode k w row v other → k ≤ steps)
    ∧ (reduce g mode live).run w = (conclude row').run w'

/-- Nodes of an arena, as derivations that nothing has been unfolded from. -/
theorem exists_leaves_of_lt {arena : Arena} {live : List NodeId}
    (h : ∀ id ∈ live, id < arena.size) :
    ∃ row : List Derivation, row.map (·.id) = live ∧ ∀ d ∈ row, arena.Holds d := by
  induction live with
  | nil => exact ⟨[], rfl, fun d hd => absurd hd List.not_mem_nil⟩
  | cons id live ih =>
      obtain ⟨row, hids, hrow⟩ := ih fun i hi => h i (List.mem_cons_of_mem _ hi)
      obtain ⟨node, hget⟩ := Arena.exists_get? (h id List.mem_cons_self)
      refine ⟨.leaf id node :: row, by rw [List.map_cons, hids]; rfl, fun d hd => ?_⟩
      rcases List.mem_cons.mp hd with rfl | hd
      · exact hget
      · exact hrow d hd

/-- Passes within the bound that come to a row without frames are what a reduction does. -/
theorem Reduces.reduce_eq {g : Grammar} {mode : BindingMode} {w w' : Workspace} {steps : Nat}
    {row : List Derivation} {row' : List Slot} (hrow : ∀ d ∈ row, w.arena.Holds d)
    (h : Reduces g mode steps w (row.map slot) w' row')
    (hnone : g.find (row'.map (·.symbol)) = none) (hle : steps ≤ stepBound row.length) :
    (reduce g mode (row.map (·.id))).run w = (conclude row').run w' := by
  have hloop := h.reduceRow_eq hnone hle
  unfold reduce
  split
  · -- an empty row is concluded as it is
    rename_i hempty
    have hnil : row = [] := List.map_eq_nil_iff.mp (List.isEmpty_iff.mp hempty)
    subst hnil
    rw [← hloop]
    rfl
  · rw [EStateM.run_bind, slots_run hrow, List.length_map]
    exact hloop

theorem terminates_of_acyclic {g : Grammar} (hg : g.Acyclic) (mode : BindingMode) {w : Workspace}
    {live : List NodeId} (hlive : ∀ id ∈ live, id < w.arena.size) : Terminates g mode w live := by
  obtain ⟨rank, hrank⟩ := hg.exists_ranked
  obtain ⟨row, rfl, hrow⟩ := exists_leaves_of_lt hlive
  obtain ⟨steps, w', row', hreduces, hnone, hsteps⟩ :=
    @exists_reduces g mode rank hrank row.length row w (Nat.le_refl _) hrow
  have hle := Nat.le_of_lt (Nat.lt_of_le_of_lt hsteps (weight_lt_stepBound hrank.bounded row))
  exact ⟨row.map slot, steps, w', row', slots_run hrow, hreduces,
    fun _ _ _ _ => Grammar.find_eq_none hnone, fun k v other hk => hreduces.steps_le hnone hk, hreduces.reduce_eq hrow hnone hle⟩

/-- **Every reduction by an acyclic grammar ends**, whether it binds identifiers or not, on every
arena and from every row of its nodes. The grammar of the language is acyclic, so the parse of every
row of leaves ends. -/
theorem reduce_terminates :
    (∀ g : Grammar, g.Acyclic → ∀ (mode : BindingMode) (w : Workspace) (live : List NodeId),
        (∀ id ∈ live, id < w.arena.size) → Terminates g mode w live)
      ∧ Grammar.standard.Acyclic
      ∧ ∀ (leaves : List Node) (journal : Journal),
        Terminates .standard .bind (.ofLeaves leaves journal) (List.range leaves.length) := by
  have hstandard : Grammar.standard.Acyclic := Grammar.ranked_standard.acyclic
  refine ⟨fun g hg mode w live hlive => terminates_of_acyclic hg mode hlive, hstandard,
    fun leaves journal => terminates_of_acyclic hstandard .bind fun id hid => ?_⟩
  obtain ⟨d, hd, rfl⟩ := List.mem_map.mp (by rw [ids_leafRow]; exact hid)
  exact (holds_leafRow leaves journal d hd).id_lt

theorem one_le_maxFrame : 1 ≤ maxFrame := by decide

theorem two_le_maxFrame : 2 ≤ maxFrame := by decide

/-- A grammar in which a declaration makes a statement, and a statement climbs to an operand and on
to an expression. -/
def climbing : Grammar where
  rules :=
    [⟨[.valWord, .identifier], ⟨.statement, .bind, 1, 1, true⟩, Nat.two_pos, two_le_maxFrame,
        Nat.one_lt_two, Nat.one_lt_two⟩,
     ⟨[.statement], ⟨.operand, .left, 0, 0, false⟩, Nat.one_pos, one_le_maxFrame, Nat.one_pos,
        Nat.one_pos⟩,
     ⟨[.operand], ⟨.expression, .left, 0, 0, false⟩, Nat.one_pos, one_le_maxFrame, Nat.one_pos,
        Nat.one_pos⟩]

theorem ranked_climbing : climbing.Ranked fun s =>
    if s = .statement then 2 else if s = .operand then 1 else 0 where
  bounded s := by cases s <;> decide
  drops s p h := by
    cases s with
    | statement => cases h; decide
    | operand => cases h; decide
    | _ => cases h

/-- The second identifier of `val x x` is put into the row by the binding, and climbs from there. -/
theorem reduce_terminates_climbing :
    Terminates climbing .bind (.ofLeaves [.terminal .valWord "val" ⟨0, 3⟩ 1 .inert,
      .terminal .identifier "x" ⟨4, 5⟩ 1 .inert, .terminal .identifier "x" ⟨6, 7⟩ 1 .inert] {})
      [0, 1, 2] :=
  reduce_terminates.1 climbing ranked_climbing.acyclic .bind _ _ (by decide)

end Workspace

end Trivalent
