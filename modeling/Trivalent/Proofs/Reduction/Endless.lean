import Mathlib.Data.List.Perm.Subperm
import Trivalent.Proofs.Reduction.Growth

/-!
# Reductions without end

A reduction whose one-symbol rules run in a circle may have no end, and there is a bound on its
passes. The bound takes nothing from a reduction that has an end, whatever its grammar. A circle may
be left when a wider frame comes up; but as long as one place of the row is turned by one-symbol
rules, with the same row around it, no symbol comes back there that would not come back for ever.

* `Turns` -- symbols that follow one another until there is no next one; `Turns.lt` -- there are
  fewer turns than symbols;
* `Grammar.turn` -- what the search makes of one place; `Grammar.find_wide` -- a place that has a
  rule stops being turned only if a wider frame has come up;
* `Step.lower_or_turns`, `Run.turned` -- the steps at one place;
* `Run.steps_le_patience` -- **a run that has an end is not longer than the bound**;
* `Workspace.reduce_ends_or_endless` -- **a reduction comes to a row without frames and concludes
  with it, or there are passes without end**.
-/

namespace Trivalent

open Trivalent.Derivation

/-! ## 1. Turns at one place -/

/-- The number of turns after which there is no next symbol. -/
inductive Turns (next : Symbol → Option Symbol) : Nat → Symbol → Prop
  | stop {s : Symbol} (last : next s = none) : Turns next 0 s
  | turn {k : Nat} {s t : Symbol} (first : next s = some t) (rest : Turns next k t) :
      Turns next (k + 1) s

namespace Turns

variable {next : Symbol → Option Symbol}

theorem unique {k k' : Nat} {s : Symbol} (h : Turns next k s) (h' : Turns next k' s) : k = k' := by
  induction h generalizing k' with
  | stop hnone =>
      cases h' with
      | stop => rfl
      | turn hsome => rw [hnone] at hsome; cases hsome
  | turn hsome _ ih =>
      cases h' with
      | stop hnone => rw [hnone] at hsome; cases hsome
      | turn hsome' rest' =>
          rw [hsome] at hsome'
          cases hsome'
          rw [ih rest']

/-- The symbols on the way are different from one another, for each of them has its own number of
turns to go. -/
theorem exists_trail {k : Nat} {s : Symbol} (h : Turns next k s) :
    ∃ trail : List Symbol, trail.length = k + 1 ∧ trail.Nodup
      ∧ ∀ t ∈ trail, ∃ j ≤ k, Turns next j t := by
  induction h with
  | @stop s hnone =>
      refine ⟨[s], rfl, List.nodup_singleton s, fun t ht => ?_⟩
      rw [List.mem_singleton.mp ht]
      exact ⟨0, Nat.le_refl 0, .stop hnone⟩
  | @turn k s t hsome rest ih =>
      obtain ⟨trail, hlength, hnodup, htrail⟩ := ih
      refine ⟨s :: trail, by rw [List.length_cons, hlength], ?_, fun u hu => ?_⟩
      · refine List.nodup_cons.mpr ⟨fun hmem => ?_, hnodup⟩
        obtain ⟨j, hle, hj⟩ := htrail s hmem
        have := hj.unique (.turn hsome rest)
        omega
      · rcases List.mem_cons.mp hu with rfl | hu
        · exact ⟨k + 1, Nat.le_refl _, .turn hsome rest⟩
        · obtain ⟨j, hle, hj⟩ := htrail u hu
          exact ⟨j, Nat.le_succ_of_le hle, hj⟩

theorem lt {k : Nat} {s : Symbol} (h : Turns next k s) : k < Symbol.all.length := by
  obtain ⟨trail, hlength, hnodup, -⟩ := h.exists_trail
  have hsub := (List.subperm_of_subset hnodup fun t _ => Symbol.mem_all t).length_le
  omega

end Turns

namespace Grammar

variable {g : Grammar} {before after : List Symbol} {s t : Symbol} {p q : Production}

/-- The symbol that takes the place of one between two parts of a row, if a one-symbol rule at this
place is what the search calls for. -/
def turn (g : Grammar) (before after : List Symbol) (s : Symbol) : Option Symbol :=
  match g.find (before ++ s :: after) with
  | some w =>
    if w.position = before.length ∧ w.width = 1 then some w.production.result else none
  | none => none

theorem turn_eq_some (h : g.turn before after s = some t) :
    ∃ p, g.find (before ++ s :: after) = some ⟨before.length, 1, p⟩ ∧ p.result = t := by
  unfold turn at h
  split at h
  · rename_i w hfind
    split at h
    · rename_i hplace
      cases h
      exact ⟨w.production, by rw [hfind, ← hplace.1, ← hplace.2], rfl⟩
    · cases h
  · cases h

theorem turn_of_find (h : g.find (before ++ s :: after) = some ⟨before.length, 1, p⟩) :
    g.turn before after s = some p.result := by
  unfold turn
  rw [h]
  exact if_pos ⟨rfl, rfl⟩

theorem turn_of_find_eq_none (h : g.find (before ++ s :: after) = none) :
    g.turn before after s = none := by
  unfold turn
  rw [h]

/-- Where a place was turned and then is not turned though it has a rule, a wider frame has come
up. There is nothing to turn further left, or it would have been turned before. -/
theorem find_wide (hfound : g.find (before ++ s :: after) = some ⟨before.length, 1, p⟩)
    (hrule : g.lookup [t] = some q) (hstop : g.turn before after t = none) :
    ∃ w, g.find (before ++ t :: after) = some w ∧ 2 ≤ w.width := by
  have hframe : g.IsFrame (before ++ t :: after) before [t] after q := ⟨by simp, hrule⟩
  cases hfind : g.find (before ++ t :: after) with
  | none => exact absurd hframe (find_eq_none hfind)
  | some w =>
      refine ⟨w, rfl, Nat.le_of_not_lt fun hlt => ?_⟩
      obtain ⟨⟨b, f, a, hother, hposition, hwidth⟩, hfirst⟩ := find_eq_some hfind
      obtain ⟨hpos, hleft⟩ := hfirst _ _ _ _ hframe
      have hone : w.width = 1 := by
        rw [List.length_singleton] at hpos
        omega
      have hle : w.position ≤ before.length := hleft hone.symm
      rcases Nat.lt_or_eq_of_le hle with hlt | heq
      · -- this frame stands in the part of the row that has not changed
        have hprefix : b ++ f <+: before := by
          refine List.prefix_of_prefix_length_le ⟨a, hother.row.symm⟩ (List.prefix_append _ _) ?_
          rw [List.length_append, hposition, hwidth, hone]
          exact hlt
        obtain ⟨between, hbetween⟩ := hprefix
        have hold : g.IsFrame (before ++ s :: after) b f (between ++ s :: after) w.production :=
          ⟨by rw [← hbetween, List.append_assoc _ between], hother.lookup⟩
        have hge := ((find_eq_some hfound).2 _ _ _ _ hold).2 (by rw [hwidth, hone])
        rw [hposition] at hge
        exact Nat.not_lt.mpr hge hlt
      · have hturn := turn_of_find (g := g) (p := w.production) (by rw [hfind, ← heq, ← hone])
        rw [hstop] at hturn
        cases hturn

end Grammar

/-! ## 2. Steps at one place -/

section Place

variable {g : Grammar} {mode : BindingMode} {next : NodeId} {declared : Option String}
  {row row' before after : List Derivation} {d : Derivation} {p : Production}

/-- A step at one place puts a node over the one that is there and binds what this declares. -/
theorem Step.at_place (h : Step g mode next (before ++ d :: after) declared row')
    (hfound : g.find ((before ++ d :: after).map symbol) = some ⟨before.length, 1, p⟩) :
    row' = bindAll p.result (next + 1) (before ++ above next p.result p.action d none :: after)
      (declaredBy mode p d) := by
  cases h with
  | @intro before' window after' p' left right found split lookup leftChild rightChild =>
    rw [hfound] at found
    injection found with found
    injection found with hposition hwidth hproduction
    subst hproduction
    -- the row is cut at the place
    rw [List.append_assoc] at split
    obtain ⟨rfl, hrest⟩ := List.append_inj split hposition
    obtain ⟨x, rfl⟩ := List.length_eq_one_iff.mp hwidth.symm
    obtain ⟨rfl, rfl⟩ := List.cons.inj hrest
    -- there is one child to take
    obtain ⟨hl, hr⟩ := Grammar.lookup_children lookup
    have hleft : p.left = 0 := Nat.lt_one_iff.mp hl
    have hright : p.right = 0 := Nat.lt_one_iff.mp hr
    rw [hleft] at leftChild
    cases leftChild
    rw [if_neg (by rw [Production.hasRight, hleft, hright]; decide)] at rightChild
    rw [rightChild]

/-- Such a step leaves less bulk, or it does no more than to put a node over another. -/
theorem Step.lower_or_turns (h : Step g mode next (before ++ d :: after) declared row')
    (hfound : g.find ((before ++ d :: after).map symbol) = some ⟨before.length, 1, p⟩) :
    bulk row' < bulk (before ++ d :: after)
      ∨ row' = before ++ above next p.result p.action d none :: after := by
  rw [h.at_place hfound]
  rcases bindAll_eq_or_lt p.result (next + 1)
    (before ++ above next p.result p.action d none :: after) (declaredBy mode p d) with heq | hlt
  · exact .inr heq
  · refine .inl (Nat.lt_of_lt_of_le hlt ?_)
    have hd := bulk_lt_cons d after
    rw [bulk_append, bulk_append, bulk_cons_above]
    omega

/-- A node that is no leaf declares nothing. -/
theorem Step.turns (h : Step g mode next (before ++ d :: after) declared row')
    (hfound : g.find ((before ++ d :: after).map symbol) = some ⟨before.length, 1, p⟩)
    (hd : d.node.literal? = none) :
    row' = before ++ above next p.result p.action d none :: after := by
  have hnone : declaredBy mode p d = none := by
    unfold declaredBy
    rw [hd, ite_self]
  rw [h.at_place hfound, hnone, bindAll_none]

/-- A step that takes more than one node leaves less bulk. -/
theorem Step.lower_of_wide (h : Step g mode next row declared row') {w : Grammar.Window}
    (hfound : g.find (row.map symbol) = some w) (hwide : 2 ≤ w.width) : bulk row' < bulk row := by
  cases h with
  | @intro before window after p left right found split lookup leftChild rightChild =>
    rw [hfound] at found
    injection found with found
    subst found
    have hwindow : 2 ≤ bulk window := Nat.le_trans hwide (Nat.le_add_right _ _)
    have hnew : bulk (before ++ above next p.result p.action left right :: after) < bulk row := by
      rw [split, bulk_append, bulk_append, bulk_append, bulk_cons_above]
      omega
    rcases bindAll_eq_or_lt p.result (next + 1)
      (before ++ above next p.result p.action left right :: after) (declaredBy mode p left)
      with heq | hlt
    · rw [heq]
      exact hnew
    · exact Nat.lt_trans hlt hnew

end Place

/-! ## 3. Runs that have an end -/

/-- The nodes of a row that have a one-symbol rule. -/
def climbers (g : Grammar) (row : List Derivation) : Nat :=
  row.countP fun d => (g.lookup [d.symbol]).isSome

/-- More passes than a reduction of a row of at most `n` nodes makes if it has an end. Between two
losses of bulk, every place that is turned is turned for less than all symbols. -/
def patience (g : Grammar) (n : Nat) (row : List Derivation) : Nat :=
  bulk row * (Symbol.all.length * (n + 1) + 1) + Symbol.all.length * climbers g row

section Ends

variable {g : Grammar} {mode : BindingMode} {n : Nat} {row row' before after : List Derivation}
  {d e : Derivation}

theorem climbers_le (g : Grammar) (hlen : row.length ≤ n) : climbers g row ≤ n :=
  Nat.le_trans List.countP_le_length hlen

/-- Less bulk makes up for all the turns that a row of some length allows. -/
theorem patience_lt (hlen : row'.length ≤ n) (h : bulk row' < bulk row) :
    patience g n row' + Symbol.all.length < patience g n row := by
  have hclimbers := Nat.mul_le_mul_left Symbol.all.length (climbers_le g hlen)
  have hbulk := Nat.mul_le_mul_right (Symbol.all.length * (n + 1) + 1) h
  have hunit : Symbol.all.length * (n + 1) = Symbol.all.length * n + Symbol.all.length :=
    Nat.mul_succ _ _
  rw [Nat.succ_mul] at hbulk
  unfold patience
  omega

/-- So does a place that has no rule any more, for the turns there. -/
theorem patience_turned (hbulk : bulk row' ≤ bulk row)
    (hclimbers : climbers g row' + 1 = climbers g row) :
    patience g n row' + Symbol.all.length ≤ patience g n row := by
  have hunits := Nat.mul_le_mul_right (Symbol.all.length * (n + 1) + 1) hbulk
  unfold patience
  rw [← hclimbers, Nat.mul_succ _ (climbers g row')]
  omega

theorem climbers_turned {p : Production} (hd : g.lookup [d.symbol] = some p)
    (he : g.lookup [e.symbol] = none) :
    climbers g (before ++ e :: after) + 1 = climbers g (before ++ d :: after) := by
  unfold climbers
  rw [List.countP_append, List.countP_append, List.countP_cons, List.countP_cons, hd, he]
  exact rfl

theorem patience_le_stepBound (g : Grammar) (row : List Derivation) :
    patience g row.length row ≤ Workspace.stepBound row.length := by
  have hclimbers := Nat.mul_le_mul_left Symbol.all.length (climbers_le g (Nat.le_refl row.length))
  have hbulk := Nat.mul_le_mul_right (Symbol.all.length * (row.length + 1) + 1) (bulk_le row)
  have hunit : Symbol.all.length * (row.length + 1)
      = Symbol.all.length * row.length + Symbol.all.length := Nat.mul_succ _ _
  unfold patience Workspace.stepBound
  rw [Nat.succ_mul]
  omega

/-- A run that has an end first turns a place as often as it can. -/
theorem Run.turns {steps : Nat} {names : List String} {last : List Derivation}
    (h : Run g mode steps (before ++ d :: after) names last)
    (hlast : g.find (last.map symbol) = none) (hd : d.node.literal? = none) :
    ∃ k e rest names', Turns (g.turn (before.map symbol) (after.map symbol)) k d.symbol
      ∧ steps = k + rest ∧ Run g mode rest (before ++ e :: after) names' last
      ∧ e.node.literal? = none ∧ g.turn (before.map symbol) (after.map symbol) e.symbol = none := by
  generalize hrow : before ++ d :: after = row at h
  induction h generalizing d with
  | refl row =>
      subst hrow
      have hstop : g.turn (before.map symbol) (after.map symbol) d.symbol = none :=
        Grammar.turn_of_find_eq_none (by rw [← List.map_cons, ← List.map_append, hlast])
      exact ⟨0, d, 0, [], .stop hstop, rfl, .refl _, hd, hstop⟩
  | @step next steps row row' row'' declared names first rest ih =>
      subst hrow
      cases hturn : g.turn (before.map symbol) (after.map symbol) d.symbol with
      | none => exact ⟨0, d, steps + 1, _, .stop hturn, by omega, .step first rest, hd, hturn⟩
      | some t =>
          obtain ⟨p, hfound, rfl⟩ := Grammar.turn_eq_some hturn
          rw [← List.map_cons, ← List.map_append, List.length_map] at hfound
          obtain ⟨k, e, left, names', hturns, hsteps, hrun, he, hstop⟩ :=
            ih hlast (literal?_above next p.result p.action d none) (first.turns hfound hd).symm
          rw [symbol_above] at hturns
          exact ⟨k + 1, e, left, names', .turn hturn hturns, by omega, hrun, he, hstop⟩

/-- After a first turn a place is turned less often than there are symbols. Then it has no rule any
more, or a wider frame has come up. -/
theorem Run.turned {next : NodeId} {p : Production} {steps : Nat} {names : List String}
    {last : List Derivation}
    (h : Run g mode steps (before ++ above next p.result p.action d none :: after) names last)
    (hlast : g.find (last.map symbol) = none)
    (hfound : g.find ((before ++ d :: after).map symbol) = some ⟨before.length, 1, p⟩) :
    ∃ k e rest names', k + 1 < Symbol.all.length ∧ steps = k + rest
      ∧ Run g mode rest (before ++ e :: after) names' last ∧ e.node.literal? = none
      ∧ (g.lookup [e.symbol] = none
        ∨ ∃ w, g.find ((before ++ e :: after).map symbol) = some w ∧ 2 ≤ w.width) := by
  rw [List.map_append, List.map_cons, ← List.length_map symbol] at hfound
  obtain ⟨k, e, rest, names', hturns, hsteps, hrun, he, hstop⟩ :=
    h.turns hlast (literal?_above ..)
  rw [symbol_above] at hturns
  have hcount := (Turns.turn (Grammar.turn_of_find hfound) hturns).lt
  refine ⟨k, e, rest, names', hcount, hsteps, hrun, he, ?_⟩
  cases hrule : g.lookup [e.symbol] with
  | none => exact .inl rfl
  | some q =>
      rw [List.map_append, List.map_cons]
      exact .inr (Grammar.find_wide hfound hrule hstop)

/-- **A run that has an end is not longer than its first row allows.** -/
theorem Run.steps_le_patience {steps : Nat} {names : List String} {last : List Derivation}
    (h : Run g mode steps row names last) (hlast : g.find (last.map symbol) = none)
    (hlen : row.length ≤ n) : steps ≤ patience g n row := by
  induction steps using Nat.strongRecOn generalizing row names with
  | ind steps ih =>
  -- after a loss of bulk, there is patience left for turns at one place
  have hlower : ∀ {rest : Nat} {row' : List Derivation} {names' : List String}, rest < steps →
      Run g mode rest row' names' last → row'.length ≤ n → bulk row' < bulk row →
      rest + Symbol.all.length < patience g n row := by
    intro rest row' names' hless hrest hlen' hlt
    have hle := ih rest hless hrest hlen'
    have := patience_lt (g := g) hlen' hlt
    omega
  cases h with
  | refl => exact Nat.zero_le _
  | @step next steps _ row₁ _ declared names first rest =>
      have hlen₁ := Nat.le_trans first.length_le hlen
      have hlower₁ := hlower (Nat.lt_succ_self steps) rest hlen₁
      obtain ⟨w, hfound⟩ : ∃ w, g.find (row.map symbol) = some w := by
        cases first with
        | intro found => exact ⟨_, found⟩
      obtain ⟨before, window, after, rfl, hposition, hwidth, hlookup⟩ := exists_window hfound
      match window, (Grammar.lookup_length hlookup).1, hwidth with
      | _ :: _ :: _, _, hwidth =>
          have hwide : 2 ≤ w.width := by
            rw [← hwidth]
            exact Nat.le_add_left 2 _
          have := hlower₁ (first.lower_of_wide hfound hwide)
          omega
      | [d], _, hwidth =>
          rw [List.append_assoc, List.singleton_append] at first hfound hlower hlower₁ hlen ⊢
          have hplace : w = ⟨before.length, 1, w.production⟩ := by
            rw [hposition, show 1 = w.width from hwidth]
          rw [hplace] at hfound
          rcases first.lower_or_turns hfound with hlt | rfl
          · have := hlower₁ hlt
            omega
          · obtain ⟨k, e, left, names', hcount, rfl, hrun, he, hend⟩ := rest.turned hlast hfound
            have hbulk : bulk (before ++ e :: after) ≤ bulk (before ++ d :: after) := by
              have hd := bulk_lt_cons d after
              rw [bulk_append, bulk_append, bulk_cons_of_branch he]
              omega
            have hlen₂ : (before ++ e :: after).length ≤ n := by
              rw [List.length_append, List.length_cons] at hlen ⊢
              exact hlen
            rcases hend with hrule | ⟨w', hfound', hwide⟩
            · have hle := ih left (by omega) hrun hlen₂
              have := patience_turned (n := n) hbulk (climbers_turned hlookup hrule)
              omega
            · cases hrun with
              | refl =>
                  rw [hlast] at hfound'
                  cases hfound'
              | @step next' left _ row₂ _ declared' names₂ first' rest' =>
                  have hlt := Nat.lt_of_lt_of_le (first'.lower_of_wide hfound' hwide) hbulk
                  have := hlower (by omega) rest' (Nat.le_trans first'.length_le hlen₂) hlt
                  omega

end Ends

/-! ## 4. Reductions that have an end -/

namespace Workspace

section Loop

variable {g : Grammar} {mode : BindingMode} {w : Workspace} {row : List Derivation}

/-- Passes over a row that the arena holds make a run, and the arena holds the row they come to. -/
theorem Reduces.run {steps : Nat} {w' : Workspace} {row' : List Slot}
    (hrow : ∀ d ∈ row, w.arena.Holds d) (h : Reduces g mode steps w (row.map slot) w' row') :
    ∃ names last, row' = last.map slot ∧ Run g mode steps row names last
      ∧ ∀ d ∈ last, w'.arena.Holds d := by
  generalize hslots : row.map slot = slots at h
  induction h generalizing row with
  | refl w slots => exact ⟨[], row, hslots.symm, .refl row, hrow⟩
  | step found pass rest ih =>
      subst hslots
      rw [symbols_slots] at found
      obtain ⟨declared, row₁, w₁, hpass, hstep, hholds⟩ := @advance_run g mode _ row _ hrow found
      rw [pass] at hpass
      cases hpass
      obtain ⟨names, last, hlast, hrun, hheld⟩ := ih hholds rfl
      exact ⟨_, last, hlast, .step hstep hrun, hheld⟩

/-- Passes can be made until no window is a frame. -/
theorem exists_pass_or_end (hrow : ∀ d ∈ row, w.arena.Holds d) (k : Nat) :
    (∃ v other, Reduces g mode k w (row.map slot) v other)
      ∨ ∃ steps w' row', Reduces g mode steps w (row.map slot) w' row'
        ∧ g.find (row'.map (·.symbol)) = none := by
  induction k generalizing w row with
  | zero => exact .inl ⟨w, _, .refl w _⟩
  | succ k ih =>
      cases hfind : g.find (row.map symbol) with
      | none => exact .inr ⟨0, w, row.map slot, .refl w _, by rw [symbols_slots, hfind]⟩
      | some window =>
          obtain ⟨declared, row₁, w₁, hpass, -, hholds⟩ :=
            @advance_run g mode w row window hrow hfind
          have hfound : g.find ((row.map slot).map (·.symbol)) = some window := by
            rw [symbols_slots, hfind]
          rcases ih hholds with ⟨v, other, hpasses⟩ | ⟨steps, w', row', hpasses, hnone⟩
          · exact .inl ⟨v, other, .step hfound hpass hpasses⟩
          · exact .inr ⟨steps + 1, w', row', .step hfound hpass hpasses, hnone⟩

/-- **A reduction comes to a row without frames and concludes with it, or there are passes without
end**, and it says so. -/
theorem reduce_ends_or_endless (g : Grammar) (mode : BindingMode)
    (hrow : ∀ d ∈ row, w.arena.Holds d) :
    (∃ steps w', ∃ last : List Derivation, Reduces g mode steps w (row.map slot) w' (last.map slot)
        ∧ g.find (last.map symbol) = none ∧ (∀ d ∈ last, w'.arena.Holds d)
        ∧ (reduce g mode (row.map (·.id))).run w = (conclude (last.map slot)).run w')
      ∨ (∀ k, ∃ v other, Reduces g mode k w (row.map slot) v other)
        ∧ ∃ v, (reduce g mode (row.map (·.id))).run w = .error (.fault .endless) v := by
  by_cases hpasses : ∀ k, ∃ v other, Reduces g mode k w (row.map slot) v other
  · refine .inr ⟨hpasses, ?_⟩
    obtain ⟨steps, w', row', hreduces, ⟨hnone, -⟩ | hend⟩ := @reduce_reduces g mode w row hrow
    · obtain ⟨v, other, hlonger⟩ := hpasses (steps + 1)
      exact absurd (hreduces.steps_le hnone hlonger) (Nat.not_succ_le_self steps)
    · exact ⟨w', hend⟩
  · left
    rw [not_forall] at hpasses
    obtain ⟨k, hk⟩ := hpasses
    obtain ⟨steps, w', row', hreduces, hnone⟩ :=
      (@exists_pass_or_end g mode w row hrow k).resolve_left hk
    obtain ⟨names, last, rfl, hrun, hholds⟩ := hreduces.run hrow
    have hlast := hnone
    rw [symbols_slots] at hlast
    have hsteps := Nat.le_trans (hrun.steps_le_patience hlast (Nat.le_refl row.length))
      (patience_le_stepBound g row)
    exact ⟨steps, w', last, hreduces, hlast, hholds, hreduces.reduce_eq hrow hnone hsteps⟩

end Loop

end Workspace

end Trivalent
