import Trivalent.Proofs.Reduction.Run

/-!
# Reductions end

A step that replaces several symbols makes the row shorter. A one-symbol rule does not, and neither
does a declaration, which puts new symbols into the row in place of raw identifiers, symbols that
may climb a chain of one-symbol rules of their own. What goes down at every step is the pair of

* the length of the row together with the raw identifiers in it (`bulk`), and
* the sum of the ranks of its symbols (`totalRank`), where one-symbol rules lead to a lower rank
  (`Grammar.Ranked`).

Both together are one number (`weight`), and the row of `n` nodes that a parse starts from weighs
less than `stepBound n`. So `Workspace.reduce_run`: **every parse ends within its bound**, in a row
without frames, and is a success exactly if that row is one node.
-/

namespace Trivalent

open Trivalent.Derivation

/-! ## 1. Raw identifiers -/

namespace Derivation

/-- A leaf that a declaration can still cover. -/
def isRaw (d : Derivation) : Bool := d.symbol == .identifier && d.node.literal?.isSome

theorem isRaw_of_isIdentifier {d : Derivation} {name : String}
    (h : d.node.isIdentifier name = true) : d.isRaw = true := by
  unfold Node.isIdentifier at h
  simp only [Bool.and_eq_true, beq_iff_eq] at h
  unfold isRaw symbol
  rw [h.1, h.2]
  rfl

theorem literal?_above (id : NodeId) (symbol : Symbol) (action : Action) (left : Derivation)
    (right : Option Derivation) : (above id symbol action left right).node.literal? = none := by
  cases right <;> rfl

theorem isRaw_of_branch {d : Derivation} (h : d.node.literal? = none) : d.isRaw = false := by
  unfold isRaw
  rw [h]
  exact Bool.and_false _

theorem isRaw_above (id : NodeId) (symbol : Symbol) (action : Action) (left : Derivation)
    (right : Option Derivation) : (above id symbol action left right).isRaw = false :=
  isRaw_of_branch (literal?_above id symbol action left right)

/-- Covering changes nothing, or leaves fewer raw identifiers. -/
theorem coverAll_eq_or_lt (symbol : Symbol) (name : String) (next : NodeId)
    (row : List Derivation) :
    coverAll symbol name next row = row
      ∨ (coverAll symbol name next row).countP isRaw < row.countP isRaw := by
  induction row generalizing next with
  | nil => exact .inl rfl
  | cons d row ih =>
      unfold coverAll
      split
      · rename_i hname
        right
        rw [List.countP_cons_of_pos (isRaw_of_isIdentifier hname), List.countP_cons_of_neg
          (by rw [isRaw_above]; decide)]
        rcases ih (next + 1) with heq | hlt
        · rw [heq]
          exact Nat.lt_succ_self _
        · exact Nat.lt_succ_of_lt hlt
      · rcases ih next with heq | hlt
        · left
          rw [heq]
        · right
          rw [List.countP_cons, List.countP_cons]
          exact Nat.add_lt_add_right hlt _

end Derivation

/-! ## 2. What goes down -/

/-- One-symbol rules lead to symbols of lower rank, and there are no more ranks than symbols. -/
structure Grammar.Ranked (g : Grammar) (rank : Symbol → Nat) : Prop where
  bounded : ∀ s, rank s < Symbol.all.length
  drops : ∀ s p, g.lookup [s] = some p → rank p.result < rank s

/-- The length of a row and the raw identifiers in it. -/
def bulk (row : List Derivation) : Nat := row.length + row.countP isRaw

/-- The ranks of all symbols of a row. -/
def totalRank (rank : Symbol → Nat) : List Derivation → Nat
  | [] => 0
  | d :: row => rank d.symbol + totalRank rank row

/-- What a step makes smaller: the bulk, or else the total rank. -/
def Lighter (rank : Symbol → Nat) (row' row : List Derivation) : Prop :=
  bulk row' < bulk row ∨ bulk row' = bulk row ∧ totalRank rank row' < totalRank rank row

theorem totalRank_append (rank : Symbol → Nat) (a b : List Derivation) :
    totalRank rank (a ++ b) = totalRank rank a + totalRank rank b := by
  induction a with
  | nil => exact (Nat.zero_add _).symm
  | cons d a ih => rw [List.cons_append, totalRank, totalRank, ih, Nat.add_assoc]

theorem bulk_append (a b : List Derivation) : bulk (a ++ b) = bulk a + bulk b := by
  unfold bulk
  rw [List.length_append, List.countP_append]
  omega

theorem bulk_le (row : List Derivation) : bulk row ≤ 2 * row.length := by
  have := @List.countP_le_length _ isRaw row
  unfold bulk
  omega

theorem bulk_lt_cons (d : Derivation) (row : List Derivation) : bulk row < bulk (d :: row) := by
  unfold bulk
  rw [List.countP_cons, List.length_cons]
  omega

theorem bulk_cons_of_branch {d : Derivation} (h : d.node.literal? = none) (row : List Derivation) :
    bulk (d :: row) = bulk row + 1 := by
  unfold bulk
  rw [List.countP_cons_of_neg (by rw [isRaw_of_branch h]; decide), List.length_cons]
  omega

theorem bulk_cons_above (id : NodeId) (symbol : Symbol) (action : Action) (left : Derivation)
    (right : Option Derivation) (row : List Derivation) :
    bulk (above id symbol action left right :: row) = bulk row + 1 :=
  bulk_cons_of_branch (literal?_above id symbol action left right) row

/-- Binding in a row leaves less bulk, if it does anything. -/
theorem bindAll_eq_or_lt (symbol : Symbol) (next : NodeId) (row : List Derivation)
    (declared : Option String) :
    bindAll symbol next row declared = row
      ∨ bulk (bindAll symbol next row declared) < bulk row := by
  cases declared with
  | none => exact .inl rfl
  | some name =>
      rw [bindAll_some]
      refine (coverAll_eq_or_lt symbol name next row).imp_right fun hlt => ?_
      unfold bulk
      rw [length_coverAll]
      exact Nat.add_lt_add_left hlt _

theorem bindAll_lighter {rank : Symbol → Nat} {row row' : List Derivation} (symbol : Symbol)
    (next : NodeId) (declared : Option String) (h : Lighter rank row' row) :
    Lighter rank (bindAll symbol next row' declared) row := by
  rcases bindAll_eq_or_lt symbol next row' declared with heq | hlt
  · rw [heq]
    exact h
  · left
    rcases h with h | ⟨h, _⟩ <;> omega

/-- No step makes the row longer. -/
theorem Step.length_le {g : Grammar} {mode : BindingMode} {next : NodeId}
    {row row' : List Derivation} {declared : Option String}
    (h : Step g mode next row declared row') : row'.length ≤ row.length := by
  cases h with
  | @intro before window after p left right _ split lookup _ _ =>
    have hpos := (Grammar.lookup_length lookup).1
    rw [List.length_map] at hpos
    rw [length_bindAll, split, List.length_append, List.length_cons, List.length_append,
      List.length_append]
    omega

/-- **Every step makes the row lighter**, and never longer. -/
theorem Step.lighter {g : Grammar} {mode : BindingMode} {rank : Symbol → Nat} {next : NodeId}
    {row row' : List Derivation} {declared : Option String} (hg : g.Ranked rank)
    (h : Step g mode next row declared row') :
    row'.length ≤ row.length ∧ Lighter rank row' row := by
  refine ⟨h.length_le, ?_⟩
  cases h with
  | @intro before window after p left right _ split lookup leftChild rightChild =>
    have hpos := (Grammar.lookup_length lookup).1
    rw [List.length_map] at hpos
    refine bindAll_lighter _ _ _ ?_
    rw [split]
    unfold Lighter
    rw [bulk_append, bulk_cons_above, bulk_append, bulk_append, totalRank_append,
      totalRank_append, totalRank_append]
    -- a window of one symbol is as long as what replaces it, so the rank has to go down
    match window, hpos, lookup with
    | [d], _, lookup =>
        have hdrop := hg.drops d.symbol p lookup
        have hrank : totalRank rank (above next p.result p.action left right :: after)
            = rank p.result + totalRank rank after := by
          rw [totalRank, symbol_above]
        have hone : totalRank rank [d] = rank d.symbol := Nat.add_zero _
        have hbulk : 1 ≤ bulk [d] := Nat.le_add_right 1 _
        rw [hrank, hone]
        omega
    | d :: e :: rest, _, _ =>
        have hbulk : 2 ≤ bulk (d :: e :: rest) := by
          unfold bulk
          rw [List.length_cons, List.length_cons]
          omega
        omega

/-! ## 3. Runs are bounded -/

/-- Bulk and total rank in one number, for rows of at most `n` nodes. -/
def weight (rank : Symbol → Nat) (n : Nat) (row : List Derivation) : Nat :=
  bulk row * (Symbol.all.length * (n + 1)) + totalRank rank row

theorem totalRank_lt {rank : Symbol → Nat} (hrank : ∀ s, rank s < Symbol.all.length) {n : Nat}
    {row : List Derivation} (hlen : row.length ≤ n) :
    totalRank rank row < Symbol.all.length * (n + 1) := by
  have hsum : ∀ row : List Derivation, totalRank rank row ≤ Symbol.all.length * row.length := by
    intro row
    induction row with
    | nil => exact Nat.le_refl 0
    | cons d row ih =>
        have h := hrank d.symbol
        rw [totalRank, List.length_cons, Nat.mul_succ]
        omega
  have hpos : 0 < Symbol.all.length := by decide
  calc totalRank rank row ≤ Symbol.all.length * row.length := hsum row
    _ ≤ Symbol.all.length * n := Nat.mul_le_mul_left _ hlen
    _ < Symbol.all.length * (n + 1) := by rw [Nat.mul_succ]; omega

theorem weight_lt {rank : Symbol → Nat} (hrank : ∀ s, rank s < Symbol.all.length) {n : Nat}
    {row row' : List Derivation} (hlen : row'.length ≤ n) (h : Lighter rank row' row) :
    weight rank n row' < weight rank n row := by
  have hlt := totalRank_lt hrank hlen
  unfold weight
  generalize Symbol.all.length * (n + 1) = unit at hlt ⊢
  rcases h with h | ⟨heq, h⟩
  · have hstep : (bulk row' + 1) * unit ≤ bulk row * unit := Nat.mul_le_mul_right _ h
    rw [Nat.add_mul, Nat.one_mul] at hstep
    omega
  · rw [heq]
    omega

/-- **A run is not longer than its first row is heavy.** -/
theorem Run.steps_le {g : Grammar} {mode : BindingMode} {rank : Symbol → Nat} {n steps : Nat}
    {row row' : List Derivation} {names : List String} (hg : g.Ranked rank)
    (h : Run g mode steps row names row') (hlen : row.length ≤ n) :
    steps + weight rank n row' ≤ weight rank n row := by
  induction h with
  | refl row => exact Nat.le_of_eq (Nat.zero_add _)
  | step first rest ih =>
      obtain ⟨hshorter, hlighter⟩ := first.lighter hg
      have hle := Nat.le_trans hshorter hlen
      have hlt := weight_lt hg.bounded hle hlighter
      have := ih hle
      omega

theorem weight_lt_stepBound {rank : Symbol → Nat} (hrank : ∀ s, rank s < Symbol.all.length)
    (row : List Derivation) : weight rank row.length row < Workspace.stepBound row.length := by
  have hlt := totalRank_lt hrank (Nat.le_refl row.length)
  have hbulk := bulk_le row
  unfold weight Workspace.stepBound
  generalize Symbol.all.length * (row.length + 1) = unit at hlt ⊢
  calc bulk row * unit + totalRank rank row
      < 2 * row.length * unit + unit := Nat.add_lt_add_of_le_of_lt (Nat.mul_le_mul_right _ hbulk) hlt
    _ = (2 * row.length + 1) * unit := by rw [Nat.add_mul, Nat.one_mul]
    _ ≤ (2 * row.length + 1) * (unit + 1) := Nat.mul_le_mul_left _ (Nat.le_succ _)

/-! ## 4. The outcome of a parse -/

theorem Step.ne_nil {g : Grammar} {mode : BindingMode} {next : NodeId}
    {row row' : List Derivation} {declared : Option String}
    (h : Step g mode next row declared row') : row' ≠ [] := by
  cases h with
  | @intro before window after p left right _ _ _ _ _ =>
    intro hnil
    have hlen := congrArg List.length hnil
    rw [length_bindAll, List.length_append, List.length_cons] at hlen
    cases hlen

namespace Workspace

/-- **Every parse ends within its bound.** The row it ends in has no frame left; if that is one
node, the node is the result, and if not, the symbols of the row are reported. -/
theorem reduce_run {g : Grammar} {mode : BindingMode} {rank : Symbol → Nat} {w : Workspace}
    {row : List Derivation} (hg : g.Ranked rank) (hrow : ∀ d ∈ row, w.arena.Holds d)
    (hne : row ≠ []) :
    ∃ steps names row' w', Run g mode steps row names row' ∧ Grown w w' names row'
      ∧ g.find (row'.map symbol) = none
      ∧ ((∃ d, row' = [d] ∧ (reduce g mode (row.map (·.id))).run w = .ok d.id w')
        ∨ ∃ span line, 2 ≤ row'.length ∧ (reduce g mode (row.map (·.id))).run w
            = .error (.diagnostic ⟨.irreducible (row'.map symbol), some span, line⟩) w') := by
  rcases @reduceRow_run g mode (stepBound row.length) row w hrow with
    ⟨steps, names, row', w', hrun, hgrown, hnone, heq⟩ | ⟨names, row', hlong⟩
  · refine ⟨steps, names, row', w', hrun, hgrown, hnone, ?_⟩
    have hreduce : (reduce g mode (row.map (·.id))).run w = (conclude (row'.map slot)).run w' := by
      unfold reduce
      rw [if_neg (by simpa using hne), EStateM.run_bind, slots_run hrow, List.length_map]
      exact heq
    have hne' : row' ≠ [] := hrun.preserves (fun hstep _ => hstep.ne_nil) hne
    rw [hreduce]
    match row', hne', hgrown with
    | [d], _, _ => exact .inl ⟨d, rfl, rfl⟩
    | d :: e :: rest, _, hgrown =>
        exact .inr ⟨_, _, Nat.le_add_left 2 _, conclude_run hgrown.holds⟩
  · have hle := hlong.steps_le hg (Nat.le_refl _)
    have hlt := weight_lt_stepBound hg.bounded row
    omega

end Workspace

end Trivalent
