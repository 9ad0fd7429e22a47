import Trivalent.Proofs.Evaluation.Tree
import Trivalent.Proofs.Parse.Completeness
import Trivalent.Proofs.Reduction.Determinism

/-!
# Programs one below the other

The search is global: of all windows in a row it takes the widest. If two programs are reduced as
one, their reductions are interleaved, and blocks are folded over the seam between them. Below the
blocks, however, each of them is reduced as if it stood alone.

* `Grammar.withoutBlocks` -- the rules below blocks;
* `loose` -- a row with its blocks taken apart into their statements; `Step.without_blocks`,
  `Run.without_blocks` -- a step either folds a block, which a loose row does not show, or is a step
  of that smaller grammar;
* `Seam` -- **the invariant between two rows side by side**: the first one ends like a program, and
  no identifier stands in both;
* `Step.split`, `Run.split` -- a step, and a run, on two rows with a seam between them takes place
  on the one side or on the other;
* `Accepted.append` -- **two programs that share no name are a program one below the other**, and
  have the statements of the first, then those of the second further on.
-/

namespace Trivalent

open Trivalent.Derivation

/-! ## 1. The rules below blocks -/

namespace Grammar

/-- The grammar without its two rules for blocks. -/
def withoutBlocks : Grammar := ⟨standard.rules.filter (·.production.result != .codeBlock)⟩

theorem lookup_withoutBlocks_iff {frame : List Symbol} {p : Production} :
    withoutBlocks.lookup frame = some p ↔ StandardFrame frame p ∧ p.result ≠ .codeBlock := by
  constructor
  · intro h
    obtain ⟨rule, hmem, rfl, rfl⟩ := exists_rule_of_lookup h
    obtain ⟨hmem, hresult⟩ := List.mem_filter.mp hmem
    exact ⟨standardFrame_of_mem hmem, bne_iff_ne.mp hresult⟩
  · rintro ⟨h, hresult⟩
    cases h with
    | block => exact absurd rfl hresult
    | single => exact absurd rfl hresult
    | assign hr => rcases hr with rfl | rfl <;> rfl
    | declare => rfl
    | negate ha => rcases ha with rfl | rfl <;> rfl
    | group ha => rcases ha with rfl | rfl <;> rfl
    | lift => rfl
    | plain c ha hb => cases c <;> rcases ha with rfl | rfl <;> rcases hb with rfl | rfl <;> rfl
    | pair c ha hb => cases c <;> rcases ha with rfl | rfl <;> rcases hb with rfl | rfl <;> rfl

/-- What all frames below blocks have in common: statements and blocks are in none of them, a
semicolon stands at the end and makes a statement. -/
structure BelowBlocks (frame : List Symbol) (p : Production) : Prop where
  symbols : ∀ s ∈ frame, s ≠ .codeBlock ∧ s ≠ .statement
  semicolon : .semicolon ∉ frame.dropLast
  statement : .semicolon ∈ frame → p.result = .statement
  result : p.result ≠ .codeBlock

theorem belowBlocks_of_lookup {frame : List Symbol} {p : Production}
    (h : withoutBlocks.lookup frame = some p) : BelowBlocks frame p := by
  have hready : ∀ {s : Symbol}, s.Ready → s ≠ .codeBlock ∧ s ≠ .statement ∧ .semicolon ≠ s := by
    intro s hs
    rcases hs with rfl | rfl <;> decide
  have hword : ∀ c : Connective,
      c.word ≠ .codeBlock ∧ c.word ≠ .statement ∧ .semicolon ≠ c.word := by
    intro c
    cases c <;> decide
  obtain ⟨hstandard, hresult⟩ := lookup_withoutBlocks_iff.mp h
  cases hstandard with
  | block => exact absurd rfl hresult
  | single => exact absurd rfl hresult
  | assign hr =>
      rcases hr with rfl | rfl <;> exact ⟨by simp, by simp, fun _ => rfl, hresult⟩
  | declare => exact ⟨by simp, by simp, by simp, hresult⟩
  | negate ha => exact ⟨by simp [hready ha], by simp, by simp [hready ha], hresult⟩
  | group ha => exact ⟨by simp [hready ha], by simp [hready ha], by simp [hready ha], hresult⟩
  | lift => exact ⟨by simp, by simp, by simp, hresult⟩
  | plain c ha hb =>
      exact ⟨by simp [hready ha, hready hb, hword c], by simp [hready ha, hword c],
        by simp [hready ha, hready hb, hword c], hresult⟩
  | pair c ha hb =>
      exact ⟨by simp [hready ha, hready hb, hword c], by simp [hready ha, hready hb, hword c],
        by simp [hready ha, hready hb, hword c], hresult⟩

end Grammar

/-! ## 2. Loose rows -/

/-- The statements of a block; anything else is left as it is. -/
def Derivation.loosened (d : Derivation) : List Derivation :=
  if d.symbol = .codeBlock then d.statements else [d]

/-- A row with its blocks taken apart into their statements. -/
def loose (row : List Derivation) : List Derivation := row.flatMap loosened

theorem loose_append (row row' : List Derivation) : loose (row ++ row') = loose row ++ loose row' :=
  List.flatMap_append

theorem loose_cons (d : Derivation) (row : List Derivation) :
    loose (d :: row) = d.loosened ++ loose row := List.flatMap_cons

theorem loose_eq_self {row : List Derivation} (h : ∀ d ∈ row, d.symbol ≠ .codeBlock) :
    loose row = row := by
  induction row with
  | nil => rfl
  | cons d row ih =>
      rw [loose_cons, ih fun e he => h e (List.mem_cons_of_mem d he), loosened,
        if_neg (h d List.mem_cons_self)]
      rfl

theorem symbol_of_mem_statements {d s : Derivation} (h : s ∈ d.statements) :
    s.symbol = .statement := eq_of_beq (List.mem_filter.mp h).2

theorem Shaped.statements_ne_nil {d : Derivation} (h : Shaped d) (hs : d.symbol = .codeBlock) :
    d.statements ≠ [] := by
  refine h.block_induction (P := fun d => d.statements ≠ []) ?_ ?_ hs
  · intro id s hshaped hstatement
    rw [hshaped.statements_single hstatement]
    exact List.cons_ne_nil _ _
  · intro id l r _ _ ihl _ _ _
    rw [statements_block]
    exact fun hnil => ihl (List.append_eq_nil_iff.mp hnil).1

section Loose

variable {row : List Derivation} {window a b : List Derivation}

/-- What a loose row starts with, statements apart, the row starts with. -/
theorem exists_of_loose_prefix (hshaped : ∀ d ∈ row, Shaped d)
    (hwindow : ∀ d ∈ window, d.symbol ≠ .statement) (h : loose row = window ++ a) :
    ∃ a', row = window ++ a' ∧ loose a' = a := by
  induction row generalizing window with
  | nil =>
      obtain ⟨rfl, rfl⟩ := List.append_eq_nil_iff.mp h.symm
      exact ⟨[], rfl, rfl⟩
  | cons d row ih =>
      cases window with
      | nil => exact ⟨d :: row, rfl, h⟩
      | cons x window =>
          rw [loose_cons, loosened] at h
          split at h
          · -- a block starts with a statement
            rename_i hblock
            obtain ⟨s, ss, hss⟩ := List.exists_cons_of_ne_nil
              ((hshaped d List.mem_cons_self).statements_ne_nil hblock)
            rw [hss] at h
            obtain ⟨rfl, -⟩ := List.cons.inj h
            exact absurd (symbol_of_mem_statements (hss ▸ List.mem_cons_self))
              (hwindow s List.mem_cons_self)
          · obtain ⟨rfl, hrest⟩ := List.cons.inj h
            obtain ⟨a', rfl, ha'⟩ := ih (fun e he => hshaped e (List.mem_cons_of_mem _ he))
              (fun e he => hwindow e (List.mem_cons_of_mem _ he)) hrest
            exact ⟨a', rfl, ha'⟩

/-- What a loose row has in it, statements apart, the row has in it. -/
theorem exists_of_loose_infix (hshaped : ∀ d ∈ row, Shaped d)
    (hwindow : ∀ d ∈ window, d.symbol ≠ .statement) (hne : window ≠ [])
    (h : loose row = b ++ window ++ a) :
    ∃ b' a', row = b' ++ window ++ a' ∧ loose b' = b ∧ loose a' = a := by
  induction row generalizing b with
  | nil =>
      rw [List.append_assoc] at h
      exact absurd (List.append_eq_nil_iff.mp (List.append_eq_nil_iff.mp h.symm).2).1 hne
  | cons d row ih =>
      have hrow : ∀ e ∈ row, Shaped e := fun e he => hshaped e (List.mem_cons_of_mem _ he)
      have hcons := h
      rw [loose_cons, List.append_assoc] at h
      rcases List.append_eq_append_iff.mp h with ⟨m, rfl, hrest⟩ | ⟨m, hd, hrest⟩
      · rw [← List.append_assoc] at hrest
        obtain ⟨b', a', rfl, hb', ha'⟩ := ih hrow hrest
        exact ⟨d :: b', a', rfl, by rw [loose_cons, hb'], ha'⟩
      · cases m with
        | nil =>
            rw [List.append_nil] at hd
            obtain ⟨a', rfl, ha'⟩ := exists_of_loose_prefix hrow hwindow hrest.symm
            exact ⟨[d], a', rfl, by rw [loose_cons, hd]; exact List.append_nil b, ha'⟩
        | cons x m =>
            -- the window starts inside what `d` is taken apart into, so `d` is no block
            obtain ⟨y, rest, rfl⟩ := List.exists_cons_of_ne_nil hne
            obtain ⟨rfl, -⟩ := List.cons.inj hrest
            have hblock : d.symbol ≠ .codeBlock := by
              intro hblock
              rw [loosened, if_pos hblock] at hd
              exact hwindow y List.mem_cons_self
                (symbol_of_mem_statements (hd ▸ List.mem_append_right b List.mem_cons_self))
            rw [loosened, if_neg hblock] at hd
            cases b with
            | nil =>
                obtain ⟨a', ha', hloose⟩ := exists_of_loose_prefix hshaped hwindow hcons
                exact ⟨[], a', ha', rfl, hloose⟩
            | cons z b => simp at hd

theorem coverAll_append_left {s : Symbol} {name : String} {xs : List Derivation}
    (h : ∀ x ∈ xs, ¬ x.node.isIdentifier name) (next : NodeId) (ys : List Derivation) :
    coverAll s name next (xs ++ ys) = xs ++ coverAll s name next ys := by
  induction xs with
  | nil => rfl
  | cons x xs ih =>
      rw [List.cons_append, coverAll, if_neg (h x List.mem_cons_self),
        ih fun y hy => h y (List.mem_cons_of_mem x hy)]
      rfl

/-- Covering goes past the statements of a block as past the block. -/
theorem loose_coverAll {s : Symbol} (hs : s ≠ .codeBlock) (name : String) (next : NodeId)
    (row : List Derivation) :
    loose (coverAll s name next row) = coverAll s name next (loose row) := by
  induction row generalizing next with
  | nil => rfl
  | cons d row ih =>
      by_cases hname : d.node.isIdentifier name
      · have hd : d.symbol ≠ .codeBlock := by
          rw [symbol_of_isIdentifier hname]
          decide
        rw [coverAll, if_pos hname, loose_cons, loosened, symbol_above, if_neg hs, ih, loose_cons,
          loosened, if_neg hd, List.singleton_append, List.singleton_append, coverAll,
          if_pos hname]
      · rw [coverAll, if_neg hname, loose_cons, loose_cons, ih, coverAll_append_left]
        intro x hx hidentifier
        rw [loosened] at hx
        split at hx
        · have hstatement := symbol_of_mem_statements hx
          rw [symbol_of_isIdentifier hidentifier] at hstatement
          cases hstatement
        · rw [List.mem_singleton.mp hx] at hidentifier
          exact hname hidentifier

theorem loose_bindAll {s : Symbol} (hs : s ≠ .codeBlock) (next : NodeId) (row : List Derivation)
    (declared : Option String) :
    loose (bindAll s next row declared) = bindAll s next (loose row) declared := by
  cases declared with
  | none => rfl
  | some name => exact loose_coverAll hs name next row

/-- A frame below blocks stands in the row where it stands in the loose row. -/
theorem exists_frame_of_loose {before frame after : List Symbol} {p : Production}
    (hshaped : ∀ d ∈ row, Shaped d)
    (h : Grammar.withoutBlocks.IsFrame ((loose row).map symbol) before frame after p) :
    ∃ b a, Grammar.standard.IsFrame (row.map symbol) (b.map symbol) frame (a.map symbol) p
      ∧ (∃ window, row = b ++ window ++ a) ∧ (loose b).map symbol = before := by
  have hframe := Grammar.belowBlocks_of_lookup h.lookup
  obtain ⟨bw, a, hrow, hbw, rfl⟩ := List.map_eq_append_iff.mp h.row
  obtain ⟨b, window, rfl, rfl, rfl⟩ := List.map_eq_append_iff.mp hbw
  have hwindow : ∀ d ∈ window, d.symbol ≠ .statement := fun d hd =>
    (hframe.symbols d.symbol (List.mem_map_of_mem hd)).2
  have hne : window ≠ [] := by
    rintro rfl
    exact absurd (Grammar.lookup_length h.lookup).1 (by simp)
  obtain ⟨b', a', hsplit, rfl, -⟩ := exists_of_loose_infix hshaped hwindow hne hrow
  refine ⟨b', a', ⟨?_, ?_⟩, ⟨window, hsplit⟩, rfl⟩
  · rw [hsplit, List.map_append, List.map_append]
  · exact Grammar.lookup_standard_iff.mpr (Grammar.lookup_withoutBlocks_iff.mp h.lookup).1

end Loose

/-- A block has the statements of the window that it was folded from. -/
theorem Folds.loosened_eq {next : NodeId} {window : List Derivation} {new : Derivation}
    (h : Folds next window new) (hs : new.symbol = .codeBlock) (hshaped : ∀ d ∈ window, Shaped d) :
    new.loosened = loose window := by
  rw [loosened, if_pos hs]
  cases h with
  | @block l r hl hr =>
      rw [statements_block, loose_cons, loose_cons, loosened, loosened, if_pos hl, if_pos hr]
      exact (List.append_nil _).symm ▸ rfl
  | @single t ht =>
      rw [(hshaped t (by simp)).statements_single ht, loose_eq_self]
      intro d hd
      rw [List.mem_singleton.mp hd, ht]
      decide
  | _ => cases hs

/-- The first frame of a row, if it is one below blocks, is also the first one of the loose row. -/
theorem find_loose {row before window after : List Derivation} {p : Production}
    (hshaped : ∀ d ∈ row, Shaped d)
    (hfound : Grammar.standard.find (row.map symbol)
      = some ⟨before.length, window.length, p⟩)
    (hsplit : row = before ++ window ++ after)
    (hlookup : Grammar.withoutBlocks.lookup (window.map symbol) = some p) :
    loose row = loose before ++ window ++ loose after
      ∧ Grammar.withoutBlocks.find ((loose row).map symbol)
        = some ⟨(loose before).length, window.length, p⟩ := by
  have hwindow : loose window = window := loose_eq_self fun d hd =>
    ((Grammar.belowBlocks_of_lookup hlookup).symbols d.symbol (List.mem_map_of_mem hd)).1
  have hloose : loose row = loose before ++ window ++ loose after := by
    rw [hsplit, loose_append, loose_append, hwindow]
  have hframe : Grammar.withoutBlocks.IsFrame ((loose row).map symbol)
      ((loose before).map symbol) (window.map symbol) ((loose after).map symbol) p :=
    ⟨by rw [hloose, List.map_append, List.map_append], hlookup⟩
  have hfirst := Grammar.find_of_first hframe fun b f a q hother => by
    -- a frame of the loose row is a frame of the row, in the same order
    obtain ⟨b', a', hstands, ⟨win, hwin⟩, rfl⟩ := exists_frame_of_loose hshaped hother
    obtain ⟨hwidth, hleft⟩ := (Grammar.find_eq_some hfound).2 _ _ _ _ hstands
    refine ⟨by rwa [List.length_map], fun heq => ?_⟩
    rw [List.length_map] at heq
    have hle := hleft heq
    rw [List.length_map] at hle
    have hbefore : before <+: row := ⟨window ++ after, by rw [hsplit, List.append_assoc]⟩
    have hb' : b' <+: row := ⟨win ++ a', by rw [hwin, List.append_assoc]⟩
    obtain ⟨m, rfl⟩ := List.prefix_of_prefix_length_le hbefore hb' hle
    rw [List.length_map, List.length_map, loose_append, List.length_append]
    exact Nat.le_add_right _ _
  rw [List.length_map, List.length_map] at hfirst
  exact ⟨hloose, hfirst⟩

/-- **A step folds a block or is a step below blocks.** -/
theorem Step.without_blocks {next : NodeId} {row row' : List Derivation} {declared : Option String}
    (h : Step .standard .bind next row declared row') (hshaped : ∀ d ∈ row, Shaped d) :
    (declared = none ∧ loose row' = loose row)
      ∨ Step .withoutBlocks .bind next (loose row) declared (loose row') := by
  cases h with
  | @intro before window after p left right found split lookup leftChild rightChild =>
    have hstandard := Grammar.lookup_standard_iff.mp lookup
    by_cases hresult : p.result = .codeBlock
    · -- the statements of the new block are those of the window
      have hparts : ∀ d ∈ window, Shaped d := fun d hd =>
        hshaped d (split ▸ List.mem_append_left _ (List.mem_append_right _ hd))
      obtain ⟨hfolds, hdeclared⟩ :=
        @folds_of_standardFrame next window _ p left right hstandard rfl leftChild rightChild
      have hnone : declaredBy .bind p left = none := by
        generalize window.map symbol = frame at hstandard
        cases hstandard with
        | block => rfl
        | single => rfl
        | _ => cases hresult
      refine .inl ⟨hnone, ?_⟩
      rw [hnone, bindAll_none, split, loose_append, loose_cons, loose_append, loose_append,
        hfolds.loosened_eq (by rw [symbol_above, hresult]) hparts, List.append_assoc]
    · have hlookup : Grammar.withoutBlocks.lookup (window.map symbol) = some p :=
        Grammar.lookup_withoutBlocks_iff.mpr ⟨hstandard, hresult⟩
      obtain ⟨hsplit, hfound⟩ := find_loose hshaped found split hlookup
      have hrow : loose (bindAll p.result (next + 1)
          (before ++ above next p.result p.action left right :: after) (declaredBy .bind p left))
          = bindAll p.result (next + 1)
            (loose before ++ above next p.result p.action left right :: loose after)
            (declaredBy .bind p left) := by
        rw [loose_bindAll hresult, loose_append, loose_cons, loosened, symbol_above, if_neg hresult]
        rfl
      rw [hrow]
      exact .inr (.intro hfound hsplit hlookup leftChild rightChild)

/-- A run below blocks goes on under every run. -/
theorem Run.without_blocks {steps : Nat} {row row' : List Derivation} {names : List String}
    (h : Run .standard .bind steps row names row') (hshaped : ∀ d ∈ row, Shaped d) :
    ∃ steps', Run .withoutBlocks .bind steps' (loose row) names (loose row') := by
  induction h with
  | refl row => exact ⟨0, .refl _⟩
  | step first rest ih =>
      obtain ⟨steps', hrun⟩ := ih (first.shaped hshaped)
      rcases first.without_blocks hshaped with ⟨rfl, hloose⟩ | hstep
      · rw [hloose] at hrun
        exact ⟨steps', hrun⟩
      · exact ⟨steps' + 1, .step hstep hrun⟩

/-! ## 3. Two rows side by side -/

/-- What may stand at the end of a program, taken apart. -/
def Mark.Closes (m : Mark) : Prop := m.1 = .semicolon ∨ m.1 = .statement

/-- Two rows side by side: the first one ends like a program, and no identifier stands in both. -/
structure Seam (row row' : List Derivation) : Prop where
  closed : ∀ m ∈ (row.map mark).getLast?, Mark.Closes m
  apart : ∀ name, (.identifier, some name) ∈ row.map mark →
    (.identifier, some name) ∉ row'.map mark

theorem coverAll_append_right {s : Symbol} {name : String} {ys : List Derivation}
    (h : ∀ y ∈ ys, ¬ y.node.isIdentifier name) (next : NodeId) (xs : List Derivation) :
    coverAll s name next (xs ++ ys) = coverAll s name next xs ++ ys := by
  induction xs generalizing next with
  | nil =>
      have hself := coverAll_append_left (s := s) h next []
      rw [List.append_nil] at hself
      rw [List.nil_append, hself]
      exact List.append_nil ys
  | cons x xs ih =>
      rw [List.cons_append, coverAll, coverAll]
      split
      · rw [ih, List.cons_append]
      · rw [ih, List.cons_append]

/-- Where it is in no other row, a name is covered in its own row only. -/
theorem bindAll_append_right {s : Symbol} {declared : Option String} {ys : List Derivation}
    (h : ∀ name, declared = some name → (.identifier, some name) ∉ ys.map mark) (next : NodeId)
    (xs : List Derivation) :
    bindAll s next (xs ++ ys) declared = bindAll s next xs declared ++ ys := by
  cases declared with
  | none => rfl
  | some name =>
      refine coverAll_append_right (fun y hy hname => h name rfl ?_) next xs
      rw [← isIdentifier_iff.mp hname]
      exact List.mem_map_of_mem hy

theorem bindAll_append_left {s : Symbol} {declared : Option String} {xs : List Derivation}
    (h : ∀ name, declared = some name → (.identifier, some name) ∉ xs.map mark) (next : NodeId)
    (ys : List Derivation) :
    bindAll s next (xs ++ ys) declared = xs ++ bindAll s next ys declared := by
  cases declared with
  | none => rfl
  | some name =>
      refine coverAll_append_left (fun x hx hname => h name rfl ?_) next ys
      rw [← isIdentifier_iff.mp hname]
      exact List.mem_map_of_mem hx

section Seam

variable {X Y before window after : List Derivation} {next : NodeId} {new : Derivation}
  {p : Production}

/-- **No window below blocks reaches over a seam.** -/
theorem Seam.window_cases (h : Seam X Y)
    (hlookup : Grammar.withoutBlocks.lookup (window.map symbol) = some p)
    (hsplit : X ++ Y = before ++ window ++ after) :
    (∃ rest, X = before ++ window ++ rest ∧ after = rest ++ Y)
      ∨ ∃ rest, before = X ++ rest ∧ Y = rest ++ window ++ after := by
  have hframe := Grammar.belowBlocks_of_lookup hlookup
  rw [List.append_assoc] at hsplit
  rcases List.append_eq_append_iff.mp hsplit with ⟨m, hbefore, hY⟩ | ⟨m, hX, hrest⟩
  · exact .inr ⟨m, hbefore, by rw [hY, List.append_assoc]⟩
  rcases List.append_eq_append_iff.mp hrest with ⟨k, hm, hafter⟩ | ⟨k, hwindow, hY⟩
  · exact .inl ⟨k, by rw [hX, hm, List.append_assoc], hafter⟩
  · -- the window is `m`, at the end of the first row, and `k`, at the start of the second
    by_cases hk : k = []
    · subst hk
      rw [List.append_nil] at hwindow
      exact .inl ⟨[], by rw [hX, hwindow, List.append_nil], hY.symm⟩
    · rcases m.eq_nil_or_concat with rfl | ⟨init, x, rfl⟩
      · rw [List.append_nil] at hX
        exact .inr ⟨[], by rw [hX, List.append_nil], by rw [hY, hwindow]; rfl⟩
      · rw [List.concat_eq_append] at hX hwindow
        have hcloses : x.mark.Closes := h.closed x.mark (by rw [hX]; simp)
        rcases hcloses with hs | hs
        · refine absurd ?_ hframe.semicolon
          rw [hwindow, List.map_append, List.dropLast_append_of_ne_nil (by simpa using hk)]
          exact List.mem_append_left _ (List.mem_map.mpr ⟨x, by simp, hs⟩)
        · exact absurd hs (hframe.symbols x.symbol (List.mem_map_of_mem (by simp [hwindow]))).2

theorem standardFrame_of_withoutBlocks {frame : List Symbol} {q : Production}
    (h : Grammar.withoutBlocks.lookup frame = some q) : Grammar.StandardFrame frame q :=
  (Grammar.lookup_withoutBlocks_iff.mp h).1

/-- A raw identifier after a step below blocks was there before. -/
theorem Step.mem_marks {row row' : List Derivation} {declared : Option String} {name : String}
    (h : Step .withoutBlocks .bind next row declared row')
    (hmem : (.identifier, some name) ∈ row'.map mark) :
    (.identifier, some name) ∈ row.map mark := by
  obtain ⟨before, window, after, new, p, rfl, hfolds, -, -, -, rfl, rfl⟩ :=
    h.folds_first standardFrame_of_withoutBlocks
  cases hdeclares : new.declares? with
  | none =>
      rw [hdeclares, bindAll_none] at hmem
      exact hfolds.mem_marks hmem
  | some other =>
      rw [hdeclares, bindAll_some, marks_coverAll] at hmem
      obtain ⟨m, hm, hcover⟩ := List.mem_map.mp hmem
      rw [cover] at hcover
      split at hcover
      · cases hcover
      · subst hcover
        exact hfolds.mem_marks hm

/-- A row that ends like a program does so after a step below blocks. -/
theorem Step.closes {row row' : List Derivation} {declared : Option String}
    (h : Step .withoutBlocks .bind next row declared row')
    (hclosed : ∀ m ∈ (row.map mark).getLast?, Mark.Closes m) :
    ∀ m ∈ (row'.map mark).getLast?, Mark.Closes m := by
  obtain ⟨before, window, after, new, p, rfl, hfolds, hlookup, hsymbol, -, rfl, rfl⟩ :=
    h.folds_first standardFrame_of_withoutBlocks
  have hframe := Grammar.belowBlocks_of_lookup hlookup
  have hnew : ∀ m ∈ ((before ++ new :: after).map mark).getLast?, Mark.Closes m := by
    intro m hm
    rcases after.eq_nil_or_concat with rfl | ⟨init, x, rfl⟩
    · -- the window is at the end, so it has the semicolon
      have hm : some new.mark = some m := by simpa using hm
      rw [← Option.some.inj hm]
      rcases window.eq_nil_or_concat with rfl | ⟨init, x, rfl⟩
      · exact absurd (Grammar.lookup_length hlookup).1 (by simp)
      · rw [List.concat_eq_append] at hclosed hframe
        rcases hclosed x.mark (by simp) with hs | hs
        · exact .inr (hsymbol.trans (hframe.statement (by
            rw [← show x.symbol = .semicolon from hs]
            exact List.mem_map_of_mem (by simp))))
        · exact absurd hs (hframe.symbols x.symbol (List.mem_map_of_mem (by simp))).2
    · rw [List.concat_eq_append, ← List.cons_append, ← List.append_assoc, List.map_append,
        List.map_singleton, List.getLast?_concat] at hm
      exact hclosed m (by simpa using hm)
  cases hdeclares : new.declares? with
  | none => exact hnew
  | some name =>
      -- what closes a row is not an identifier, so it is not covered
      rw [bindAll_some, marks_coverAll, List.getLast?_map]
      intro m hm
      obtain ⟨m', hm', rfl⟩ := Option.map_eq_some_iff.mp hm
      have hcloses := hnew m' hm'
      rw [cover, if_neg]
      · exact hcloses
      · rintro rfl
        rcases hcloses with hs | hs <;> cases hs

/-- The name that a step declares stands in its window. -/
theorem mem_marks_of_declaredBy {left : Derivation} {right : Option Derivation} {name : String}
    (hlookup : Grammar.withoutBlocks.lookup (window.map symbol) = some p)
    (hleft : window[p.left]? = some left)
    (hright : right = if p.hasRight then window[p.right]? else none)
    (hname : declaredBy .bind p left = some name) : (.identifier, some name) ∈ window.map mark := by
  obtain ⟨hfolds, hdeclared⟩ := @folds_of_standardFrame 0 window _ p left right
    (standardFrame_of_withoutBlocks hlookup) rfl hleft hright
  rw [hname] at hdeclared
  rcases hfolds.declares_cases with ⟨k, i, rfl, hk, hi, hdeclares⟩ | ⟨hdeclares, -⟩
  · rw [← hdeclared] at hdeclares
    exact List.mem_map.mpr ⟨i, by simp, Prod.ext hi hdeclares.symm⟩
  · rw [hdeclares] at hdeclared
    cases hdeclared

/-- **A step on two rows takes place on one of them.** -/
theorem Step.split {Z : List Derivation} {declared : Option String}
    (h : Step .withoutBlocks .bind next (X ++ Y) declared Z) (hseam : Seam X Y) :
    (∃ X', Step .withoutBlocks .bind next X declared X' ∧ Z = X' ++ Y ∧ Seam X' Y)
      ∨ ∃ Y', Step .withoutBlocks .bind next Y declared Y' ∧ Z = X ++ Y' ∧ Seam X Y' := by
  cases h with
  | @intro before window after p left right found split lookup leftChild rightChild =>
    -- the name that is declared stands in the row that the window lies in
    have hmem : ∀ {name} {b a : List Derivation}, declaredBy .bind p left = some name →
        (.identifier, some name) ∈ (b ++ window ++ a).map mark := by
      intro name b a hname
      have hwindow := mem_marks_of_declaredBy lookup leftChild rightChild hname
      rw [List.map_append, List.map_append]
      exact List.mem_append_left _ (List.mem_append_right _ hwindow)
    have hframe : ∀ b a : List Derivation, Grammar.withoutBlocks.IsFrame
        ((b ++ window ++ a).map symbol) (b.map symbol) (window.map symbol) (a.map symbol) p :=
      fun b a => ⟨by rw [List.map_append, List.map_append], lookup⟩
    rcases hseam.window_cases lookup split with ⟨rest, rfl, rfl⟩ | ⟨rest, rfl, rfl⟩
    · have hfound : Grammar.withoutBlocks.find ((before ++ window ++ rest).map symbol)
          = some ⟨before.length, window.length, p⟩ := by
        have hfound := @Grammar.find_of_append _ [] _ (Y.map symbol) _ _ _ _ (hframe before rest)
          (by simpa using found)
        simpa using hfound
      have hstep : Step .withoutBlocks .bind next _ _ _ :=
        .intro hfound rfl lookup leftChild rightChild
      refine .inl ⟨_, hstep, ?_, hstep.closes hseam.closed, fun name hname => ?_⟩
      · rw [← bindAll_append_right, List.append_assoc, List.cons_append]
        exact fun name hname => hseam.apart name (hmem hname)
      · exact hseam.apart name (hstep.mem_marks hname)
    · have hfound : Grammar.withoutBlocks.find ((rest ++ window ++ after).map symbol)
          = some ⟨rest.length, window.length, p⟩ := by
        have hfound := @Grammar.find_of_append _ (X.map symbol) _ [] _ _ _ _ (hframe rest after)
          (by simpa using found)
        simpa using hfound
      have hstep : Step .withoutBlocks .bind next _ _ _ :=
        .intro hfound rfl lookup leftChild rightChild
      refine .inr ⟨_, hstep, ?_, hseam.closed, fun name hname hname' => ?_⟩
      · rw [← bindAll_append_left, List.append_assoc]
        exact fun name hname hx => hseam.apart name hx (hmem hname)
      · exact hseam.apart name hname (hstep.mem_marks hname')

/-- **A run on two rows is a run on each of them.** -/
theorem Run.split {Z : List Derivation} {steps : Nat} {names : List String}
    (h : Run .withoutBlocks .bind steps (X ++ Y) names Z) (hseam : Seam X Y) :
    ∃ X' Y', Z = X' ++ Y' ∧ (∃ steps names, Run .withoutBlocks .bind steps X names X')
      ∧ ∃ steps names, Run .withoutBlocks .bind steps Y names Y' := by
  generalize hrow : X ++ Y = row at h
  induction h generalizing X Y with
  | refl row => exact ⟨X, Y, hrow.symm, ⟨0, [], .refl X⟩, ⟨0, [], .refl Y⟩⟩
  | step first rest ih =>
      subst hrow
      rcases first.split hseam with ⟨X', hfirst, rfl, hseam'⟩ | ⟨Y', hfirst, rfl, hseam'⟩
      · obtain ⟨X'', Y'', hZ, ⟨steps, names, hX⟩, hY⟩ := ih hseam' rfl
        exact ⟨X'', Y'', hZ, ⟨_, _, .step hfirst hX⟩, hY⟩
      · obtain ⟨X'', Y'', hZ, hX, ⟨steps, names, hY⟩⟩ := ih hseam' rfl
        exact ⟨X'', Y'', hZ, hX, ⟨_, _, .step hfirst hY⟩⟩

end Seam

/-! ## 4. Programs -/

/-- A program ends with a semicolon. -/
theorem Shaped.exists_unparse {d : Derivation} (h : Shaped d) (hs : d.symbol = .codeBlock) :
    ∃ init, d.unparse = init ++ [.ofWord .semicolon] := by
  refine h.block_induction (P := fun d => ∃ init, d.unparse = init ++ [.ofWord .semicolon])
    ?_ ?_ hs
  · intro id s hshaped hstatement
    obtain ⟨id, target, value, name, rfl, -⟩ := hshaped.exists_assignment hstatement
    refine ⟨.ofWord .defWord :: (target.unparse ++ .ofWord .asWord :: value.unparse), ?_⟩
    simp [above, unparse, layout, Node.role, Part.fill]
  · rintro id l r _ _ _ _ _ ⟨init, hr⟩
    refine ⟨l.unparse ++ init, ?_⟩
    simp [above, unparse, layout, Node.role, Part.fill, hr]

/-- The leaves of a program that stands after another one. -/
def leavesFrom (first : NodeId) (leaves : List Node) : List Derivation :=
  leaves.mapIdx fun i => .leaf (i + first)

theorem leafRow_append (leaves leaves' : List Node) :
    leafRow (leaves ++ leaves') = leafRow leaves ++ leavesFrom leaves.length leaves' :=
  List.mapIdx_append

theorem Node.moved_moved (bytes lines : Nat) (n : Node) :
    (n.moved bytes lines).moved 0 0 = n.moved bytes lines := by
  obtain ⟨symbol, action, span, line, shape⟩ := n
  cases shape <;> rfl

/-- A program after another one is the same program further on. -/
theorem moved_leavesFrom (first bytes lines : Nat) (leaves : List Node) :
    (leavesFrom first (leaves.map (Node.moved bytes lines))).map (moved 0 0)
      = (leafRow leaves).map (moved bytes lines) := by
  apply List.ext_getElem
  · simp [leavesFrom, leafRow]
  · intro i h₁ h₂
    simp [leavesFrom, leafRow, moved, Node.moved_moved]

theorem marks_moved (bytes lines : Nat) (row : List Derivation) :
    (row.map (moved bytes lines)).map mark = row.map mark := by
  rw [List.map_map]
  refine List.map_congr_left fun d _ => ?_
  simp [mark]

theorem lexeme?_moved (bytes lines : Nat) (n : Node) :
    (n.moved bytes lines).lexeme? = n.lexeme? := by
  unfold Node.lexeme?
  rw [Node.literal?_moved]
  rfl

theorem GenuineLeaves.append_moved {leaves leaves' : List Node} (h : GenuineLeaves leaves)
    (h' : GenuineLeaves leaves') (bytes lines : Nat) :
    GenuineLeaves (leaves ++ leaves'.map (Node.moved bytes lines)) := by
  intro n hn
  rcases List.mem_append.mp hn with hn | hn
  · exact h n hn
  · obtain ⟨n', hn', rfl⟩ := List.mem_map.mp hn
    rw [lexeme?_moved]
    exact h' n' hn'

/-- Leaves that a parse folds into a block. -/
structure Accepted (leaves : List Node) (d : Derivation) : Prop where
  genuine : GenuineLeaves leaves
  parsed : ∃ journal root w, parse leaves journal = .ok root w ∧ w.arena.Unfolds root d
  block : d.symbol = .codeBlock

namespace Accepted

variable {leaves leaves' : List Node} {d d' : Derivation}

/-- A run from the leaves to the root, which is a shaped derivation. -/
theorem exists_run (h : Accepted leaves d) :
    Shaped d ∧ ∃ steps names, Run .standard .bind steps (leafRow leaves) names [d] := by
  obtain ⟨journal, root, w, hparse, hunfolds⟩ := h.parsed
  exact exists_run_of_unfolds h.genuine hparse hunfolds

theorem loose_leafRow (h : GenuineLeaves leaves) : loose (leafRow leaves) = leafRow leaves := by
  refine loose_eq_self fun d hd hs => ?_
  obtain ⟨i, hi, rfl⟩ := List.mem_mapIdx.mp hd
  obtain ⟨l, hlexeme, hl⟩ := h leaves[i] (List.getElem_mem hi)
  rw [symbol_leaf, (Node.lexeme?_eq_some hlexeme).1] at hs
  have hoperand := hl.symbol_eq_operand (by rw [hs]; rfl)
  rw [hs] at hoperand
  cases hoperand

/-- Below blocks, the run ends in the statements and cannot go on. -/
theorem run_statements (h : Accepted leaves d) :
    (∃ steps names, Run .withoutBlocks .bind steps (leafRow leaves) names d.statements)
      ∧ Grammar.withoutBlocks.find (d.statements.map symbol) = none := by
  obtain ⟨-, steps, names, hrun⟩ := h.exists_run
  obtain ⟨steps', hrun⟩ := hrun.without_blocks (shaped_leafRow h.genuine)
  have hroot : loose [d] = d.statements := by
    rw [loose_cons, loosened, if_pos h.block]
    exact List.append_nil _
  rw [loose_leafRow h.genuine, hroot] at hrun
  refine ⟨⟨steps', names, hrun⟩, Grammar.find_eq_none_of_forall fun b f a p hframe => ?_⟩
  -- frames below blocks have no statement in them
  obtain ⟨s, hs⟩ := List.exists_mem_of_ne_nil f
    (List.ne_nil_of_length_pos (Grammar.lookup_length hframe.lookup).1)
  have hmem : s ∈ d.statements.map symbol := by
    rw [hframe.row]
    exact List.mem_append_left _ (List.mem_append_right _ hs)
  obtain ⟨t, ht, rfl⟩ := List.mem_map.mp hmem
  exact ((Grammar.belowBlocks_of_lookup hframe.lookup).symbols _ hs).2 (symbol_of_mem_statements ht)

/-- Programs that share no name have a seam between them. -/
theorem seam (h : Accepted leaves d)
    (hapart : ∀ name, (∃ n ∈ leaves, n.isIdentifier name) → ¬ ∃ n ∈ leaves', n.isIdentifier name)
    (bytes lines : Nat) :
    Seam (leafRow leaves)
      (leavesFrom leaves.length (leaves'.map (Node.moved bytes lines))) where
  closed := by
    obtain ⟨hshaped, steps, names, hrun⟩ := h.exists_run
    obtain ⟨init, hinit⟩ := hshaped.exists_unparse h.block
    have hspells : leaves.map Node.lexeme? = ([d].flatMap unparse).map some :=
      (hrun.spells h.genuine).2
    rw [List.flatMap_singleton, hinit, List.map_append] at hspells
    intro m hm
    rw [map_mark_leafRow, List.getLast?_map] at hm
    obtain ⟨n, hn, rfl⟩ := Option.map_eq_some_iff.mp hm
    have hlast := congrArg List.getLast? hspells
    rw [List.getLast?_map, hn, List.map_singleton, List.getLast?_concat] at hlast
    exact .inl (Node.lexeme?_eq_some (Option.some.inj hlast)).1
  apart := by
    intro name hname hname'
    rw [← marks_moved 0 0, moved_leavesFrom, marks_moved, map_mark_leafRow] at hname'
    rw [map_mark_leafRow] at hname
    obtain ⟨n, hn, hmark⟩ := List.mem_map.mp hname
    obtain ⟨n', hn', hmark'⟩ := List.mem_map.mp hname'
    exact hapart name ⟨n, hn, (isIdentifier_iff (d := .leaf 0 n)).mpr hmark⟩
      ⟨n', hn', (isIdentifier_iff (d := .leaf 0 n')).mpr hmark'⟩

end Accepted

/-- A row that cannot be reduced cannot be reduced below blocks. -/
theorem find_loose_eq_none {row : List Derivation} (hshaped : ∀ d ∈ row, Shaped d)
    (hnone : Grammar.standard.find (row.map symbol) = none) :
    Grammar.withoutBlocks.find ((loose row).map symbol) = none := by
  refine Grammar.find_eq_none_of_forall fun b f a p hframe => ?_
  obtain ⟨b', a', hstands, -⟩ := exists_frame_of_loose hshaped hframe
  exact Grammar.find_eq_none hnone hstands

/-- Statements alone do not stay: they are folded into blocks. -/
theorem blocks_of_statements {row : List Derivation}
    (hnone : Grammar.standard.find (row.map symbol) = none)
    (hstatements : ∀ d ∈ loose row, d.symbol = .statement) : ∀ d ∈ row, d.symbol = .codeBlock := by
  intro d hd
  by_cases hblock : d.symbol = .codeBlock
  · exact hblock
  · have hloose : d ∈ loose row := by
      refine List.mem_flatMap.mpr ⟨d, hd, ?_⟩
      rw [loosened, if_neg hblock]
      exact List.mem_singleton.mpr rfl
    obtain ⟨b, a, rfl⟩ := List.append_of_mem hd
    have hframe : Grammar.standard.IsFrame ((b ++ d :: a).map symbol) (b.map symbol)
        [.statement] (a.map symbol) ⟨.codeBlock, .left, 0, 0, false⟩ :=
      ⟨by simp [hstatements d hloose], Grammar.lookup_standard_iff.mpr .single⟩
    exact absurd hframe (Grammar.find_eq_none hnone)

/-- Nor do two blocks. -/
theorem length_le_of_blocks {row : List Derivation}
    (hnone : Grammar.standard.find (row.map symbol) = none)
    (hblocks : ∀ d ∈ row, d.symbol = .codeBlock) : row.length ≤ 1 := by
  match row with
  | [] => exact Nat.zero_le _
  | [_] => exact Nat.le_refl _
  | a :: b :: rest =>
      have ha := hblocks a (by simp)
      have hb := hblocks b (by simp)
      have hframe : Grammar.standard.IsFrame ((a :: b :: rest).map symbol) []
          [.codeBlock, .codeBlock] (rest.map symbol) ⟨.codeBlock, .both, 0, 1, false⟩ :=
        ⟨by simp [ha, hb], Grammar.lookup_standard_iff.mpr .block⟩
      exact absurd hframe (Grammar.find_eq_none hnone)

/-- **Two programs that share no name are a program one below the other.** -/
theorem Accepted.append {leaves leaves' : List Node} {d d' : Derivation} (h : Accepted leaves d)
    (h' : Accepted leaves' d')
    (hapart : ∀ name, (∃ n ∈ leaves, n.isIdentifier name) → ¬ ∃ n ∈ leaves', n.isIdentifier name)
    (bytes lines : Nat) (journal : Journal) :
    ∃ root w e, parse (leaves ++ leaves'.map (Node.moved bytes lines)) journal = .ok root w
      ∧ w.arena.Unfolds root e ∧ e.symbol = .codeBlock
      ∧ e.statements.map (moved 0 0)
        = d.statements.map (moved 0 0) ++ d'.statements.map (moved bytes lines) := by
  have hne : leaves ++ leaves'.map (Node.moved bytes lines) ≠ [] := by
    intro hnil
    obtain ⟨journal, root, w, hparse, -⟩ := h.parsed
    rw [(List.append_eq_nil_iff.mp hnil).1, parse_nil] at hparse
    cases hparse
  have hgenuine := h.genuine.append_moved h'.genuine bytes lines
  obtain ⟨steps, names, row, w, hrun, hgrown, hnone, houtcome⟩ := parse_run hne journal
  have hshaped := (hrun.spells hgenuine).1
  -- below blocks, the run is a run of each program
  obtain ⟨steps', hbelow⟩ := hrun.without_blocks (shaped_leafRow hgenuine)
  rw [Accepted.loose_leafRow hgenuine, leafRow_append] at hbelow
  obtain ⟨X, Y, hrow, ⟨n, names₁, hX⟩, ⟨m, names₂, hY⟩⟩ := hbelow.split (h.seam hapart bytes lines)
  have hend := find_loose_eq_none hshaped hnone
  rw [hrow, List.map_append] at hend
  have hXend : Grammar.withoutBlocks.find (X.map symbol) = none :=
    @Grammar.find_eq_none_of_append _ [] _ (Y.map symbol) hend
  have hYend : Grammar.withoutBlocks.find (Y.map symbol) = none :=
    @Grammar.find_eq_none_of_append _ (X.map symbol) _ [] ((List.append_nil _).symm ▸ hend)
  obtain ⟨⟨n', k, hrun₁⟩, hend₁⟩ := h.run_statements
  obtain ⟨⟨m', k', hrun₂⟩, hend₂⟩ := h'.run_statements
  have hfirst : X.map (moved 0 0) = d.statements.map (moved 0 0) :=
    hX.moved_eq hrun₁ hXend hend₁ rfl
  have hsecond : Y.map (moved 0 0) = d'.statements.map (moved bytes lines) :=
    hY.moved_eq hrun₂ hYend hend₂ (moved_leavesFrom _ bytes lines leaves')
  -- so nothing is left but statements, and these have been folded into one block
  have hstatements : ∀ e ∈ loose row, e.symbol = .statement := by
    intro e he
    have hsymbols : (loose row).map symbol = (d.statements ++ d'.statements).map symbol := by
      rw [hrow, List.map_append, List.map_append, ← symbols_moved 0 0 X, hfirst, symbols_moved,
        ← symbols_moved 0 0 Y, hsecond, symbols_moved]
    have hmem : e.symbol ∈ (loose row).map symbol := List.mem_map_of_mem he
    rw [hsymbols] at hmem
    obtain ⟨t, ht, hsymbol⟩ := List.mem_map.mp hmem
    rw [← hsymbol]
    exact (List.mem_append.mp ht).elim symbol_of_mem_statements symbol_of_mem_statements
  have hblocks := blocks_of_statements hnone hstatements
  rcases houtcome with ⟨e, rfl, hok⟩ | ⟨span, line, hlen, -⟩
  · have he := hblocks e List.mem_cons_self
    have hroot : e.statements = X ++ Y := by
      rw [← hrow, loose_cons, loosened, if_pos he]
      exact (List.append_nil _).symm
    refine ⟨e.id, w, e, hok, (hshaped e List.mem_cons_self).unfolds
      (hgrown.holds e List.mem_cons_self), he, ?_⟩
    rw [hroot, List.map_append, hfirst, hsecond]
  · exact absurd (length_le_of_blocks hnone hblocks) (Nat.not_le_of_lt hlen)

end Trivalent
