import Trivalent.Proofs.Parse.Surroundings

/-!
# Disambiguated programs are accepted

Reduction goes for the widest window and never takes back a step, and an identifier takes part in it
only when its declaration, somewhere else in the program, has been folded. Where no connective has a
bare negation on its left and every name is declared exactly once, none of this gets in the way.

* `Mark`, `pending` -- the names in a row whose declarations are still to be folded;
* `Unblocked` -- **the invariant**: neighbours fit together, no name is pending twice, and every raw
  identifier is pending;
* `Step.unblocked` -- the step lemma. A step keeps the invariant as long as the row has the tokens
  of a disambiguated program: then the row is that program, cut, and an expression arises only
  between `as` and a semicolon;
* `Program.Disambiguated` -- the condition on a program;
* `parse_disambiguated` -- **every disambiguated program is accepted** and reads back as it was
  written.
-/

namespace Trivalent

open Trivalent.Derivation

/-! ## 1. Pending declarations -/

/-- A node of a row as declarations see it: its symbol and, for a leaf, its text. -/
abbrev Mark := Symbol × Option String

/-- The mark of a derivation. -/
def Derivation.mark (d : Derivation) : Mark := (d.symbol, d.node.literal?)

/-- The names of the identifiers right after a `val`, in a row that has `prev` before it. -/
def pending : Symbol → List Mark → List String
  | _, [] => []
  | prev, m :: rest =>
    (if prev = .valWord ∧ m.1 = .identifier then m.2.toList else []) ++ pending m.1 rest

theorem pending_append (prev : Symbol) (xs ys : List Mark) :
    pending prev (xs ++ ys)
      = pending prev xs ++ pending ((xs.map Prod.fst).getLastD prev) ys := by
  induction xs generalizing prev with
  | nil => rfl
  | cons m xs ih =>
      rw [List.cons_append, pending, pending, ih, List.append_assoc, List.map_cons,
        List.getLastD_cons]

/-- What is pending does not depend on what comes before, unless that is a `val`. -/
theorem pending_congr {prev prev' : Symbol} (hprev : prev ≠ .valWord) (hprev' : prev' ≠ .valWord)
    (marks : List Mark) : pending prev marks = pending prev' marks := by
  cases marks with
  | nil => rfl
  | cons m rest =>
      rw [pending, pending, if_neg fun h => hprev h.1, if_neg fun h => hprev' h.1]

theorem pending_eq_nil {prev : Symbol} {marks : List Mark} (h : ∀ m ∈ marks, m.1 ≠ .identifier) :
    pending prev marks = [] := by
  induction marks generalizing prev with
  | nil => rfl
  | cons m rest ih =>
      rw [pending, if_neg fun hm => h m List.mem_cons_self hm.2, List.nil_append]
      exact ih fun n hn => h n (List.mem_cons_of_mem _ hn)

/-- A pending name stands right after a `val`. -/
theorem exists_of_mem_pending {prev : Symbol} {marks : List Mark} {name : String}
    (h : name ∈ pending prev marks) :
    (prev = .valWord ∧ ∃ a, marks = (.identifier, some name) :: a)
      ∨ ∃ b text a, marks = b ++ (.valWord, text) :: (.identifier, some name) :: a := by
  induction marks generalizing prev with
  | nil => cases h
  | cons m rest ih =>
      obtain ⟨s, text⟩ := m
      rcases List.mem_append.mp h with h | h
      · split at h
        · rename_i hval
          obtain ⟨hprev, rfl⟩ := hval
          have htext : text = some name := Option.mem_toList.mp h
          subst htext
          exact .inl ⟨hprev, rest, rfl⟩
        · cases h
      · rcases ih h with ⟨rfl, a, rfl⟩ | ⟨b, text', a, rfl⟩
        · exact .inr ⟨[], text, a, rfl⟩
        · exact .inr ⟨(s, text) :: b, text', a, rfl⟩

/-! ## 2. Covering -/

/-- What a declaration does to a mark. -/
def cover (name : String) (m : Mark) : Mark :=
  if m = (.identifier, some name) then (.valVar, none) else m

theorem isIdentifier_iff {d : Derivation} {name : String} :
    d.node.isIdentifier name = true ↔ d.mark = (.identifier, some name) := by
  unfold Node.isIdentifier Derivation.mark Derivation.symbol
  rw [Bool.and_eq_true, beq_iff_eq, beq_iff_eq, Prod.mk.injEq]

theorem marks_coverAll (name : String) :
    ∀ (row : List Derivation) (next : NodeId),
      (coverAll .valVar name next row).map mark = (row.map mark).map (cover name)
  | [], _ => rfl
  | d :: row, next => by
      unfold coverAll
      split
      · rename_i hname
        rw [List.map_cons, marks_coverAll name row, List.map_cons, List.map_cons, cover,
          if_pos (isIdentifier_iff.mp hname)]
        rfl
      · rename_i hname
        rw [List.map_cons, marks_coverAll name row, List.map_cons, List.map_cons, cover,
          if_neg fun h => hname (isIdentifier_iff.mpr h)]

/-- Covering a name leaves the other pending names as they are. -/
theorem pending_cover {name : String} {prev prev' : Symbol} {marks : List Mark}
    (hprev : prev' = .valWord ↔ prev = .valWord) :
    pending prev' (marks.map (cover name)) = (pending prev marks).filter (· != name) := by
  induction marks generalizing prev prev' with
  | nil => rfl
  | cons m rest ih =>
      rw [List.map_cons, pending, pending, List.filter_append]
      by_cases hm : m = (.identifier, some name)
      · subst hm
        rw [cover, if_pos rfl, @ih .identifier .valVar (by simp), if_neg (fun h => by cases h.2)]
        by_cases hval : prev = .valWord <;> simp [hval]
      · rw [cover, if_neg hm, ih Iff.rfl]
        simp only [hprev]
        split
        · rename_i hdeclared
          obtain ⟨s, text⟩ := m
          obtain ⟨-, rfl⟩ := hdeclared
          cases text with
          | none => rfl
          | some other =>
              have hne : other ≠ name := fun heq => hm (by rw [heq])
              simp [hne]
        · rfl

/-- Covering a name that is not pending leaves the neighbours fitting together. -/
theorem linked_cover {name : String} {prev prev' : Symbol} {marks : List Mark}
    (hprev : prev' = prev ∨ prev = .identifier ∧ prev' = .valVar) (h : name ∉ pending prev marks)
    (hlinked : Linked prev (marks.map Prod.fst)) :
    Linked prev' ((marks.map (cover name)).map Prod.fst) := by
  induction marks generalizing prev prev' with
  | nil => trivial
  | cons m rest ih =>
      rw [pending, List.mem_append, not_or] at h
      obtain ⟨hadjacent, hrest⟩ := hlinked
      by_cases hm : m = (.identifier, some name)
      · subst hm
        have hval : prev ≠ .valWord := by
          rintro rfl
          exact h.1 (by simp)
        rw [List.map_cons, cover, if_pos rfl]
        refine ⟨⟨nofun, fun hexp => ?_, fun hdecl => ?_⟩, ih (.inr ⟨rfl, rfl⟩) h.2 hrest⟩
        · rcases hprev with rfl | ⟨-, rfl⟩
          · cases hadjacent.after hexp
          · cases hexp
        · rcases hprev with rfl | ⟨-, rfl⟩
          · exact absurd hdecl hval
          · cases hdecl
      · rw [List.map_cons, cover, if_neg hm]
        refine ⟨?_, ih (.inl rfl) h.2 hrest⟩
        rcases hprev with rfl | ⟨rfl, rfl⟩
        · exact hadjacent
        · refine ⟨fun hexp => ?_, nofun, nofun⟩
          cases hadjacent.before hexp

/-! ## 3. The invariant -/

/-- Nothing stands in the way of a complete reduction: neighbours fit together, no name waits for
two declarations, and every raw identifier waits for one. -/
structure Unblocked (marks : List Mark) : Prop where
  linked : Linked .semicolon (marks.map Prod.fst)
  fresh : (pending .semicolon marks).Nodup
  waiting : ∀ name, (.identifier, some name) ∈ marks → name ∈ pending .semicolon marks

theorem map_fst_mark (row : List Derivation) : (row.map mark).map Prod.fst = row.map symbol := by
  rw [List.map_map]
  rfl

/-- A pending name means that a declaration can be folded. -/
theorem exists_declaration_of_mem_pending {row : List Derivation} {name : String}
    (h : name ∈ pending .semicolon (row.map mark)) :
    ∃ b a, row.map symbol = b ++ [.valWord, .identifier] ++ a := by
  rcases exists_of_mem_pending h with ⟨hval, -⟩ | ⟨b, text, a, hsplit⟩
  · cases hval
  · refine ⟨b.map Prod.fst, a.map Prod.fst, ?_⟩
    rw [← map_fst_mark, hsplit]
    simp

/-- A raw identifier means that a declaration can be folded. -/
theorem Unblocked.exists_declaration {row : List Derivation} (h : Unblocked (row.map mark))
    (hshaped : ∀ d ∈ row, Shaped d) (hraw : .identifier ∈ row.map symbol) :
    ∃ b a, row.map symbol = b ++ [.valWord, .identifier] ++ a := by
  obtain ⟨d, hd, hs⟩ := List.mem_map.mp hraw
  obtain ⟨id, node, name, rfl, hlexeme⟩ := (hshaped d hd).unparse_identifier hs
  have hmark : (Derivation.leaf id node).mark = (.identifier, some name) := by
    rw [Derivation.mark, hs]
    exact congrArg _ (Node.lexeme?_eq_some hlexeme).2.2
  have hpending := h.waiting name (by rw [← hmark]; exact List.mem_map_of_mem hd)
  exact exists_declaration_of_mem_pending hpending

/-- The symbols at the ends of a window that is folded. -/
theorem Folds.ends {next : NodeId} {window : List Derivation} {new : Derivation}
    (h : Folds next window new) :
    (∃ first rest, window = first :: rest ∧ first.symbol ≠ .identifier ∧ first.symbol ≠ .semicolon)
      ∧ ∀ prev, (window.map symbol).getLastD prev ≠ .asWord
        ∧ (window.map symbol).getLastD prev ≠ .valWord := by
  have hready : ∀ {s : Symbol}, s.Ready →
      (s ≠ .identifier ∧ s ≠ .semicolon) ∧ s ≠ .asWord ∧ s ≠ .valWord := by
    intro s hs
    rcases hs with rfl | rfl <;> decide
  cases h with
  | block hl hr => exact ⟨⟨_, _, rfl, by rw [hl]; decide⟩, fun prev => by simp [hr]⟩
  | single hs => exact ⟨⟨_, _, rfl, by rw [hs]; decide⟩, fun prev => by simp [hs]⟩
  | assign hk hv ha hr he => exact ⟨⟨_, _, rfl, by rw [hk]; decide⟩, fun prev => by simp [he]⟩
  | declare hk hi => exact ⟨⟨_, _, rfl, by rw [hk]; decide⟩, fun prev => by simp [hi]⟩
  | negate hk ha => exact ⟨⟨_, _, rfl, by rw [hk]; decide⟩, fun prev => (hready ha).2⟩
  | group ho ha he => exact ⟨⟨_, _, rfl, by rw [ho]; decide⟩, fun prev => by simp [he]⟩
  | lift ha => exact ⟨⟨_, _, rfl, by rw [ha]; decide⟩, fun prev => by simp [ha]⟩
  | plain c ha hk hb => exact ⟨⟨_, _, rfl, (hready ha).1⟩, fun prev => (hready hb).2⟩
  | pair c ho ha hk hb he => exact ⟨⟨_, _, rfl, by rw [ho]; decide⟩, fun prev => by simp [he]⟩

/-- **An expression arises between `as` and a semicolon only**, if nothing wider can be folded in
what is left of a disambiguated program. -/
theorem Folds.expression_between {next : NodeId} {before window after : List Derivation}
    {new : Derivation} (h : Folds next window new) (hs : new.symbol = .expression)
    (hcut : CutProgram ((before ++ window ++ after).map symbol))
    (hwidest : ∀ b frame a p,
      Grammar.standard.IsFrame ((before ++ window ++ after).map symbol) b frame a p →
        frame.length ≤ window.length)
    (hraw : window.length ≤ 1 → .identifier ∉ (before ++ window ++ after).map symbol) :
    ∃ b a, before.map symbol = b ++ [.asWord] ∧ after.map symbol = .semicolon :: a := by
  cases h with
  | @lift a ha =>
      have hsettled := @CutProgram.settled _ _ hcut hwidest (hraw (Nat.le_refl 1)) [] rfl
      obtain ⟨b, a', hb, ha'⟩ := @Settled.operand_between _ hsettled []
        (before.map symbol) (after.map symbol) (by simp [ha])
      exact ⟨b, a', hb, ha'⟩
  | @plain c a k b ha hk hb =>
      have hframed := @CutProgram.framed _ hcut c a.symbol b.symbol ha hb [] (before.map symbol)
        (after.map symbol) (by simp [hk])
      rcases hframed with hframed | ⟨pre, post, hpre, hpost⟩
      · exact hframed
      · -- in parentheses the parentheses belong to a wider frame
        have hpre : before.map symbol = pre ++ [.openParen] := hpre
        have hframe : Grammar.standard.IsFrame ((before ++ [a, k, b] ++ after).map symbol) pre
            [.openParen, a.symbol, c.word, b.symbol, .closeParen] post
            ⟨.operand, c.action, 1, 3, false⟩ := by
          refine ⟨?_, Grammar.lookup_standard_iff.mpr (.pair c ha hb)⟩
          rw [List.map_append, List.map_append, hpre, hpost]
          simp [hk]
        exact absurd (hwidest _ _ _ _ hframe) (by simp)
  | block => cases hs
  | single => cases hs
  | assign => cases hs
  | declare => cases hs
  | negate => cases hs
  | group => cases hs
  | pair => cases hs

/-! ## 4. Steps keep it -/

section Fold

variable {next : NodeId} {before window after : List Derivation} {new : Derivation}

/-- What stands before a window that is folded is no `val` and no expression. -/
theorem Folds.prev_ne (h : Folds next window new)
    (hlinked : Linked .semicolon ((before ++ window ++ after).map symbol)) :
    (before.map symbol).getLastD .semicolon ≠ .valWord
      ∧ (before.map symbol).getLastD .semicolon ≠ .expression := by
  obtain ⟨⟨first, rest, rfl, hid, hsemi⟩, -⟩ := h.ends
  rw [List.append_assoc, List.map_append] at hlinked
  have hadjacent : Adjacent ((before.map symbol).getLastD .semicolon) first.symbol :=
    (linked_append.mp hlinked).2.1
  exact ⟨fun hval => hid (hadjacent.declared hval), fun hexp => hsemi (hadjacent.after hexp)⟩

/-- A fold leaves the neighbours fitting together, if an expression arises only in its place. -/
theorem Folds.linked (h : Folds next window new)
    (hlinked : Linked .semicolon ((before ++ window ++ after).map symbol))
    (hbetween : new.symbol = .expression →
      ∃ b a, before.map symbol = b ++ [.asWord] ∧ after.map symbol = .semicolon :: a) :
    Linked .semicolon ((before ++ new :: after).map symbol) := by
  obtain ⟨hval, hexp⟩ := h.prev_ne hlinked
  obtain ⟨hlastAs, -⟩ := h.ends.2 ((before.map symbol).getLastD .semicolon)
  rw [List.append_assoc, List.map_append, linked_append, List.map_append, linked_append] at hlinked
  obtain ⟨hbefore, -, hafter⟩ := hlinked
  have hfolded := h.isFolded
  rw [List.map_append, linked_append]
  refine ⟨hbefore, ⟨fun hnew => ?_, fun hprev => absurd hprev hexp, fun hprev => absurd hprev hval⟩,
    ?_⟩
  · obtain ⟨b, a, hb, -⟩ := hbetween hnew
    rw [hb]
    exact List.getLastD_concat ..
  · cases hrest : after.map symbol with
    | nil => trivial
    | cons t rest =>
        rw [hrest] at hafter hbetween
        refine ⟨⟨fun ht => absurd (hafter.1.before ht) hlastAs, fun hnew => ?_, fun hnew => ?_⟩,
          hafter.2⟩
        · obtain ⟨b, a, -, ha⟩ := hbetween hnew
          exact (List.cons.inj ha).1
        · rw [hnew] at hfolded
          cases hfolded

/-- A fold declares a name or has no declaration in its window. -/
theorem Folds.declares_cases (h : Folds next window new) :
    (∃ k i, window = [k, i] ∧ k.symbol = .valWord ∧ i.symbol = .identifier
        ∧ new.declares? = i.node.literal?)
      ∨ new.declares? = none ∧ ∀ d ∈ window, d.symbol ≠ .valWord ∧ d.symbol ≠ .identifier := by
  have hready : ∀ {s : Symbol}, s.Ready → s ≠ .valWord ∧ s ≠ .identifier := by
    intro s hs
    rcases hs with rfl | rfl <;> decide
  have hword : ∀ c : Connective, c.word ≠ .valWord ∧ c.word ≠ .identifier := by
    intro c
    cases c <;> decide
  cases h with
  | declare hk hi => exact .inl ⟨_, _, rfl, hk, hi, rfl⟩
  | block hl hr => exact .inr ⟨rfl, by simp [hl, hr]⟩
  | single hs => exact .inr ⟨rfl, by simp [hs]⟩
  | assign hk hv ha hr he =>
      refine .inr ⟨rfl, ?_⟩
      rcases hr with hr | hr <;> simp [hk, hv, ha, hr, he]
  | negate hk ha => exact .inr ⟨rfl, by simp [hk, hready ha]⟩
  | group ho ha he => exact .inr ⟨rfl, by simp [ho, he, hready ha]⟩
  | lift ha => exact .inr ⟨rfl, by simp [ha]⟩
  | plain c ha hk hb => exact .inr ⟨rfl, by simp [hk, hword c, hready ha, hready hb]⟩
  | pair c ho ha hk hb he =>
      exact .inr ⟨rfl, by simp [ho, hk, he, hword c, hready ha, hready hb]⟩

/-- A fold takes the name that it declares from the pending ones, and no other. -/
theorem Folds.pending_eq (h : Folds next window new) :
    pending .semicolon ((before ++ window ++ after).map mark)
        = pending .semicolon (before.map mark) ++ new.declares?.toList
          ++ pending new.symbol (after.map mark)
      ∧ pending .semicolon ((before ++ new :: after).map mark)
        = pending .semicolon (before.map mark) ++ pending new.symbol (after.map mark) := by
  obtain ⟨-, hlast⟩ := h.ends.2 ((before.map symbol).getLastD .semicolon)
  have hfolded := h.isFolded
  have hval : new.symbol ≠ .valWord := by
    intro hnew
    rw [hnew] at hfolded
    cases hfolded
  have hid : new.symbol ≠ .identifier := by
    intro hnew
    rw [hnew] at hfolded
    cases hfolded
  have hwindow : pending ((before.map symbol).getLastD .semicolon) (window.map mark)
      = new.declares?.toList := by
    rcases h.declares_cases with ⟨k, i, rfl, hk, hi, hdeclares⟩ | ⟨hdeclares, hnone⟩
    · rw [hdeclares, List.map_cons, List.map_singleton, Derivation.mark, Derivation.mark, hk, hi]
      simp [pending]
    · rw [hdeclares]
      refine pending_eq_nil fun m hm => ?_
      obtain ⟨d, hd, rfl⟩ := List.mem_map.mp hm
      exact (hnone d hd).2
  constructor
  · rw [List.append_assoc, List.map_append, pending_append, map_fst_mark, List.map_append,
      pending_append, map_fst_mark, hwindow, pending_congr hlast hval, List.append_assoc]
  · rw [List.map_append, pending_append, map_fst_mark, List.map_cons, pending,
      if_neg fun h => hid h.2, List.nil_append]
    rfl

/-- A fold brings in no raw identifier. -/
theorem Folds.mem_marks (h : Folds next window new) {name : String}
    (hmem : (.identifier, some name) ∈ (before ++ new :: after).map mark) :
    (.identifier, some name) ∈ (before ++ window ++ after).map mark := by
  obtain ⟨d, hd, hmark⟩ := List.mem_map.mp hmem
  have hne : d ≠ new := by
    rintro rfl
    have hfolded := h.isFolded
    rw [show d.symbol = .identifier from congrArg Prod.fst hmark] at hfolded
    cases hfolded
  rw [← hmark]
  refine List.mem_map_of_mem ?_
  rcases List.mem_append.mp hd with hd | hd
  · exact List.mem_append_left _ (List.mem_append_left _ hd)
  · rcases List.mem_cons.mp hd with hd | hd
    · exact absurd hd hne
    · exact List.mem_append_right _ hd

end Fold

/-- **A step keeps the invariant** on what is left of a disambiguated program. -/
theorem Step.unblocked {next : NodeId} {row row' : List Derivation} {declared : Option String}
    {ss : List Statement} (h : Step .standard .bind next row declared row')
    (hss : ∀ s ∈ ss, s.disambiguated) (hshaped : ∀ d ∈ row, Shaped d)
    (hunparse : row.flatMap unparse = ss.flatMap Statement.lexemes)
    (hrow : Unblocked (row.map mark)) : Unblocked (row'.map mark) := by
  have hlinked := hrow.linked
  rw [map_fst_mark] at hlinked
  have hcut := CutProgram.of_unparse hss hshaped hlinked hunparse
  obtain ⟨before, window, after, new, rfl, hfolds, hwidest, rfl, rfl⟩ := h.folds
  have hbetween : new.symbol = .expression →
      ∃ b a, before.map symbol = b ++ [.asWord] ∧ after.map symbol = .semicolon :: a := by
    intro hs
    refine hfolds.expression_between hs hcut hwidest fun hlen hraw => ?_
    obtain ⟨b, a, hsplit⟩ := hrow.exists_declaration hshaped hraw
    have hwide := hwidest _ _ _ _ ⟨hsplit, Grammar.lookup_standard_iff.mpr .declare⟩
    exact absurd (Nat.le_trans hwide hlen) (by decide)
  have hlinked' := hfolds.linked hlinked hbetween
  rw [← map_fst_mark] at hlinked'
  obtain ⟨hpending, hpending'⟩ := @Folds.pending_eq _ before _ after _ hfolds
  generalize pending .semicolon (before.map mark) = front at hpending hpending'
  generalize pending new.symbol (after.map mark) = back at hpending hpending'
  have hfresh := hrow.fresh
  have hwaiting : ∀ name, (.identifier, some name) ∈ (before ++ new :: after).map mark →
      name ∈ front ++ new.declares?.toList ++ back := by
    intro name hname
    rw [← hpending]
    exact hrow.waiting name (hfolds.mem_marks hname)
  rw [hpending] at hfresh
  cases hdeclares : new.declares? with
  | none =>
      rw [hdeclares, Option.toList_none, List.append_nil] at hfresh hwaiting
      refine ⟨hlinked', ?_, ?_⟩
      · rw [bindAll_none, hpending']
        exact hfresh
      · rw [bindAll_none, hpending']
        exact hwaiting
  | some name =>
      -- the declared name is pending no more, so covering it touches no other declaration
      rw [hdeclares, Option.toList_some, List.append_assoc, List.singleton_append] at hfresh hwaiting
      obtain ⟨hout, hrest⟩ := List.nodup_cons.mp (List.perm_middle.nodup_iff.mp hfresh)
      rw [← hpending'] at hout hrest
      rw [bindAll_some, marks_coverAll]
      have hcovered : pending .semicolon (((before ++ new :: after).map mark).map (cover name))
          = pending .semicolon ((before ++ new :: after).map mark) := by
        rw [pending_cover Iff.rfl, List.filter_eq_self]
        intro other hother
        exact bne_iff_ne.mpr fun heq => hout (heq ▸ hother)
      refine ⟨linked_cover (.inl rfl) hout hlinked', ?_, fun other hother => ?_⟩
      · rw [hcovered]
        exact hrest
      · rw [hcovered, hpending']
        obtain ⟨m, hm, hcover⟩ := List.mem_map.mp hother
        rw [cover] at hcover
        split at hcover
        · cases hcover
        · rename_i hne
          subst hcover
          have hmem := List.perm_middle.mem_iff.mp (hwaiting other hm)
          rcases List.mem_cons.mp hmem with rfl | hmem
          · exact absurd rfl hne
          · exact hmem

/-! ## 5. It holds at the start -/

/-- The variables of an operand, from left to right. -/
def Operand.occurrences : Operand → List Occurrence
  | constant _ => []
  | var x => [x]
  | not a => a.occurrences
  | group a => a.occurrences
  | pair _ a b => a.occurrences ++ b.occurrences

/-- The variables of a right-hand side. -/
def RightSide.occurrences : RightSide → List Occurrence
  | operand a => a.occurrences
  | plain _ a b => a.occurrences ++ b.occurrences

/-- The variables of a statement, its target first. -/
def Statement.occurrences (s : Statement) : List Occurrence := s.target :: s.value.occurrences

/-- The variables of a program. -/
def Program.occurrences (p : Program) : List Occurrence := p.statements.flatMap Statement.occurrences

/-- No connective has a bare negation on its left, and every name that occurs is declared exactly
once, wherever that is. -/
structure Program.Disambiguated (p : Program) : Prop where
  negations : ∀ s ∈ p.statements, s.disambiguated
  declarations : ∀ x ∈ p.occurrences, p.occurrences.count ⟨x.name, true⟩ = 1

/-- The mark of a token. -/
def Lexeme.mark (l : Lexeme) : Mark := (l.symbol, some l.literal)

/-- Marks that fit together after almost everything and before anything, with the variables that
they spell. -/
structure Tidy (marks : List Mark) (xs : List Occurrence) : Prop where
  raw : ∀ name, (.identifier, some name) ∈ marks → ∃ x ∈ xs, x.name = name
  after : ∀ prev, prev ≠ .valWord → prev ≠ .expression →
    Linked prev (marks.map Prod.fst)
      ∧ pending prev marks = (xs.filter (·.declared)).map (·.name)
      ∧ (marks.map Prod.fst).getLastD prev ≠ .valWord
      ∧ (marks.map Prod.fst).getLastD prev ≠ .expression

theorem getLastD_append (xs ys : List Symbol) (s : Symbol) :
    (xs ++ ys).getLastD s = ys.getLastD (xs.getLastD s) := by
  induction xs generalizing s with
  | nil => rfl
  | cons x xs ih => rw [List.cons_append, List.getLastD_cons, List.getLastD_cons, ih]

theorem Tidy.append {marks marks' : List Mark} {xs xs' : List Occurrence} (h : Tidy marks xs)
    (h' : Tidy marks' xs') : Tidy (marks ++ marks') (xs ++ xs') where
  raw := by
    intro name hname
    rcases List.mem_append.mp hname with hname | hname
    · obtain ⟨x, hx, hxname⟩ := h.raw name hname
      exact ⟨x, List.mem_append_left _ hx, hxname⟩
    · obtain ⟨x, hx, hxname⟩ := h'.raw name hname
      exact ⟨x, List.mem_append_right _ hx, hxname⟩
  after := by
    intro prev hval hexp
    obtain ⟨hlinked, hpending, hval', hexp'⟩ := h.after prev hval hexp
    obtain ⟨hlinked', hpending', hlast⟩ := h'.after _ hval' hexp'
    rw [List.map_append, linked_append, pending_append, hpending, hpending', List.filter_append,
      List.map_append, getLastD_append]
    exact ⟨⟨hlinked, hlinked'⟩, rfl, hlast⟩

/-- A token that is no identifier and no `val`. -/
theorem Tidy.token {l : Lexeme} (hval : l.symbol ≠ .valWord) (hid : l.symbol ≠ .identifier)
    (hexp : l.symbol ≠ .expression) : Tidy [l.mark] [] where
  raw := by
    intro name hname
    exact absurd (congrArg Prod.fst (List.mem_singleton.mp hname)).symm hid
  after := by
    intro prev hprev hprev'
    refine ⟨⟨⟨fun h => absurd h hexp, fun h => absurd h hprev', fun h => absurd h hprev⟩, trivial⟩,
      ?_, hval, hexp⟩
    simp [pending, hprev]

theorem Tidy.occurrence (x : Occurrence) : Tidy (x.lexemes.map Lexeme.mark) [x] := by
  obtain ⟨name, declared⟩ := x
  have hword : Symbol.identifier ≠ .valWord := by decide
  have hname : Symbol.identifier ≠ .expression := by decide
  cases declared with
  | false =>
      refine ⟨fun other hother => ?_, fun prev hval hexp => ?_⟩
      · cases List.mem_singleton.mp hother
        exact ⟨_, List.mem_cons_self, rfl⟩
      · refine ⟨⟨⟨fun h => absurd h hname, fun h => absurd h hexp, fun h => absurd h hval⟩, trivial⟩,
          ?_, hword, hname⟩
        simp [pending, Occurrence.lexemes, hval]
  | true =>
      refine ⟨fun other hother => ?_, fun prev hval hexp => ?_⟩
      · rcases List.mem_cons.mp hother with hother | hother
        · cases hother
        · cases List.mem_singleton.mp hother
          exact ⟨_, List.mem_cons_self, rfl⟩
      · have hdeclares : Symbol.valWord ≠ .expression := by decide
        refine ⟨⟨⟨fun h => absurd h hdeclares, fun h => absurd h hexp, fun h => absurd h hval⟩,
          ⟨fun h => absurd h hname, fun h => absurd h hdeclares, fun _ => rfl⟩, trivial⟩,
          ?_, hword, hname⟩
        simp [pending, Occurrence.lexemes, hval, Lexeme.mark, Lexeme.ofWord, Lexeme.ofName]

theorem Tidy.word {s : Symbol} (hs : s.spelling?.isSome) (hval : s ≠ .valWord) :
    Tidy [(Lexeme.ofWord s).mark] [] := by
  refine .token hval ?_ ?_
  · rintro rfl
    cases hs
  · rintro rfl
    cases hs

theorem Tidy.connective (c : Connective) : Tidy [(Lexeme.ofWord c.word).mark] [] := by
  cases c <;> exact .word rfl (by decide)

theorem Tidy.operand (a : Operand) : Tidy (a.lexemes.map Lexeme.mark) a.occurrences := by
  have hopen : Tidy [(Lexeme.ofWord .openParen).mark] [] := .word rfl (by decide)
  have hclose : Tidy [(Lexeme.ofWord .closeParen).mark] [] := .word rfl (by decide)
  induction a with
  | constant c =>
      have hs := c.symbol_lexeme
      exact .token (by rw [hs]; decide) (by rw [hs]; decide) (by rw [hs]; decide)
  | var x => exact .occurrence x
  | not a ih =>
      have h := (Tidy.word (s := .notWord) rfl (by decide)).append ih
      simpa [Operand.lexemes, Operand.occurrences] using h
  | group a ih =>
      have h := (hopen.append ih).append hclose
      simpa [Operand.lexemes, Operand.occurrences] using h
  | pair c a b iha ihb =>
      have h := (((hopen.append iha).append (.connective c)).append ihb).append hclose
      simpa [Operand.lexemes, Operand.occurrences] using h

theorem Tidy.statement (s : Statement) : Tidy (s.lexemes.map Lexeme.mark) s.occurrences := by
  have hdef : Tidy [(Lexeme.ofWord .defWord).mark] [] := .word rfl (by decide)
  have has : Tidy [(Lexeme.ofWord .asWord).mark] [] := .word rfl (by decide)
  have hend : Tidy [(Lexeme.ofWord .semicolon).mark] [] := .word rfl (by decide)
  have hvalue : Tidy (s.value.lexemes.map Lexeme.mark) s.value.occurrences := by
    cases s.value with
    | operand a => exact .operand a
    | plain c a b =>
        have h := ((Tidy.operand a).append (.connective c)).append (.operand b)
        simpa [RightSide.lexemes, RightSide.occurrences] using h
  have h := (((hdef.append (.occurrence s.target)).append has).append hvalue).append hend
  simpa [Statement.lexemes, Statement.occurrences] using h

theorem Tidy.program (p : Program) : Tidy (p.lexemes.map Lexeme.mark) p.occurrences := by
  unfold Program.lexemes Program.occurrences
  induction p.statements with
  | nil =>
      exact ⟨fun name hname => absurd hname List.not_mem_nil,
        fun prev hval hexp => ⟨trivial, rfl, hval, hexp⟩⟩
  | cons s ss ih =>
      rw [List.flatMap_cons, List.flatMap_cons, List.map_append]
      exact (Tidy.statement s).append ih

/-- The declared names, counted among all variables. -/
theorem count_declared (xs : List Occurrence) (name : String) :
    ((xs.filter (·.declared)).map (·.name)).count name = xs.count ⟨name, true⟩ := by
  rw [List.count_eq_countP, List.countP_map, List.countP_filter, List.count_eq_countP]
  refine List.countP_congr fun x _ => ?_
  obtain ⟨other, declared⟩ := x
  simp

/-- **The tokens of a disambiguated program are unblocked.** -/
theorem Program.Disambiguated.unblocked {p : Program} (hp : p.Disambiguated) :
    Unblocked (p.lexemes.map Lexeme.mark) := by
  have htidy := Tidy.program p
  obtain ⟨hlinked, hpending, -⟩ := htidy.after .semicolon (by decide) (by decide)
  refine ⟨hlinked, ?_, fun name hname => ?_⟩
  · -- a name that were pending twice would be declared twice
    rw [hpending, List.nodup_iff_count]
    intro name
    rw [count_declared]
    by_cases hmem : ⟨name, true⟩ ∈ p.occurrences
    · exact Nat.le_of_eq (hp.declarations _ hmem)
    · rw [List.count_eq_zero.mpr hmem]
      exact Nat.zero_le 1
  · obtain ⟨x, hx, rfl⟩ := htidy.raw name hname
    have hcount := hp.declarations x hx
    have hmem : ⟨x.name, true⟩ ∈ p.occurrences := by
      rw [← List.count_pos_iff, hcount]
      exact Nat.one_pos
    rw [hpending]
    exact List.mem_map.mpr ⟨_, List.mem_filter.mpr ⟨hmem, rfl⟩, rfl⟩

/-! ## 6. Acceptance -/

theorem map_mark_leafRow (leaves : List Node) :
    (leafRow leaves).map mark = leaves.map fun n => (n.symbol, n.literal?) := by
  apply List.ext_getElem
  · simp [leafRow]
  · intro i h₁ h₂
    simp [leafRow, Derivation.mark, Derivation.node]

theorem marks_leafRow {leaves : List Node} {lexemes : List Lexeme} (h : Spells leaves lexemes) :
    (leafRow leaves).map mark = lexemes.map Lexeme.mark := by
  rw [map_mark_leafRow]
  induction leaves generalizing lexemes with
  | nil =>
      cases lexemes with
      | nil => rfl
      | cons l lexemes => cases h
  | cons n leaves ih =>
      cases lexemes with
      | nil => cases h
      | cons l lexemes =>
          obtain ⟨hl, hrest⟩ := List.cons.inj h
          obtain ⟨hsymbol, -, htext⟩ := Node.lexeme?_eq_some hl
          rw [List.map_cons, List.map_cons, ih hrest, hsymbol, htext]
          rfl

/-- A run on a disambiguated program that cannot go on has come to a single node. -/
theorem Run.length_le {p : Program} {leaves : List Node} {steps : Nat} {names : List String}
    {row : List Derivation} (hp : p.Disambiguated) (hspells : Spells leaves p.lexemes)
    (h : Run .standard .bind steps (leafRow leaves) names row)
    (hnone : Grammar.standard.find (row.map symbol) = none) : row.length ≤ 1 := by
  have hgenuine := hspells.genuine p.genuine
  have hstart : (leafRow leaves).flatMap unparse = p.statements.flatMap Statement.lexemes :=
    (spells_leafRow hgenuine).unique hspells
  -- along the run: shaped derivations, the tokens of the program, and nothing in the way
  obtain ⟨hshaped, hunparse, hunblocked⟩ := h.preserves
    (P := fun r => (∀ d ∈ r, Shaped d) ∧ r.flatMap unparse = p.statements.flatMap Statement.lexemes
      ∧ Unblocked (r.map mark))
    (fun hstep ⟨hshaped, hunparse, hunblocked⟩ => by
      refine ⟨hstep.shaped hshaped, ?_, hstep.unblocked hp.negations hshaped hunparse hunblocked⟩
      rw [← hunparse]
      exact hstep.flatMap_eq (fun hfold hparts => hfold.unparse_eq hparts)
        (fun id i _ _ => unparse_occurrence id i) hshaped)
    ⟨shaped_leafRow hgenuine, hstart, by rw [marks_leafRow hspells]; exact hp.unblocked⟩
  have hlinked := hunblocked.linked
  rw [map_fst_mark] at hlinked
  have hcut := CutProgram.of_unparse hp.negations hshaped hlinked hunparse
  have hwide : NoWide (row.map symbol) := fun b frame a q hframe =>
    absurd hframe (Grammar.find_eq_none hnone)
  have hraw : .identifier ∉ row.map symbol := by
    intro hraw
    obtain ⟨b, a, hsplit⟩ := hunblocked.exists_declaration hshaped hraw
    exact Grammar.find_eq_none hnone ⟨hsplit, Grammar.lookup_standard_iff.mpr .declare⟩
  have hsettled := @CutProgram.settled _ _ hcut hwide hraw [] rfl
  have hlen := hsettled.length_le hnone
  rwa [List.length_map] at hlen

/-- **Every disambiguated program is accepted** and reads back as it was written: the root is a
block, and its statements are the statements of the program. -/
theorem parse_disambiguated {p : Program} (hp : p.Disambiguated) {leaves : List Node}
    (hspells : Spells leaves p.lexemes) (journal : Journal) :
    ∃ root w d, parse leaves journal = .ok root w ∧ w.arena.Unfolds root d
      ∧ d.symbol = .codeBlock ∧ d.readStatements? = some p.statements := by
  obtain ⟨steps, names, row, w, hrun, hgrown, hnone, ⟨d, rfl, hok⟩ | ⟨span, line, hlen, -⟩⟩ :=
    parse_run hspells.ne_nil journal
  · obtain ⟨hd, hblock, hread⟩ := hrun.readStatements hspells hnone
    exact ⟨d.id, w, d, hok, hd.unfolds (hgrown.holds d List.mem_cons_self), hblock, hread⟩
  · exact absurd (hrun.length_le hp hspells hnone) (Nat.not_le.mpr hlen)

theorem parse_disambiguated_late :
    ∃ leaves root w d, tokenize "def x as not val y; def val x as (y or U);" = .ok leaves
      ∧ parse leaves {} = .ok root w ∧ w.arena.Unfolds root d
      ∧ d.readStatements? = some [⟨⟨"x", false⟩, .operand (.not (.var ⟨"y", true⟩))⟩,
          ⟨⟨"x", true⟩, .operand (.pair .or (.var ⟨"y", false⟩) (.constant .unsure))⟩] := by
  obtain ⟨leaves, htokens, hspells⟩ := @exists_leaves "def x as not val y; def val x as (y or U);"
    (Program.lexemes ⟨[⟨⟨"x", false⟩, .operand (.not (.var ⟨"y", true⟩))⟩,
      ⟨⟨"x", true⟩, .operand (.pair .or (.var ⟨"y", false⟩) (.constant .unsure))⟩], by decide⟩)
    (by decide +kernel)
  obtain ⟨root, w, d, hparse, hunfolds, -, hread⟩ :=
    parse_disambiguated ⟨by decide, by decide⟩ hspells {}
  exact ⟨leaves, root, w, d, htokens, hparse, hunfolds, hread⟩

end Trivalent
