import Trivalent.Proofs.Parse.Cut

/-!
# What a reduction can meet in a cut program

A reduction sees a window and not what stands around it. In a program that is half reduced, the two
reductions that could go wrong have only harmless surroundings:

* `CutProgram.framed` -- **two operands with a connective stand between `as` and a semicolon, or in
  parentheses.** In parentheses, the window with the parentheses is wider;
* `Settled`, `CutProgram.settled` -- **where no frame has two symbols or more**, nothing is left to
  do but to fold single symbols: each statement is folded or ends in `as`, an operand, a semicolon;
* `Settled.operand_between` -- so an operand that is lifted to an expression is a whole right-hand
  side;
* `Settled.length_le` -- a settled row without frames is one symbol.
-/

namespace Trivalent

/-! ## 1. Connectives -/

/-- Parts of a row that reach up to a right-hand side from both sides, or up to parentheses. -/
def Framed (before after : List Symbol) : Prop :=
  (∃ b a, before = b ++ [.asWord] ∧ after = .semicolon :: a)
    ∨ ∃ b a, before = b ++ [.openParen] ∧ after = .closeParen :: a

theorem Symbol.Ready.ne_of_spelling {s t : Symbol} (hs : s.Ready) (ht : t.spelling?.isSome) :
    t ≠ s := by
  rintro rfl
  rcases hs with rfl | rfl <;> cases ht

section Window

variable {xs zs x y : List Symbol} {w s k t : Symbol}

/-- Two operands with a symbol between them, in a row that is divided by a word: they lie on one
side of the word, or the word is between them. -/
theorem window_cases (hs : w ≠ s) (ht : w ≠ t) (h : xs ++ w :: zs = x ++ s :: k :: t :: y) :
    (∃ y', xs = x ++ s :: k :: t :: y' ∧ y = y' ++ w :: zs)
      ∨ (xs = x ++ [s] ∧ k = w ∧ zs = t :: y)
      ∨ ∃ x', x = xs ++ w :: x' ∧ zs = x' ++ s :: k :: t :: y := by
  induction xs generalizing x with
  | nil =>
      cases x with
      | nil => exact absurd (List.cons.inj h).1 hs
      | cons u x =>
          obtain ⟨rfl, hrest⟩ := List.cons.inj h
          exact .inr (.inr ⟨x, rfl, hrest⟩)
  | cons u xs ih =>
      cases x with
      | nil =>
          obtain ⟨rfl, htail⟩ := List.cons.inj h
          cases xs with
          | nil =>
              obtain ⟨hk, hrest⟩ := List.cons.inj htail
              exact .inr (.inl ⟨rfl, hk.symm, hrest⟩)
          | cons v xs =>
              obtain ⟨rfl, hright⟩ := List.cons.inj htail
              cases xs with
              | nil => exact absurd (List.cons.inj hright).1 ht
              | cons u' xs =>
                  obtain ⟨rfl, hrest⟩ := List.cons.inj hright
                  exact .inl ⟨xs, rfl, hrest.symm⟩
      | cons v x =>
          obtain ⟨rfl, htail⟩ := List.cons.inj h
          rcases ih htail with ⟨y', rfl, hy⟩ | ⟨rfl, hk, hz⟩ | ⟨x', rfl, hz⟩
          · exact .inl ⟨y', rfl, hy⟩
          · exact .inr (.inl ⟨rfl, hk, hz⟩)
          · exact .inr (.inr ⟨x', rfl, hz⟩)

/-- The same in a row that ends in a word. -/
theorem window_left (hs : w ≠ s) (ht : w ≠ t) (h : xs ++ [w] = x ++ s :: k :: t :: y) :
    ∃ y', xs = x ++ s :: k :: t :: y' ∧ y = y' ++ [w] := by
  rcases window_cases hs ht h with hleft | ⟨-, -, hz⟩ | ⟨x', -, hz⟩
  · exact hleft
  · cases hz
  · cases x' <;> cases hz

end Window

/-- An operand that starts with a folded symbol is folded. -/
theorem Cut.eq_nil_of_cons {a : Operand} {s : Symbol} {y : List Symbol} (h : Cut a (s :: y))
    (hs : s.Ready) : y = [] := by
  cases h with
  | bound => rfl
  | folded => rfl
  | raw => rfl
  | declaration => rcases hs with hs | hs <;> cases hs
  | not => rcases hs with hs | hs <;> cases hs
  | group => rcases hs with hs | hs <;> cases hs
  | pair => rcases hs with hs | hs <;> cases hs

/-- An operand that ends with a folded symbol is folded, or it is a negation. -/
theorem Cut.eq_nil_of_append {a : Operand} {s : Symbol} {x : List Symbol} (h : Cut a (x ++ [s]))
    (hs : s.Ready) (ha : a.isNegation = false) : x = [] := by
  generalize hrow : x ++ [s] = row at h
  have hclose : ∀ front : List Symbol, x ++ [s] ≠ front ++ [.closeParen] := by
    intro front heq
    obtain ⟨-, hs'⟩ := List.append_inj' heq rfl
    exact hs.ne_of_spelling (t := .closeParen) rfl (List.cons.inj hs').1.symm
  cases h with
  | bound => cases x with
    | nil => rfl
    | cons u x => cases x <;> cases hrow
  | folded => cases x with
    | nil => rfl
    | cons u x => cases x <;> cases hrow
  | raw => cases x with
    | nil => rfl
    | cons u x => cases x <;> cases hrow
  | declaration =>
      have hrow : x ++ [s] = [.valWord] ++ [.identifier] := hrow
      obtain ⟨-, hs'⟩ := List.append_inj' hrow rfl
      cases hs'
      rcases hs with hs | hs <;> cases hs
  | not => cases ha
  | @group a row hcut => exact absurd hrow (hclose (.openParen :: row))
  | @pair c a b row row' hcut hcut' =>
      refine absurd ?_ (hclose (.openParen :: (row ++ c.word :: row')))
      rw [hrow]
      simp

/-- Two operands with a connective, somewhere in an operand that stands between `pre` and `post`. -/
theorem Cut.framed {a : Operand} {row : List Symbol} (h : Cut a row) (ha : a.disambiguated)
    {c : Connective} {s t : Symbol} (hs : s.Ready) (ht : t.Ready) :
    ∀ {pre post x y : List Symbol}, row = x ++ s :: c.word :: t :: y →
      Framed (pre ++ x) (y ++ post) := by
  have hshort : ∀ {x y : List Symbol} {u : Symbol}, [u] ≠ x ++ s :: c.word :: t :: y := by
    intro x y u heq
    have hlen := congrArg List.length heq
    simp at hlen
    omega
  induction h with
  | bound => intro pre post x y heq; exact absurd heq hshort
  | folded => intro pre post x y heq; exact absurd heq hshort
  | raw => intro pre post x y heq; exact absurd heq hshort
  | declaration =>
      intro pre post x y heq
      have hlen := congrArg List.length heq
      simp at hlen
      omega
  | @not a row hcut ih =>
      intro pre post x y heq
      cases x with
      | nil => exact absurd (List.cons.inj heq).1 (hs.ne_of_spelling rfl)
      | cons u x =>
          obtain ⟨rfl, htail⟩ := List.cons.inj heq
          have hinner := @ih ha (pre ++ [.notWord]) post _ _ htail
          simpa only [List.append_assoc, List.cons_append, List.nil_append] using hinner
  | @group a row hcut ih =>
      intro pre post x y heq
      cases x with
      | nil => exact absurd (List.cons.inj heq).1 (hs.ne_of_spelling rfl)
      | cons u x =>
          obtain ⟨rfl, htail⟩ := List.cons.inj heq
          obtain ⟨y', hrow, rfl⟩ := window_left (hs.ne_of_spelling rfl) (ht.ne_of_spelling rfl) htail
          have hinner := @ih ha (pre ++ [.openParen]) (.closeParen :: post) _ _ hrow
          simpa only [List.append_assoc, List.cons_append, List.nil_append] using hinner
  | @pair d a b row row' hcut hcut' iha ihb =>
      intro pre post x y heq
      simp only [Operand.disambiguated, Bool.and_eq_true, Bool.not_eq_true'] at ha
      obtain ⟨⟨hneg, hda⟩, hdb⟩ := ha
      cases x with
      | nil => exact absurd (List.cons.inj heq).1 (hs.ne_of_spelling rfl)
      | cons u x =>
          obtain ⟨rfl, htail⟩ := List.cons.inj heq
          rcases window_cases (hs.ne_of_spelling (spelling_word d))
            (ht.ne_of_spelling (spelling_word d)) htail with
            ⟨y', hrow, rfl⟩ | ⟨hrow, -, hright⟩ | ⟨x', rfl, hright⟩
          · have hinner := @iha hda (pre ++ [.openParen])
              (d.word :: (row' ++ [.closeParen]) ++ post) _ _ hrow
            simpa only [List.append_assoc, List.cons_append, List.nil_append] using hinner
          · -- the window is the pair itself, up to its parentheses
            subst hrow
            rw [hcut.eq_nil_of_append hs hneg]
            obtain ⟨rest, rfl, rfl⟩ : ∃ rest, row' = t :: rest ∧ y = rest ++ [.closeParen] := by
              cases row' with
              | nil => exact absurd (List.cons.inj hright).1 (ht.ne_of_spelling rfl)
              | cons v rest =>
                  obtain ⟨rfl, hrest⟩ := List.cons.inj hright
                  exact ⟨rest, rfl, hrest.symm⟩
            rw [hcut'.eq_nil_of_cons ht]
            exact .inr ⟨pre, post, rfl, rfl⟩
          · obtain ⟨y', hrow, rfl⟩ :=
              window_left (hs.ne_of_spelling rfl) (ht.ne_of_spelling rfl) hright
            have hinner := @ihb hdb (pre ++ .openParen :: (row ++ [d.word])) (.closeParen :: post) _ _
              hrow
            simpa only [List.append_assoc, List.cons_append, List.nil_append] using hinner

theorem CutRight.framed {v : RightSide} {row : List Symbol} (h : CutRight v row)
    (hv : v.disambiguated) {c : Connective} {s t : Symbol} (hs : s.Ready) (ht : t.Ready)
    {pre post x y : List Symbol} (heq : row = x ++ s :: c.word :: t :: y) :
    Framed (pre ++ .asWord :: x) (y ++ .semicolon :: post) := by
  cases h with
  | folded =>
      have hlen := congrArg List.length heq
      simp at hlen
      omega
  | operand ha =>
      have hinner := @Cut.framed _ _ ha hv c _ _ hs ht (pre ++ [.asWord]) (.semicolon :: post) _ _ heq
      simpa only [List.append_assoc, List.cons_append, List.nil_append] using hinner
  | @plain d a b row row' ha hb =>
      simp only [RightSide.disambiguated, Bool.and_eq_true, Bool.not_eq_true'] at hv
      obtain ⟨⟨hneg, hda⟩, hdb⟩ := hv
      rcases window_cases (hs.ne_of_spelling (spelling_word d))
        (ht.ne_of_spelling (spelling_word d)) heq with
        ⟨y', hrow, rfl⟩ | ⟨hrow, -, hright⟩ | ⟨x', rfl, hright⟩
      · have hinner := @Cut.framed _ _ ha hda c _ _ hs ht (pre ++ [.asWord])
          (d.word :: row' ++ .semicolon :: post) _ _ hrow
        simpa only [List.append_assoc, List.cons_append, List.nil_append] using hinner
      · subst hrow hright
        rw [ha.eq_nil_of_append hs hneg, hb.eq_nil_of_cons ht]
        exact .inl ⟨pre, post, rfl, rfl⟩
      · have hinner := @Cut.framed _ _ hb hdb c _ _ hs ht (pre ++ .asWord :: (row ++ [d.word]))
          (.semicolon :: post) _ _ hright
        simpa only [List.append_assoc, List.cons_append, List.nil_append] using hinner

theorem CutStatement.framed {st : Statement} {row : List Symbol} (h : CutStatement st row)
    (hst : st.disambiguated) {c : Connective} {s t : Symbol} (hs : s.Ready) (ht : t.Ready)
    {pre post x y : List Symbol} (heq : row = x ++ s :: c.word :: t :: y) :
    Framed (pre ++ x) (y ++ post) := by
  cases h with
  | folded =>
      have hlen := congrArg List.length heq
      simp at hlen
      omega
  | @spelled row row' htarget hvalue =>
      cases x with
      | nil => exact absurd (List.cons.inj heq).1 (hs.ne_of_spelling rfl)
      | cons u x =>
          obtain ⟨rfl, htail⟩ := List.cons.inj heq
          rcases window_cases (hs.ne_of_spelling rfl) (ht.ne_of_spelling rfl) htail with
            ⟨y', hrow, rfl⟩ | ⟨-, hk, -⟩ | ⟨x', rfl, hright⟩
          · have hinner := @Cut.framed _ _ htarget rfl c _ _ hs ht (pre ++ [.defWord])
              (.asWord :: (row' ++ [.semicolon]) ++ post) _ _ hrow
            simpa only [List.append_assoc, List.cons_append, List.nil_append] using hinner
          · cases c <;> cases hk
          · obtain ⟨y', hrow, rfl⟩ :=
              window_left (hs.ne_of_spelling rfl) (ht.ne_of_spelling rfl) hright
            have hinner := @CutRight.framed _ _ hvalue hst c _ _ hs ht (pre ++ .defWord :: row) post
              _ _ hrow
            simpa only [List.append_assoc, List.cons_append, List.nil_append] using hinner

/-- A statement ends in a symbol that is no part of an operand. -/
theorem CutStatement.eq_append {st : Statement} {row : List Symbol} (h : CutStatement st row) :
    ∃ front e, row = front ++ [e] ∧ (e = .statement ∨ e = .semicolon) := by
  cases h with
  | folded => exact ⟨[], .statement, rfl, .inl rfl⟩
  | @spelled row row' htarget hvalue =>
      exact ⟨.defWord :: (row ++ .asWord :: row'), .semicolon, by simp, .inr rfl⟩

/-- **Two operands with a connective stand between `as` and a semicolon, or in parentheses.** -/
theorem CutProgram.framed {row : List Symbol} (h : CutProgram row) {c : Connective} {s t : Symbol}
    (hs : s.Ready) (ht : t.Ready) :
    ∀ {pre x y : List Symbol}, row = x ++ s :: c.word :: t :: y → Framed (pre ++ x) y := by
  induction h with
  | nil => intro pre x y heq; cases x <;> cases heq
  | @block rest hrest ih =>
      intro pre x y heq
      cases x with
      | nil =>
          obtain ⟨rfl, -⟩ := List.cons.inj heq
          rcases hs with hs | hs <;> cases hs
      | cons u x =>
          obtain ⟨rfl, htail⟩ := List.cons.inj heq
          have hinner := @ih (pre ++ [.codeBlock]) _ _ htail
          simpa only [List.append_assoc, List.cons_append, List.nil_append] using hinner
  | @statement st row rest hst hrow hrest ih =>
      intro pre x y heq
      obtain ⟨front, e, rfl, he⟩ := hrow.eq_append
      have hne : ∀ {u : Symbol}, u.Ready → e ≠ u := by
        rintro u hu rfl
        rcases he with rfl | rfl <;> rcases hu with hu | hu <;> cases hu
      rw [List.append_assoc, List.singleton_append] at heq
      rcases window_cases (hne hs) (hne ht) heq with ⟨y', rfl, rfl⟩ | ⟨-, hk, -⟩ | ⟨x', rfl, hright⟩
      · have hinner := @CutStatement.framed _ _ hrow hst c _ _ hs ht pre rest x (y' ++ [e]) (by simp)
        simpa only [List.append_assoc, List.cons_append, List.nil_append] using hinner
      · rcases he with rfl | rfl <;> cases c <;> cases hk
      · have hinner := @ih (pre ++ front ++ [e]) _ _ hright
        simpa only [List.append_assoc, List.cons_append, List.nil_append] using hinner

/-! ## 2. Settled rows -/

/-- No frame of the row has two symbols or more. -/
def NoWide (row : List Symbol) : Prop :=
  ∀ b frame a p, Grammar.standard.IsFrame row b frame a p → frame.length ≤ 1

/-- Every statement is folded, or all of it is but for a last step. -/
inductive Settled : List Symbol → Prop
  | nil : Settled []
  | block {rest : List Symbol} (hrest : Settled rest) : Settled (.codeBlock :: rest)
  | statement {rest : List Symbol} (hrest : Settled rest) : Settled (.statement :: rest)
  | operand {rest : List Symbol} (hrest : Settled rest) :
      Settled (.defWord :: .valVar :: .asWord :: .operand :: .semicolon :: rest)

theorem NoWide.length_le {row pre frame post : List Symbol} {p : Production} (h : NoWide row)
    (hframe : Grammar.StandardFrame frame p) (hrow : row = pre ++ frame ++ post) :
    frame.length ≤ 1 :=
  h pre frame post p ⟨hrow, Grammar.lookup_standard_iff.mpr hframe⟩

/-- Without wide frames and raw identifiers, an operand is folded. -/
theorem Cut.exists_ready {a : Operand} {part row : List Symbol} (h : Cut a part) (hwide : NoWide row)
    (hraw : .identifier ∉ row) :
    ∀ {pre post : List Symbol}, row = pre ++ part ++ post → ∃ s : Symbol, s.Ready ∧ part = [s] := by
  induction h with
  | bound => exact fun _ => ⟨_, .inr rfl, rfl⟩
  | folded => exact fun _ => ⟨_, .inl rfl, rfl⟩
  | raw => intro pre post hrow; rw [hrow] at hraw; simp at hraw
  | declaration => intro pre post hrow; rw [hrow] at hraw; simp at hraw
  | @not a part hcut ih =>
      intro pre post hrow
      obtain ⟨s, hs, rfl⟩ := @ih (pre ++ [.notWord]) post (by simp [hrow])
      have hlen : 2 ≤ 1 := hwide.length_le (.negate hs) hrow
      exact absurd hlen (by decide)
  | @group a part hcut ih =>
      intro pre post hrow
      obtain ⟨s, hs, rfl⟩ := @ih (pre ++ [.openParen]) (.closeParen :: post) (by simp [hrow])
      have hlen : 3 ≤ 1 := hwide.length_le (.group hs) hrow
      exact absurd hlen (by decide)
  | @pair c a b part part' hcut hcut' iha ihb =>
      intro pre post hrow
      obtain ⟨s, hs, rfl⟩ := @iha (pre ++ [.openParen]) (c.word :: (part' ++ .closeParen :: post))
        (by simp [hrow])
      obtain ⟨t, ht, rfl⟩ := @ihb (pre ++ [.openParen, s, c.word]) (.closeParen :: post)
        (by simp [hrow])
      have hlen : 5 ≤ 1 := hwide.length_le (.pair c hs ht) hrow
      exact absurd hlen (by decide)

/-- Without wide frames and raw identifiers, a statement is folded, or only its operand is to be
lifted. -/
theorem CutStatement.settled {st : Statement} {part row rest : List Symbol}
    (h : CutStatement st part) (hwide : NoWide row) (hraw : .identifier ∉ row)
    {pre post : List Symbol} (hrow : row = pre ++ part ++ post) (hrest : Settled rest) :
    Settled (part ++ rest) := by
  obtain ⟨x, v⟩ := st
  cases h with
  | folded => exact .statement hrest
  | @spelled target value htarget hvalue =>
      obtain ⟨s, hs, rfl⟩ := @Cut.exists_ready _ _ _ htarget hwide hraw (pre ++ [.defWord])
        (.asWord :: (value ++ .semicolon :: post)) (by simp [hrow])
      have htarget : s = .valVar := by
        cases htarget with
        | bound => rfl
        | folded ha => exact absurd rfl (ha _)
        | raw => rcases hs with hs | hs <;> cases hs
      subst htarget
      cases hvalue with
      | folded =>
          have hlen : 5 ≤ 1 := hwide.length_le (.assign (.inl rfl)) hrow
          exact absurd hlen (by decide)
      | operand ha =>
          obtain ⟨s, hs, rfl⟩ := @Cut.exists_ready _ _ _ ha hwide hraw
            (pre ++ [.defWord, .valVar, .asWord]) (.semicolon :: post) (by simp [hrow])
          rcases hs with rfl | rfl
          · exact .operand hrest
          · have hlen : 5 ≤ 1 := hwide.length_le (.assign (.inr rfl)) hrow
            exact absurd hlen (by decide)
      | @plain c a b left right ha hb =>
          obtain ⟨s, hs, rfl⟩ := @Cut.exists_ready _ _ _ ha hwide hraw
            (pre ++ [.defWord, .valVar, .asWord]) (c.word :: (right ++ .semicolon :: post))
            (by simp [hrow])
          obtain ⟨t, ht, rfl⟩ := @Cut.exists_ready _ _ _ hb hwide hraw
            (pre ++ [.defWord, .valVar, .asWord, s, c.word]) (.semicolon :: post) (by simp [hrow])
          have hlen : 3 ≤ 1 := @NoWide.length_le _ (pre ++ [.defWord, .valVar, .asWord]) _
            (.semicolon :: post) _ hwide (.plain c hs ht) (by simp [hrow])
          exact absurd hlen (by decide)

/-- **Where no frame has two symbols or more, a cut program is settled.** -/
theorem CutProgram.settled {part row : List Symbol} (h : CutProgram part) (hwide : NoWide row)
    (hraw : .identifier ∉ row) : ∀ {pre : List Symbol}, row = pre ++ part → Settled part := by
  induction h with
  | nil => exact fun _ => .nil
  | @block rest hrest ih =>
      intro pre hrow
      exact .block (@ih (pre ++ [.codeBlock]) (by simp [hrow]))
  | @statement st part rest hst hpart hrest ih =>
      intro pre hrow
      exact hpart.settled hwide hraw (by rw [hrow, List.append_assoc])
        (@ih (pre ++ part) (by simp [hrow]))

/-- An operand in a settled row is a whole right-hand side. -/
theorem Settled.operand_between {row : List Symbol} (h : Settled row) :
    ∀ {pre x y : List Symbol}, row = x ++ .operand :: y →
      ∃ b a, pre ++ x = b ++ [.asWord] ∧ y = .semicolon :: a := by
  induction h with
  | nil => intro pre x y heq; cases x <;> cases heq
  | @block rest hrest ih =>
      intro pre x y heq
      cases x with
      | nil => cases heq
      | cons u x =>
          obtain ⟨rfl, htail⟩ := List.cons.inj heq
          obtain ⟨b, a, hb, ha⟩ := @ih (pre ++ [.codeBlock]) _ _ htail
          exact ⟨b, a, by rw [← hb, List.append_assoc]; rfl, ha⟩
  | @statement rest hrest ih =>
      intro pre x y heq
      cases x with
      | nil => cases heq
      | cons u x =>
          obtain ⟨rfl, htail⟩ := List.cons.inj heq
          obtain ⟨b, a, hb, ha⟩ := @ih (pre ++ [.statement]) _ _ htail
          exact ⟨b, a, by rw [← hb, List.append_assoc]; rfl, ha⟩
  | @operand rest hrest ih =>
      intro pre x y heq
      match x, heq with
      | [.defWord, .valVar, .asWord], heq =>
          cases heq
          exact ⟨pre ++ [.defWord, .valVar], rest, by simp, rfl⟩
      | .defWord :: .valVar :: .asWord :: .operand :: .semicolon :: x, heq =>
          have htail : rest = x ++ .operand :: y := by simpa using heq
          obtain ⟨b, a, hb, ha⟩ :=
            @ih (pre ++ [.defWord, .valVar, .asWord, .operand, .semicolon]) _ _ htail
          exact ⟨b, a, by rw [← hb, List.append_assoc]; rfl, ha⟩

/-- A settled row without any frame is at most one symbol. -/
theorem Settled.length_le {row : List Symbol} (h : Settled row)
    (hnone : Grammar.standard.find row = none) : row.length ≤ 1 := by
  have hframe : ∀ {pre frame post : List Symbol} {p : Production},
      Grammar.StandardFrame frame p → row ≠ pre ++ frame ++ post := by
    intro pre frame post p hframe hrow
    exact Grammar.find_eq_none hnone ⟨hrow, Grammar.lookup_standard_iff.mpr hframe⟩
  cases h with
  | nil => exact Nat.zero_le 1
  | statement => exact absurd rfl (@hframe [] _ _ _ .single)
  | operand => exact absurd rfl (@hframe [.defWord, .valVar, .asWord] _ _ _ .lift)
  | block hrest =>
      cases hrest with
      | nil => exact Nat.le_refl 1
      | block => exact absurd rfl (@hframe [] _ _ _ .block)
      | statement => exact absurd rfl (@hframe [.codeBlock] _ _ _ .single)
      | operand => exact absurd rfl (@hframe [.codeBlock, .defWord, .valVar, .asWord] _ _ _ .lift)

end Trivalent
