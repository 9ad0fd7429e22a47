import Trivalent.Proofs.Parse.Reading

/-!
# Programs that are half reduced

In the middle of a parse a row is a program in which some parts are folded to one symbol and the
others are still spelled out. Which part a symbol of the row belongs to is not written anywhere, but
the tokens below the row and two facts about neighbours settle it.

* `Operand.disambiguated` and its companions -- no connective has a bare negation on its left;
* `Cut`, `CutRight`, `CutStatement`, `CutProgram` -- the rows that come from a program when some of
  its parts are folded;
* `Symbol.firsts`, `Shaped.first` -- what the tokens below a symbol start with;
* `Linked` -- an expression stands between `as` and a semicolon, and `val` before an identifier;
* `Behind` -- what is left of a row behind one of its symbols, and the tokens below it;
  `Behind.over_token`, `Starts.then_word` -- a token is stepped over, and a part with a word behind
  it;
* `CutProgram.of_unparse` -- **a linked row with the tokens of a program is that program, cut.** The
  proof goes along the program from left to right, as its tokens can be read in one way only.
-/

namespace Trivalent

open Trivalent.Derivation

/-! ## 1. Negations on the left -/

/-- Whether an operand is a negation without parentheses around it. -/
def Operand.isNegation : Operand → Bool
  | not _ => true
  | _ => false

/-- No connective in the operand has a bare negation on its left. -/
def Operand.disambiguated : Operand → Bool
  | constant _ => true
  | var _ => true
  | not a => a.disambiguated
  | group a => a.disambiguated
  | pair _ a b => !a.isNegation && a.disambiguated && b.disambiguated

/-- No connective in the right-hand side has a bare negation on its left. -/
def RightSide.disambiguated : RightSide → Bool
  | operand a => a.disambiguated
  | plain _ a b => !a.isNegation && a.disambiguated && b.disambiguated

/-- No connective in the statement has a bare negation on its left. -/
def Statement.disambiguated (s : Statement) : Bool := s.value.disambiguated

/-! ## 2. Cut programs -/

/-- The symbols of an operand in which some parts are folded. -/
inductive Cut : Operand → List Symbol → Prop
  | bound (x : Occurrence) : Cut (.var x) [.valVar]
  | folded {a : Operand} (ha : ∀ x, a ≠ .var x) : Cut a [.operand]
  | raw (name : String) : Cut (.var ⟨name, false⟩) [.identifier]
  | declaration (name : String) : Cut (.var ⟨name, true⟩) [.valWord, .identifier]
  | not {a : Operand} {row : List Symbol} (ha : Cut a row) : Cut (.not a) (.notWord :: row)
  | group {a : Operand} {row : List Symbol} (ha : Cut a row) :
      Cut (.group a) (.openParen :: (row ++ [.closeParen]))
  | pair (c : Connective) {a b : Operand} {row row' : List Symbol} (ha : Cut a row)
      (hb : Cut b row') : Cut (.pair c a b) (.openParen :: (row ++ c.word :: (row' ++ [.closeParen])))

/-- The symbols of a right-hand side in which some parts are folded. -/
inductive CutRight : RightSide → List Symbol → Prop
  | folded (r : RightSide) : CutRight r [.expression]
  | operand {a : Operand} {row : List Symbol} (ha : Cut a row) : CutRight (.operand a) row
  | plain (c : Connective) {a b : Operand} {row row' : List Symbol} (ha : Cut a row)
      (hb : Cut b row') : CutRight (.plain c a b) (row ++ c.word :: row')

/-- The symbols of a statement in which some parts are folded. -/
inductive CutStatement : Statement → List Symbol → Prop
  | folded (s : Statement) : CutStatement s [.statement]
  | spelled {s : Statement} {row row' : List Symbol} (ht : Cut (.var s.target) row)
      (hv : CutRight s.value row') :
      CutStatement s (.defWord :: (row ++ .asWord :: (row' ++ [.semicolon])))

/-- The symbols of statements in which some parts are folded, some of the statements to blocks. -/
inductive CutProgram : List Symbol → Prop
  | nil : CutProgram []
  | block {rest : List Symbol} (hrest : CutProgram rest) : CutProgram (.codeBlock :: rest)
  | statement {s : Statement} {row rest : List Symbol} (hs : s.disambiguated)
      (hrow : CutStatement s row) (hrest : CutProgram rest) : CutProgram (row ++ rest)

/-! ## 3. First tokens -/

/-- The symbols that the tokens below a symbol can start with. -/
def Symbol.firsts : Symbol → List Symbol
  | .codeBlock => [.defWord]
  | .statement => [.defWord]
  | .valVar => [.valWord, .identifier]
  | .operand => [.operand, .notWord, .openParen]
  | .expression => [.operand, .notWord, .openParen, .valWord, .identifier]
  | s => [s]

theorem Symbol.Ready.mem_firsts {s t : Symbol} (hs : s.Ready) (h : t ∈ s.firsts) :
    t ∈ Symbol.expression.firsts := by
  rcases hs with rfl | rfl
  · simp only [firsts, List.mem_cons, List.not_mem_nil, or_false] at h ⊢
    rcases h with rfl | rfl | rfl <;> simp
  · simp only [firsts, List.mem_cons, List.not_mem_nil, or_false] at h ⊢
    rcases h with rfl | rfl <;> simp

/-- A folded node starts with what the first part of its window starts with. -/
theorem Folds.mem_firsts {next : NodeId} {window : List Derivation} {new : Derivation}
    (h : Folds next window new) :
    ∃ d rest, window = d :: rest ∧ ∀ s ∈ d.symbol.firsts, s ∈ new.symbol.firsts := by
  cases h with
  | block hl hr => exact ⟨_, _, rfl, fun s h => by rw [hl] at h; exact h⟩
  | single hs => exact ⟨_, _, rfl, fun s h => by rw [hs] at h; exact h⟩
  | assign hk hv ha hr he => exact ⟨_, _, rfl, fun s h => by rw [hk] at h; exact h⟩
  | declare hk hi =>
      refine ⟨_, _, rfl, fun s h => ?_⟩
      rw [hk] at h
      rw [List.mem_singleton.mp h]
      exact List.mem_cons_self
  | negate hk ha =>
      refine ⟨_, _, rfl, fun s h => ?_⟩
      rw [hk] at h
      rw [List.mem_singleton.mp h]
      exact List.mem_cons_of_mem _ List.mem_cons_self
  | group ho ha he =>
      refine ⟨_, _, rfl, fun s h => ?_⟩
      rw [ho] at h
      rw [List.mem_singleton.mp h]
      exact List.mem_cons_of_mem _ (List.mem_cons_of_mem _ List.mem_cons_self)
  | lift ha => exact ⟨_, _, rfl, fun s h => Symbol.Ready.mem_firsts (.inl ha) h⟩
  | plain c ha hk hb => exact ⟨_, _, rfl, fun s h => ha.mem_firsts h⟩
  | pair c ho ha hk hb he =>
      refine ⟨_, _, rfl, fun s h => ?_⟩
      rw [ho] at h
      rw [List.mem_singleton.mp h]
      exact List.mem_cons_of_mem _ (List.mem_cons_of_mem _ List.mem_cons_self)

/-- **What the tokens below a node start with.** -/
theorem Shaped.first {d : Derivation} (h : Shaped d) :
    ∃ l rest, d.unparse = l :: rest ∧ l.symbol ∈ d.symbol.firsts := by
  induction h with
  | @token id node l lexeme genuine =>
      have hsymbol := (Node.lexeme?_eq_some lexeme).1
      refine ⟨l, [], by rw [unparse, lexeme]; rfl, ?_⟩
      rw [symbol_leaf, hsymbol]
      by_cases hfolded : l.symbol.isFolded = true
      · rw [genuine.symbol_eq_operand hfolded]
        exact List.mem_cons_self
      · cases hs : l.symbol with
        | codeBlock => rw [hs] at hfolded; exact absurd rfl hfolded
        | statement => rw [hs] at hfolded; exact absurd rfl hfolded
        | valVar => rw [hs] at hfolded; exact absurd rfl hfolded
        | operand => rw [hs] at hfolded; exact absurd rfl hfolded
        | expression => rw [hs] at hfolded; exact absurd rfl hfolded
        | _ => exact List.mem_cons_self
  | @occurrence id i name raw child ih =>
      have hsymbol := symbol_of_isIdentifier raw
      obtain ⟨l, rest, hl, hfirst⟩ := ih
      rw [hsymbol] at hfirst
      refine ⟨l, rest, (unparse_occurrence id i).trans hl, ?_⟩
      rw [List.mem_singleton.mp hfirst]
      exact List.mem_cons_of_mem _ List.mem_cons_self
  | folded fold parts ih =>
      obtain ⟨d, rest, rfl, hfirsts⟩ := fold.mem_firsts
      obtain ⟨l, tail, hl, hfirst⟩ := ih d List.mem_cons_self
      refine ⟨l, tail ++ rest.flatMap unparse, ?_, hfirsts _ hfirst⟩
      rw [fold.unparse_eq parts, List.flatMap_cons, hl]
      rfl

/-! ## 4. Neighbours -/

/-- What may stand side by side: an expression comes after `as` and before a semicolon, and `val`
comes before an identifier. -/
structure Adjacent (s t : Symbol) : Prop where
  before : t = .expression → s = .asWord
  after : s = .expression → t = .semicolon
  declared : s = .valWord → t = .identifier

/-- Neighbours fit together along a row that has `prev` before it. -/
def Linked : Symbol → List Symbol → Prop
  | _, [] => True
  | prev, s :: rest => Adjacent prev s ∧ Linked s rest

theorem linked_append {prev : Symbol} {xs ys : List Symbol} :
    Linked prev (xs ++ ys) ↔ Linked prev xs ∧ Linked (xs.getLastD prev) ys := by
  induction xs generalizing prev with
  | nil => exact ⟨fun h => ⟨trivial, h⟩, fun h => h.2⟩
  | cons x xs ih =>
      rw [List.getLastD_cons]
      show Adjacent prev x ∧ Linked x (xs ++ ys) ↔ (Adjacent prev x ∧ Linked x xs) ∧ _
      rw [ih, and_assoc]

/-! ## 5. Rows behind a symbol -/

/-- The words that only stand behind something. -/
def Symbol.inner : List Symbol := [.asWord, .andWord, .orWord, .closeParen, .semicolon]

/-- They are spelled out wherever their tokens are, for no folded symbol starts with them. -/
theorem Symbol.eq_of_mem_firsts {s t : Symbol} (hs : s ∈ inner) (h : s ∈ t.firsts) : t = s := by
  have hall : ∀ s ∈ inner, ∀ t ∈ all, s ∈ t.firsts → t = s := by decide
  exact hall s hs t t.mem_all h

theorem Symbol.isSome_of_mem_inner {s : Symbol} (hs : s ∈ inner) : s.spelling?.isSome := by
  have hall : ∀ s ∈ inner, s.spelling?.isSome := by decide
  exact hall s hs

theorem Connective.word_mem_inner (c : Connective) : c.word ∈ Symbol.inner := by
  cases c <;> decide

/-- Behind `prev` stands a row with the tokens `r`. -/
structure Behind (prev : Symbol) (row : List Derivation) (r : List Lexeme) : Prop where
  shaped : ∀ d ∈ row, Shaped d
  linked : Linked prev (row.map symbol)
  unparse_eq : row.flatMap unparse = r

/-- A row starts with a part whose symbols are as `P` says, and what stands behind that part has the
tokens `r`. -/
def Starts (P : List Symbol → Prop) (row : List Derivation) (r : List Lexeme) : Prop :=
  ∃ part rest last, row = part ++ rest ∧ P (part.map symbol) ∧ Behind last rest r

section Behind

variable {prev s : Symbol} {d : Derivation} {row rest : List Derivation} {l : Lexeme}
  {ls r : List Lexeme}

theorem Behind.head (h : Behind prev (d :: rest) r) : Shaped d := h.shaped d List.mem_cons_self

theorem Behind.unparse_cons (h : Behind prev (d :: rest) r) :
    d.unparse ++ rest.flatMap unparse = r :=
  List.flatMap_cons.symm.trans h.unparse_eq

theorem Behind.tail (h : Behind prev (d :: rest) ls) (hr : rest.flatMap unparse = r) :
    Behind d.symbol rest r where
  shaped e he := h.shaped e (List.mem_cons_of_mem _ he)
  linked := h.linked.2
  unparse_eq := hr

theorem Behind.mem_firsts (h : Behind prev (d :: rest) (l :: r)) :
    l.symbol ∈ d.symbol.firsts := by
  obtain ⟨m, tail, hm, hfirst⟩ := h.head.first
  have hcons := h.unparse_cons
  rw [hm] at hcons
  rw [← (List.cons.inj hcons).1]
  exact hfirst

/-- A node with one token is stepped over. -/
theorem Behind.over_token {m : Lexeme} (h : Behind prev (d :: rest) (l :: r))
    (hm : d.unparse = [m]) : Behind d.symbol rest r := by
  have hcons := h.unparse_cons
  rw [hm] at hcons
  exact h.tail (List.cons.inj hcons).2

theorem Behind.over_word (h : Behind prev (d :: rest) (.ofWord s :: r)) (hs : d.symbol = s)
    (hspelled : s.spelling?.isSome) : Behind s rest r := by
  have hrest := h.over_token (h.head.unparse_word (by rw [hs]; exact hspelled))
  rw [hs] at hrest
  exact hrest

theorem Behind.over_name (h : Behind prev (d :: rest) (l :: r)) (hs : d.symbol = .identifier) :
    Behind d.symbol rest r := by
  obtain ⟨id, node, text, rfl, hlexeme⟩ := h.head.unparse_identifier hs
  exact h.over_token (by rw [unparse, hlexeme]; rfl)

theorem Behind.exists_word (h : Behind prev row (.ofWord s :: r)) (hs : s ∈ Symbol.inner) :
    ∃ k rest, row = k :: rest ∧ k.symbol = s ∧ Behind s rest r := by
  cases row with
  | nil => cases h.unparse_eq
  | cons k rest =>
      have hk := Symbol.eq_of_mem_firsts hs h.mem_firsts
      exact ⟨k, rest, rfl, hk, h.over_word hk (Symbol.isSome_of_mem_inner hs)⟩

/-- A part and the word behind it. -/
theorem Starts.then_word {P : List Symbol → Prop} (h : Starts P row (.ofWord s :: r))
    (hs : s ∈ Symbol.inner) :
    ∃ part k rest, row = part ++ k :: rest ∧ P (part.map symbol) ∧ k.symbol = s
      ∧ Behind s rest r := by
  obtain ⟨part, rest, last, rfl, hpart, hrest⟩ := h
  obtain ⟨k, rest, rfl, hk, hbehind⟩ := hrest.exists_word hs
  exact ⟨part, k, rest, rfl, hpart, hk, hbehind⟩

end Behind

/-! ## 6. Rows with the tokens of a program -/

theorem Operand.opening_mem (a : Operand) : a.opening ∈ Symbol.expression.firsts := by
  cases a with
  | var x => obtain ⟨name, _ | _⟩ := x <;> simp [opening, Symbol.firsts]
  | _ => simp [opening, Symbol.firsts]

/-- A folded operand or variable at the start of the tokens of an operand is that operand. -/
theorem Cut.of_ready {a : Operand} {prev : Symbol} {d : Derivation} {rest : List Derivation}
    {r : List Lexeme} (h : Behind prev (d :: rest) (a.lexemes ++ r)) (hs : d.symbol.Ready) :
    Starts (Cut a) (d :: rest) r := by
  have hcons := h.unparse_cons
  obtain ⟨l, tail, hl, hfirst⟩ := h.head.first
  rcases hs with hs | hs
  · obtain ⟨b, -, hb⟩ := h.head.readOperand (.inl hs)
    rw [hb] at hcons hl
    obtain ⟨rfl, hrest⟩ := Operand.lexemes_append_inj hcons
    refine ⟨[d], rest, _, rfl, ?_, h.tail hrest⟩
    rw [List.map_singleton, hs]
    rw [hs] at hfirst
    refine .folded ?_
    rintro ⟨name, declared⟩ rfl
    cases declared <;> (cases hl; simp [Lexeme.ofWord, Lexeme.ofName, Symbol.firsts] at hfirst)
  · obtain ⟨x, -, hx⟩ := h.head.readOccurrence hs
    rw [hx] at hcons
    obtain ⟨rfl, hrest⟩ := @Operand.lexemes_append_inj (.var x) a _ _ hcons
    refine ⟨[d], rest, _, rfl, ?_, h.tail hrest⟩
    rw [List.map_singleton, hs]
    exact .bound x

/-- The tokens of an operand are folded to one node, or the first of them is spelled out. -/
theorem Behind.first {a : Operand} {prev : Symbol} {row : List Derivation} {r : List Lexeme}
    (h : Behind prev row (a.lexemes ++ r)) (hprev : prev ≠ .asWord) :
    Starts (Cut a) row r
      ∨ ∃ d rest, row = d :: rest ∧ d.symbol = a.opening ∧ a.opening.isFolded = false := by
  obtain ⟨m, more, ha, hm⟩ := a.lexemes_eq_cons
  cases row with
  | nil =>
      rw [ha] at h
      cases h.unparse_eq
  | cons d rest =>
      by_cases hready : d.symbol.Ready
      · exact .inl (Cut.of_ready h hready)
      · have hopening : a.opening ∈ d.symbol.firsts := by
          rw [ha] at h
          rw [← hm]
          exact h.mem_firsts
        have hmem := a.opening_mem
        refine .inr ⟨d, rest, rfl, ?_⟩
        cases hs : d.symbol with
        | codeBlock =>
            rw [hs] at hopening
            rw [List.mem_singleton.mp hopening] at hmem
            exact absurd hmem (by decide)
        | statement =>
            rw [hs] at hopening
            rw [List.mem_singleton.mp hopening] at hmem
            exact absurd hmem (by decide)
        | valVar => exact absurd (.inr hs) hready
        | operand => exact absurd (.inl hs) hready
        | expression => exact absurd (h.linked.1.before hs) hprev
        | _ =>
            rw [hs] at hopening
            rw [List.mem_singleton.mp hopening]
            exact ⟨rfl, rfl⟩

/-- An occurrence that is spelled out at the start of a row. -/
theorem Cut.of_spelled {x : Occurrence} {prev : Symbol} {d : Derivation} {rest : List Derivation}
    {r : List Lexeme} (h : Behind prev (d :: rest) (x.lexemes ++ r))
    (hs : d.symbol = (Operand.var x).opening) : Starts (Cut (.var x)) (d :: rest) r := by
  obtain ⟨name, declared⟩ := x
  cases declared with
  | false =>
      have hs : d.symbol = .identifier := hs
      refine ⟨[d], rest, _, rfl, ?_, h.over_name hs⟩
      rw [List.map_singleton, hs]
      exact .raw name
  | true =>
      have hs : d.symbol = .valWord := hs
      have hname : Behind .valWord rest (.ofName name :: r) := h.over_word hs rfl
      cases rest with
      | nil => cases hname.unparse_eq
      | cons i rest =>
          have hi : i.symbol = .identifier := hname.linked.1.declared rfl
          refine ⟨[d, i], rest, _, rfl, ?_, hname.over_name hi⟩
          rw [List.map_cons, List.map_singleton, hs, hi]
          exact .declaration name

/-- The tokens of an operand at the start of a row, unless an expression stands there. -/
theorem Cut.of_unparse {a : Operand} {prev : Symbol} {row : List Derivation} {r : List Lexeme}
    (h : Behind prev row (a.lexemes ++ r)) (hprev : prev ≠ .asWord) : Starts (Cut a) row r := by
  induction a generalizing prev row r with
  | constant c =>
      rcases h.first hprev with hfolded | ⟨d, rest, rfl, hs, hspelled⟩
      · exact hfolded
      · cases hspelled
  | var x =>
      rcases h.first hprev with hfolded | ⟨d, rest, rfl, hs, -⟩
      · exact hfolded
      · exact Cut.of_spelled h hs
  | not a ih =>
      rcases h.first hprev with hfolded | ⟨d, rest, rfl, hs, -⟩
      · exact hfolded
      · have hs : d.symbol = .notWord := hs
        obtain ⟨part, rest, last, rfl, hcut, hrest⟩ := ih (h.over_word hs rfl) (by decide)
        refine ⟨d :: part, rest, last, rfl, ?_, hrest⟩
        rw [List.map_cons, hs]
        exact .not hcut
  | group a ih =>
      rcases h.first hprev with hfolded | ⟨d, rest, rfl, hs, -⟩
      · exact hfolded
      · have hs : d.symbol = .openParen := hs
        rw [Operand.lexemes, List.cons_append, List.append_assoc] at h
        obtain ⟨part, e, rest, rfl, hcut, he, hrest⟩ :=
          (ih (h.over_word hs rfl) (by decide)).then_word (by decide)
        refine ⟨d :: (part ++ [e]), rest, _, by simp, ?_, hrest⟩
        rw [List.map_cons, List.map_append, List.map_singleton, hs, he]
        exact .group hcut
  | pair c a b iha ihb =>
      rcases h.first hprev with hfolded | ⟨d, rest, rfl, hs, -⟩
      · exact hfolded
      · have hs : d.symbol = .openParen := hs
        rw [Operand.lexemes, List.cons_append, List.append_assoc, List.cons_append,
          List.append_assoc] at h
        obtain ⟨left, k, row, rfl, hleft, hk, hword⟩ :=
          (iha (h.over_word hs rfl) (by decide)).then_word c.word_mem_inner
        obtain ⟨right, e, rest, rfl, hright, he, hrest⟩ :=
          (ihb hword (by cases c <;> decide)).then_word (by decide)
        refine ⟨d :: (left ++ k :: (right ++ [e])), rest, _, by simp, ?_, hrest⟩
        simp only [List.map_cons, List.map_append, List.map_nil, hs, hk, he]
        exact .pair c hleft hright

/-- The tokens of a right-hand side, up to its semicolon, after `as`. -/
theorem CutRight.of_unparse {v : RightSide} {row : List Derivation} {r : List Lexeme}
    (h : Behind .asWord row (v.lexemes ++ .ofWord .semicolon :: r)) :
    Starts (CutRight v) row (.ofWord .semicolon :: r) := by
  cases row with
  | nil =>
      have hlen := congrArg List.length h.unparse_eq
      simp at hlen
  | cons d rest =>
      by_cases hs : d.symbol = .expression
      · -- a folded right-hand side: what comes after it is the semicolon
        obtain ⟨b, -, hb⟩ := h.head.readRightSide (.inl hs)
        have hcons := h.unparse_cons
        rw [hb] at hcons
        have hnext : ∀ c : Connective, (rest.flatMap unparse).head? ≠ some (.ofWord c.word) := by
          have hrest := h.tail rfl
          cases rest with
          | nil => exact fun c hc => by cases hc
          | cons e rest =>
              have he := hrest.linked.1.after hs
              rw [← hrest.unparse_cons, hrest.head.unparse_word (by rw [he]; rfl), he]
              exact fun c => c.head_semicolon_ne _
        obtain ⟨rfl, hrest⟩ :=
          RightSide.lexemes_append_inj hnext (fun c => c.head_semicolon_ne r) hcons
        refine ⟨[d], rest, _, rfl, ?_, h.tail hrest⟩
        rw [List.map_singleton, hs]
        exact .folded b
      · have hopen : Behind .openParen (d :: rest) (v.lexemes ++ .ofWord .semicolon :: r) :=
          ⟨h.shaped, ⟨⟨fun h => absurd h hs, nofun, nofun⟩, h.linked.2⟩, h.unparse_eq⟩
        cases v with
        | operand a =>
            obtain ⟨part, rest, last, hrow, hcut, hrest⟩ := Cut.of_unparse hopen (by decide)
            exact ⟨part, rest, last, hrow, .operand hcut, hrest⟩
        | plain c a b =>
            rw [RightSide.lexemes, List.append_assoc, List.cons_append] at hopen
            obtain ⟨left, k, row, hrow, hleft, hk, hword⟩ :=
              (Cut.of_unparse hopen (by decide)).then_word c.word_mem_inner
            obtain ⟨right, rest, last, rfl, hright, hrest⟩ :=
              Cut.of_unparse hword (by cases c <;> decide)
            refine ⟨left ++ k :: right, rest, last, by rw [hrow]; simp, ?_, hrest⟩
            rw [List.map_append, List.map_cons, hk]
            exact .plain c hleft hright

/-- The tokens of a statement at the start of a row, unless a block stands there. -/
theorem CutStatement.of_unparse {s : Statement} {prev : Symbol} {d : Derivation}
    {rest : List Derivation} {r : List Lexeme} (h : Behind prev (d :: rest) (s.lexemes ++ r))
    (hblock : d.symbol ≠ .codeBlock) : Starts (CutStatement s) (d :: rest) r := by
  have hfirst : .defWord ∈ d.symbol.firsts := h.mem_firsts
  cases hs : d.symbol with
  | statement =>
      obtain ⟨t, -, ht⟩ := h.head.readStatement hs
      have hcons := h.unparse_cons
      rw [ht] at hcons
      obtain ⟨rfl, hrest⟩ := Statement.lexemes_append_inj hcons
      refine ⟨[d], rest, _, rfl, ?_, h.tail hrest⟩
      rw [List.map_singleton, hs]
      exact .folded t
  | defWord =>
      rw [Statement.lexemes, List.cons_append, List.append_assoc, List.cons_append,
        List.append_assoc] at h
      obtain ⟨target, k, row, rfl, htarget, hk, has⟩ :=
        (@Cut.of_unparse (.var s.target) _ _ _ (h.over_word hs rfl) (by decide)).then_word
          (by decide)
      obtain ⟨value, e, rest, rfl, hvalue, he, hrest⟩ :=
        (CutRight.of_unparse has).then_word (by decide)
      refine ⟨d :: (target ++ k :: (value ++ [e])), rest, _, by simp, ?_, hrest⟩
      simp only [List.map_cons, List.map_append, List.map_nil, hs, hk, he]
      exact .spelled htarget hvalue
  | codeBlock => exact absurd hs hblock
  | _ => rw [hs] at hfirst; exact absurd hfirst (by decide)

theorem CutStatement.ne_nil {s : Statement} {row : List Symbol} (h : CutStatement s row) :
    row ≠ [] := by
  cases h with
  | folded => exact List.cons_ne_nil _ _
  | spelled ht hv => exact List.cons_ne_nil _ _

/-- Statements that start with the tokens of others start with these others. -/
theorem Statement.flatMap_lexemes_append {ts ss : List Statement} {r : List Lexeme}
    (h : ts.flatMap lexemes ++ r = ss.flatMap lexemes) :
    ∃ rest, ss = ts ++ rest ∧ r = rest.flatMap lexemes := by
  induction ts generalizing ss with
  | nil => exact ⟨ss, rfl, h⟩
  | cons t ts ih =>
      cases ss with
      | nil => cases h
      | cons s ss =>
          rw [List.flatMap_cons, List.flatMap_cons, List.append_assoc] at h
          obtain ⟨rfl, hrest⟩ := Statement.lexemes_append_inj h
          obtain ⟨rest, rfl, hr⟩ := ih hrest
          exact ⟨rest, rfl, hr⟩

/-- The tokens of statements, whatever their row stands behind. -/
theorem CutProgram.of_behind {ss : List Statement} {prev : Symbol} {row : List Derivation}
    (hss : ∀ s ∈ ss, s.disambiguated) (h : Behind prev row (ss.flatMap Statement.lexemes)) :
    CutProgram (row.map symbol) := by
  induction hlen : row.length using Nat.strongRecOn generalizing ss prev row with
  | ind n ih =>
      subst hlen
      cases row with
      | nil => exact .nil
      | cons d rest =>
          by_cases hs : d.symbol = .codeBlock
          · obtain ⟨ts, -, hts⟩ := h.head.readStatements hs
            have hcons := h.unparse_cons
            rw [hts] at hcons
            obtain ⟨others, rfl, hrest⟩ := Statement.flatMap_lexemes_append hcons
            rw [List.map_cons, hs]
            exact .block (ih _ (Nat.lt_succ_self _) (fun s hs => hss s (List.mem_append_right _ hs))
              (h.tail hrest) rfl)
          · cases ss with
            | nil =>
                obtain ⟨l, tail, hl, -⟩ := h.head.first
                have hcons := h.unparse_cons
                rw [hl] at hcons
                cases hcons
            | cons s ss =>
                rw [List.flatMap_cons] at h
                obtain ⟨part, more, last, hrow, hcut, hmore⟩ := CutStatement.of_unparse h hs
                have hpos : 0 < part.length :=
                  List.length_pos_iff.mpr (mt (congrArg (List.map symbol)) hcut.ne_nil)
                have hshorter : more.length < (d :: rest).length := by
                  rw [hrow, List.length_append]
                  omega
                rw [hrow, List.map_append]
                exact .statement (hss s List.mem_cons_self) hcut
                  (ih _ hshorter (fun t ht => hss t (List.mem_cons_of_mem _ ht)) hmore rfl)

/-- **A linked row with the tokens of a program is that program, cut.** -/
theorem CutProgram.of_unparse {ss : List Statement} {prev : Symbol} {row : List Derivation}
    (hss : ∀ s ∈ ss, s.disambiguated) (hshaped : ∀ d ∈ row, Shaped d)
    (hlinked : Linked prev (row.map symbol))
    (h : row.flatMap unparse = ss.flatMap Statement.lexemes) : CutProgram (row.map symbol) :=
  of_behind hss ⟨hshaped, hlinked, h⟩

end Trivalent
