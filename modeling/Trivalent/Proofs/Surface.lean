import Trivalent.Proofs.Grammar.Standard
import Trivalent.Proofs.Token.Lexeme

/-!
# Surface syntax

Programs as they are written, and the tokens they are written with.

* `Occurrence` -- a variable, with or without `val` before it;
* `Operand`, `RightSide`, `Statement`, `Program` -- what an operand, a right-hand side, a statement
  and a program can be. There is no precedence: a connective stands in parentheses, or alone in a
  right-hand side;
* `Program.lexemes` -- the tokens of a program;
* `Operand.lexemes_append_inj`, `Statement.lexemes_append_inj` -- tokens that start with an operand,
  or a statement, start with one only, and go on with the same tokens after it;
* `Program.lexemes_inj` -- **no two programs are written with the same tokens.**
-/

namespace Trivalent

/-! ## 1. Programs -/

/-- A variable as it is written: `x`, or `val x` where it is declared. -/
structure Occurrence where
  name : String
  declared : Bool
  deriving DecidableEq, Repr

/-- What may stand beside a connective. -/
inductive Operand where
  | constant (c : Constant)
  | var (x : Occurrence)
  | not (a : Operand)
  /-- An operand in parentheses. -/
  | group (a : Operand)
  /-- Two operands with a connective, in parentheses. -/
  | pair (c : Connective) (a b : Operand)
  deriving DecidableEq, Repr

/-- What a variable is given: an operand, or two with a connective and no parentheses. -/
inductive RightSide where
  | operand (a : Operand)
  | plain (c : Connective) (a b : Operand)
  deriving DecidableEq, Repr

/-- One assignment. -/
structure Statement where
  target : Occurrence
  value : RightSide
  deriving DecidableEq, Repr

/-- At least one statement. -/
structure Program where
  statements : List Statement
  nonempty : statements ≠ []
  deriving DecidableEq, Repr

/-! ## 2. Their tokens -/

/-- The tokens of a variable. -/
def Occurrence.lexemes (x : Occurrence) : List Lexeme :=
  if x.declared then [.ofWord .valWord, .ofName x.name] else [.ofName x.name]

/-- The tokens of an operand. -/
def Operand.lexemes : Operand → List Lexeme
  | constant c => [c.lexeme]
  | var x => x.lexemes
  | not a => .ofWord .notWord :: a.lexemes
  | group a => .ofWord .openParen :: (a.lexemes ++ [.ofWord .closeParen])
  | pair c a b =>
    .ofWord .openParen :: (a.lexemes ++ .ofWord c.word :: (b.lexemes ++ [.ofWord .closeParen]))

/-- The tokens of a right-hand side. -/
def RightSide.lexemes : RightSide → List Lexeme
  | operand a => a.lexemes
  | plain c a b => a.lexemes ++ .ofWord c.word :: b.lexemes

/-- The tokens of a statement. -/
def Statement.lexemes (s : Statement) : List Lexeme :=
  .ofWord .defWord :: (s.target.lexemes
    ++ .ofWord .asWord :: (s.value.lexemes ++ [.ofWord .semicolon]))

/-- The tokens of a program. -/
def Program.lexemes (p : Program) : List Lexeme := p.statements.flatMap Statement.lexemes

/-! ## 3. Tokens tell programs apart -/

/-- The symbol an operand starts with. -/
def Operand.opening : Operand → Symbol
  | constant _ => .operand
  | var x => if x.declared then .valWord else .identifier
  | not _ => .notWord
  | group _ => .openParen
  | pair _ _ _ => .openParen

theorem Constant.lexeme_inj {c d : Constant} (h : c.lexeme = d.lexeme) : c = d := by
  cases c with
  | certain b => cases d with
    | certain b' => cases b <;> cases b' <;> first | rfl | cases h
    | unsure => cases b <;> cases h
  | unsure => cases d with
    | certain b' => cases b' <;> cases h
    | unsure => rfl

theorem Operand.lexemes_eq_cons (a : Operand) :
    ∃ l rest, a.lexemes = l :: rest ∧ l.symbol = a.opening := by
  cases a with
  | constant c => exact ⟨_, _, rfl, c.symbol_lexeme⟩
  | var x =>
      obtain ⟨name, declared⟩ := x
      cases declared <;> exact ⟨_, _, rfl, rfl⟩
  | not a => exact ⟨_, _, rfl, rfl⟩
  | group a => exact ⟨_, _, rfl, rfl⟩
  | pair c a b => exact ⟨_, _, rfl, rfl⟩

theorem Occurrence.lexemes_append_inj {x y : Occurrence} {r s : List Lexeme}
    (h : x.lexemes ++ r = y.lexemes ++ s) : x = y ∧ r = s := by
  obtain ⟨name, declared⟩ := x
  obtain ⟨name', declared'⟩ := y
  cases declared with
  | false => cases declared' with
    | false => cases h; exact ⟨rfl, rfl⟩
    | true => cases h
  | true => cases declared' with
    | false => cases h
    | true => cases h; exact ⟨rfl, rfl⟩

/-- The first token tells all kinds of operands apart but the two in parentheses. -/
theorem Operand.opening_eq {a b : Operand} {r s : List Lexeme}
    (h : a.lexemes ++ r = b.lexemes ++ s) : a.opening = b.opening := by
  obtain ⟨l, _, ha, hl⟩ := a.lexemes_eq_cons
  obtain ⟨m, _, hb, hm⟩ := b.lexemes_eq_cons
  rw [ha, hb] at h
  rw [← hl, ← hm, (List.cons.inj h).1]

theorem Connective.ofWord_word_inj {c d : Connective}
    (h : Lexeme.ofWord c.word = Lexeme.ofWord d.word) : c = d := by
  cases c <;> cases d <;> first | rfl | cases h

theorem Connective.ofWord_word_ne (c : Connective) :
    Lexeme.ofWord c.word ≠ Lexeme.ofWord .closeParen
      ∧ Lexeme.ofWord c.word ≠ Lexeme.ofWord .semicolon := by
  cases c <;> decide

/-- **Tokens that start with an operand start with one operand only.** -/
theorem Operand.lexemes_append_inj {a b : Operand} {r s : List Lexeme}
    (h : a.lexemes ++ r = b.lexemes ++ s) : a = b ∧ r = s := by
  have hopening := opening_eq h
  induction a generalizing b r s with
  | constant c =>
      cases b with
      | constant d =>
          obtain ⟨hlexeme, hrest⟩ := List.cons.inj h
          exact ⟨by rw [Constant.lexeme_inj hlexeme], hrest⟩
      | var x => obtain ⟨name, _ | _⟩ := x <;> cases hopening
      | _ => cases hopening
  | var x =>
      cases b with
      | var y =>
          obtain ⟨rfl, hrest⟩ := Occurrence.lexemes_append_inj h
          exact ⟨rfl, hrest⟩
      | _ => obtain ⟨name, _ | _⟩ := x <;> cases hopening
  | not a ih =>
      cases b with
      | not b =>
          have h := (List.cons.inj h).2
          obtain ⟨rfl, hrest⟩ := ih h (opening_eq h)
          exact ⟨rfl, hrest⟩
      | var x => obtain ⟨name, _ | _⟩ := x <;> cases hopening
      | _ => cases hopening
  | group a ih =>
      cases b with
      | group b =>
          simp only [lexemes, List.cons_append, List.append_assoc, List.cons.injEq,
            true_and] at h
          obtain ⟨rfl, hrest⟩ := ih h (opening_eq h)
          exact ⟨rfl, (List.cons.inj hrest).2⟩
      | pair d b b' =>
          simp only [lexemes, List.cons_append, List.append_assoc, List.cons.injEq,
            true_and] at h
          obtain ⟨-, hrest⟩ := ih h (opening_eq h)
          exact absurd (List.cons.inj hrest).1.symm d.ofWord_word_ne.1
      | var x => obtain ⟨name, _ | _⟩ := x <;> cases hopening
      | _ => cases hopening
  | pair c a a' iha iha' =>
      cases b with
      | group b =>
          simp only [lexemes, List.cons_append, List.append_assoc, List.cons.injEq,
            true_and] at h
          obtain ⟨-, hrest⟩ := iha h (opening_eq h)
          exact absurd (List.cons.inj hrest).1 c.ofWord_word_ne.1
      | pair d b b' =>
          simp only [lexemes, List.cons_append, List.append_assoc, List.cons.injEq,
            true_and] at h
          obtain ⟨rfl, hrest⟩ := iha h (opening_eq h)
          obtain ⟨hword, hrest⟩ := List.cons.inj hrest
          obtain ⟨rfl, hclose⟩ := iha' hrest (opening_eq hrest)
          exact ⟨by rw [Connective.ofWord_word_inj hword], (List.cons.inj hclose).2⟩
      | var x => obtain ⟨name, _ | _⟩ := x <;> cases hopening
      | _ => cases hopening

/-- A right-hand side ends where no connective follows. -/
theorem RightSide.lexemes_append_inj {a b : RightSide} {r s : List Lexeme}
    (hr : ∀ c : Connective, r.head? ≠ some (.ofWord c.word))
    (hs : ∀ c : Connective, s.head? ≠ some (.ofWord c.word))
    (h : a.lexemes ++ r = b.lexemes ++ s) : a = b ∧ r = s := by
  cases a with
  | operand a =>
      cases b with
      | operand b =>
          obtain ⟨rfl, hrest⟩ := Operand.lexemes_append_inj h
          exact ⟨rfl, hrest⟩
      | plain d b b' =>
          simp only [lexemes, List.append_assoc, List.cons_append] at h
          obtain ⟨-, hrest⟩ := Operand.lexemes_append_inj h
          exact absurd (by rw [hrest]; rfl) (hr d)
  | plain c a a' =>
      cases b with
      | operand b =>
          simp only [lexemes, List.append_assoc, List.cons_append] at h
          obtain ⟨-, hrest⟩ := Operand.lexemes_append_inj h
          exact absurd (by rw [← hrest]; rfl) (hs c)
      | plain d b b' =>
          simp only [lexemes, List.append_assoc, List.cons_append] at h
          obtain ⟨rfl, hrest⟩ := Operand.lexemes_append_inj h
          obtain ⟨hword, hrest⟩ := List.cons.inj hrest
          obtain ⟨rfl, hend⟩ := Operand.lexemes_append_inj hrest
          exact ⟨by rw [Connective.ofWord_word_inj hword], hend⟩

theorem Connective.head_semicolon_ne (c : Connective) (r : List Lexeme) :
    (Lexeme.ofWord .semicolon :: r).head? ≠ some (.ofWord c.word) := by
  intro h
  exact c.ofWord_word_ne.2 (Option.some.inj h).symm

theorem Statement.lexemes_append_inj {s t : Statement} {r r' : List Lexeme}
    (h : s.lexemes ++ r = t.lexemes ++ r') : s = t ∧ r = r' := by
  obtain ⟨x, a⟩ := s
  obtain ⟨y, b⟩ := t
  simp only [lexemes, List.cons_append, List.append_assoc, List.cons.injEq, true_and,
    List.nil_append] at h
  obtain ⟨rfl, hrest⟩ := Occurrence.lexemes_append_inj h
  obtain ⟨rfl, hend⟩ := RightSide.lexemes_append_inj (fun c => c.head_semicolon_ne r)
    (fun c => c.head_semicolon_ne r') (List.cons.inj hrest).2
  exact ⟨rfl, (List.cons.inj hend).2⟩

theorem Statement.flatMap_lexemes_inj {ss ts : List Statement}
    (h : ss.flatMap lexemes = ts.flatMap lexemes) : ss = ts := by
  induction ss generalizing ts with
  | nil =>
      cases ts with
      | nil => rfl
      | cons t ts => cases h
  | cons s ss ih =>
      cases ts with
      | nil => cases h
      | cons t ts =>
          rw [List.flatMap_cons, List.flatMap_cons] at h
          obtain ⟨rfl, hrest⟩ := Statement.lexemes_append_inj h
          rw [ih hrest]

/-- **No two programs are written with the same tokens.** -/
theorem Program.lexemes_inj {p q : Program} (h : p.lexemes = q.lexemes) : p = q := by
  obtain ⟨ss, hss⟩ := p
  obtain ⟨ts, hts⟩ := q
  cases Statement.flatMap_lexemes_inj h
  rfl

/-! ## 4. Their tokens are genuine -/

theorem Occurrence.genuine (x : Occurrence) : ∀ l ∈ x.lexemes, l.Genuine := by
  obtain ⟨name, declared⟩ := x
  intro l hl
  cases declared with
  | false =>
      rw [List.mem_singleton.mp hl]
      exact .name name
  | true =>
      rcases List.mem_cons.mp hl with rfl | hl
      · exact .word rfl
      · rw [List.mem_singleton.mp hl]
        exact .name name

theorem Connective.genuine (c : Connective) : (Lexeme.ofWord c.word).Genuine := by
  cases c <;> exact .word rfl

theorem Operand.genuine (a : Operand) : ∀ l ∈ a.lexemes, l.Genuine := by
  induction a with
  | constant c =>
      intro l hl
      rw [List.mem_singleton.mp hl]
      exact .constant c
  | var x => exact x.genuine
  | not a ih =>
      intro l hl
      rcases List.mem_cons.mp hl with rfl | hl
      · exact .word rfl
      · exact ih l hl
  | group a ih =>
      intro l hl
      simp only [lexemes, List.mem_cons, List.mem_append, List.not_mem_nil, or_false] at hl
      rcases hl with rfl | hl | rfl
      · exact .word rfl
      · exact ih l hl
      · exact .word rfl
  | pair c a b iha ihb =>
      intro l hl
      simp only [lexemes, List.mem_cons, List.mem_append, List.not_mem_nil, or_false] at hl
      rcases hl with rfl | hl | rfl | hl | rfl
      · exact .word rfl
      · exact iha l hl
      · exact c.genuine
      · exact ihb l hl
      · exact .word rfl

theorem RightSide.genuine (r : RightSide) : ∀ l ∈ r.lexemes, l.Genuine := by
  cases r with
  | operand a => exact a.genuine
  | plain c a b =>
      intro l hl
      simp only [lexemes, List.mem_cons, List.mem_append] at hl
      rcases hl with hl | rfl | hl
      · exact a.genuine l hl
      · exact c.genuine
      · exact b.genuine l hl

/-- The tokens of a program are such as the scanner gives. -/
theorem Program.genuine (p : Program) : ∀ l ∈ p.lexemes, l.Genuine := by
  intro l hl
  obtain ⟨s, -, hl⟩ := List.mem_flatMap.mp hl
  simp only [Statement.lexemes, List.mem_cons, List.mem_append, List.not_mem_nil, or_false] at hl
  rcases hl with rfl | hl | rfl | hl | rfl
  · exact .word rfl
  · exact s.target.genuine l hl
  · exact .word rfl
  · exact s.value.genuine l hl
  · exact .word rfl

end Trivalent
