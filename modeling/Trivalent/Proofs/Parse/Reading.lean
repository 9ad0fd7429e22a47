import Trivalent.Proofs.Parse.Shape
import Trivalent.Proofs.Surface

/-!
# Reading a tree back

A tree of the parser is read back as a program: the reverse of parsing, with no search in it.

* `Derivation.readOccurrence?`, `readOperand?`, `readRightSide?`, `readStatement?`,
  `readStatements?` -- what is written below a node, by its symbol and action;
* `Shaped.readOperand` and its companions -- everything shaped can be read, and what is read has the
  tokens that the derivation has;
* `parse_program` -- **a parse never misreads a program**: it rejects the tokens, or its tree reads
  back as the program, and there is no other program with these tokens.
-/

namespace Trivalent

open Trivalent.Derivation

/-! ## 1. Reading -/

namespace Derivation

/-- The variable at a node: declared if the node binds, and named by the text below it. -/
def readOccurrence? : Derivation → Option Occurrence
  | .unary _ node child =>
    match node.role with
    | (.valVar, .bind) => child.node.literal?.map (⟨·, true⟩)
    | (.valVar, .left) => child.node.literal?.map (⟨·, false⟩)
    | _ => none
  | _ => none

/-- The operand at a node. -/
def readOperand? : Derivation → Option Operand
  | .leaf _ node =>
    match node.role with
    | (.operand, .makeTrue) => some (.constant (.certain true))
    | (.operand, .makeFalse) => some (.constant (.certain false))
    | (.operand, .makeUnsure) => some (.constant .unsure)
    | _ => none
  | .unary id node child =>
    match node.role with
    | (.operand, .negate) => child.readOperand?.map .not
    | (.operand, .left) => child.readOperand?.map .group
    | _ => (readOccurrence? (.unary id node child)).map .var
  | .binary _ node left right =>
    match node.role with
    | (.operand, .disjoin) => do return .pair .or (← left.readOperand?) (← right.readOperand?)
    | (.operand, .conjoin) => do return .pair .and (← left.readOperand?) (← right.readOperand?)
    | _ => none

/-- The right-hand side at a node; a variable may stand there by itself. -/
def readRightSide? : Derivation → Option RightSide
  | .leaf _ _ => none
  | .unary id node child =>
    match node.role with
    | (.expression, .left) => child.readOperand?.map .operand
    | _ => (readOccurrence? (.unary id node child)).map fun x => .operand (.var x)
  | .binary _ node left right =>
    match node.role with
    | (.expression, .disjoin) => do return .plain .or (← left.readOperand?) (← right.readOperand?)
    | (.expression, .conjoin) => do return .plain .and (← left.readOperand?) (← right.readOperand?)
    | _ => none

/-- The statement at a node. -/
def readStatement? : Derivation → Option Statement
  | .binary _ node left right =>
    match node.role with
    | (.statement, .assign) => do return ⟨← left.readOccurrence?, ← right.readRightSide?⟩
    | _ => none
  | _ => none

/-- The statements of a block, from left to right. -/
def readStatements? : Derivation → Option (List Statement)
  | .leaf _ _ => none
  | .unary _ node child =>
    match node.role with
    | (.codeBlock, .left) => child.readStatement?.map ([·])
    | _ => none
  | .binary _ node left right =>
    match node.role with
    | (.codeBlock, .both) => do return (← left.readStatements?) ++ (← right.readStatements?)
    | _ => none

end Derivation

/-! ## 2. Everything shaped can be read -/

namespace Shaped

theorem readOccurrence {d : Derivation} (h : Shaped d) (hs : d.symbol = .valVar) :
    ∃ x, d.readOccurrence? = some x ∧ d.unparse = x.lexemes := by
  have hname : ∀ {i : Derivation}, Shaped i → i.symbol = .identifier →
      ∃ name, i.node.literal? = some name ∧ i.unparse = [.ofName name] := by
    intro i hi hsymbol
    obtain ⟨id, node, name, rfl, hlexeme⟩ := hi.unparse_identifier hsymbol
    exact ⟨name, (Node.lexeme?_eq_some hlexeme).2.2, by rw [unparse, hlexeme]; rfl⟩
  cases h with
  | @token id node l lexeme genuine =>
      have hsymbol : l.symbol = .valVar := (Node.lexeme?_eq_some lexeme).1.symm.trans hs
      have hoperand := genuine.symbol_eq_operand (by rw [hsymbol]; rfl)
      rw [hsymbol] at hoperand
      cases hoperand
  | @occurrence id i name raw child =>
      obtain ⟨x, hx, hunparse⟩ := hname child (symbol_of_isIdentifier raw)
      refine ⟨⟨x, false⟩, ?_, by rw [unparse_occurrence, hunparse]; rfl⟩
      simp [above, readOccurrence?, Node.role, hx]
  | folded fold parts =>
      cases fold with
      | @declare k i hk hi =>
          obtain ⟨x, hx, hunparse⟩ := hname (parts i (by simp)) hi
          refine ⟨⟨x, true⟩, ?_, ?_⟩
          · simp [above, readOccurrence?, Node.role, hx]
          · simp [above, unparse, layout, Node.role, Part.fill, hunparse, Occurrence.lexemes]
      | _ => cases hs

theorem readOperand {d : Derivation} (h : Shaped d) (hs : d.symbol.Ready) :
    ∃ a, d.readOperand? = some a ∧ d.unparse = a.lexemes := by
  have hvar : ∀ {id : NodeId} {node : Node} {child : Derivation}, node.symbol = .valVar →
      Shaped (.unary id node child) →
      ∃ a, (Derivation.unary id node child).readOperand? = some a
        ∧ (Derivation.unary id node child).unparse = a.lexemes := by
    intro id node child hsymbol hshaped
    obtain ⟨x, hx, hunparse⟩ := hshaped.readOccurrence hsymbol
    refine ⟨.var x, ?_, hunparse⟩
    simp only [readOperand?, Node.role, hsymbol, hx, Option.map_some]
  induction h with
  | @token id node l lexeme genuine =>
      obtain ⟨hsymbol, haction, -⟩ := Node.lexeme?_eq_some lexeme
      cases genuine with
      | word hword =>
          rcases hs with hs | hs <;> (rw [symbol_leaf, hsymbol] at hs; cases hs; cases hword)
      | name => rcases hs with hs | hs <;> (rw [symbol_leaf, hsymbol] at hs; cases hs)
      | constant c =>
          refine ⟨.constant c, ?_, by rw [unparse, lexeme]; rfl⟩
          cases c with
          | certain b =>
              cases b <;> simp only [readOperand?, Node.role, hsymbol, haction, Constant.lexeme]
          | unsure => simp only [readOperand?, Node.role, hsymbol, haction, Constant.lexeme]
  | occurrence raw child => exact hvar rfl (.occurrence raw child)
  | folded fold parts ih =>
      cases fold with
      | declare hk hi => exact hvar rfl (.folded (.declare hk hi) parts)
      | @negate k a hk ha =>
          obtain ⟨b, hb, hunparse⟩ := ih a (by simp) ha
          refine ⟨.not b, ?_, ?_⟩
          · simp [above, readOperand?, Node.role, hb]
          · simp [above, unparse, layout, Node.role, Part.fill, hunparse, Operand.lexemes]
      | @group o a e ho ha he =>
          obtain ⟨b, hb, hunparse⟩ := ih a (by simp) ha
          refine ⟨.group b, ?_, ?_⟩
          · simp [above, readOperand?, Node.role, hb]
          · simp [above, unparse, layout, Node.role, Part.fill, hunparse, Operand.lexemes]
      | @pair c o a k b e ho ha hk hb he =>
          obtain ⟨a', ha', hunparse⟩ := ih a (by simp) ha
          obtain ⟨b', hb', hunparse'⟩ := ih b (by simp) hb
          refine ⟨.pair c a' b', ?_, ?_⟩
          · cases c <;> simp [above, readOperand?, Node.role, Connective.action, ha', hb']
          · simp [above, unparse, layout_pair, Node.role, Part.fill, hunparse, hunparse',
              Operand.lexemes]
      | _ => rcases hs with hs | hs <;> cases hs

theorem readRightSide {d : Derivation} (h : Shaped d)
    (hs : d.symbol = .expression ∨ d.symbol = .valVar) :
    ∃ r, d.readRightSide? = some r ∧ d.unparse = r.lexemes := by
  have hvar : ∀ {id : NodeId} {node : Node} {child : Derivation}, node.symbol = .valVar →
      Shaped (.unary id node child) →
      ∃ r, (Derivation.unary id node child).readRightSide? = some r
        ∧ (Derivation.unary id node child).unparse = r.lexemes := by
    intro id node child hsymbol hshaped
    obtain ⟨x, hx, hunparse⟩ := hshaped.readOccurrence hsymbol
    refine ⟨.operand (.var x), ?_, hunparse⟩
    simp only [readRightSide?, Node.role, hsymbol, hx, Option.map_some]
  cases h with
  | @token id node l lexeme genuine =>
      rw [symbol_leaf, (Node.lexeme?_eq_some lexeme).1] at hs
      have hoperand := genuine.symbol_eq_operand (by rcases hs with hs | hs <;> (rw [hs]; rfl))
      rw [hoperand] at hs
      rcases hs with hs | hs <;> cases hs
  | occurrence raw child => exact hvar rfl (.occurrence raw child)
  | folded fold parts =>
      cases fold with
      | declare hk hi => exact hvar rfl (.folded (.declare hk hi) parts)
      | @lift a ha =>
          obtain ⟨b, hb, hunparse⟩ := (parts a (by simp)).readOperand (.inl ha)
          refine ⟨.operand b, ?_, ?_⟩
          · simp [above, readRightSide?, Node.role, hb]
          · simp [above, unparse, layout, Node.role, Part.fill, hunparse, RightSide.lexemes]
      | @plain c a k b ha hk hb =>
          obtain ⟨a', ha', hunparse⟩ := (parts a (by simp)).readOperand ha
          obtain ⟨b', hb', hunparse'⟩ := (parts b (by simp)).readOperand hb
          refine ⟨.plain c a' b', ?_, ?_⟩
          · cases c <;> simp [above, readRightSide?, Node.role, Connective.action, ha', hb']
          · simp [above, unparse, layout_plain, Node.role, Part.fill, hunparse, hunparse',
              RightSide.lexemes]
      | _ => rcases hs with hs | hs <;> cases hs

theorem readStatement {d : Derivation} (h : Shaped d) (hs : d.symbol = .statement) :
    ∃ s, d.readStatement? = some s ∧ d.unparse = s.lexemes := by
  obtain ⟨id, window, fold, parts⟩ := h.exists_fold (.inr (.inl hs))
  cases fold with
  | @assign k v a r e hk hv ha hr he =>
      obtain ⟨x, hx, hunparse⟩ := (parts v (by simp)).readOccurrence hv
      obtain ⟨b, hb, hunparse'⟩ := (parts r (by simp)).readRightSide hr
      refine ⟨⟨x, b⟩, ?_, ?_⟩
      · simp [above, readStatement?, Node.role, hx, hb]
      · simp [above, unparse, layout, Node.role, Part.fill, hunparse, hunparse', Statement.lexemes]
  | _ => cases hs

theorem readStatements {d : Derivation} (h : Shaped d) (hs : d.symbol = .codeBlock) :
    ∃ ss, d.readStatements? = some ss ∧ d.unparse = ss.flatMap Statement.lexemes := by
  induction h with
  | token lexeme genuine =>
      obtain ⟨id, window, fold, -⟩ := (Shaped.token lexeme genuine).exists_fold (.inl hs)
      cases fold
  | occurrence => cases hs
  | folded fold parts ih =>
      cases fold with
      | @block l r hl hr =>
          obtain ⟨ss, hss, hunparse⟩ := ih l (by simp) hl
          obtain ⟨ts, hts, hunparse'⟩ := ih r (by simp) hr
          refine ⟨ss ++ ts, ?_, ?_⟩
          · simp [above, readStatements?, Node.role, hss, hts]
          · simp [above, unparse, layout, Node.role, Part.fill, hunparse, hunparse']
      | @single s hstatement =>
          obtain ⟨t, ht, hunparse⟩ := (parts s (by simp)).readStatement hstatement
          refine ⟨[t], ?_, ?_⟩
          · simp [above, readStatements?, Node.role, ht]
          · simp [above, unparse, layout, Node.role, Part.fill, hunparse]
      | _ => cases hs

end Shaped

/-! ## 3. Programs are never misread -/

theorem Spells.genuine {leaves : List Node} {lexemes : List Lexeme} (h : Spells leaves lexemes)
    (hgenuine : ∀ l ∈ lexemes, l.Genuine) : GenuineLeaves leaves := by
  intro n hn
  have hmem : n.lexeme? ∈ lexemes.map some := by
    rw [← h]
    exact List.mem_map_of_mem hn
  obtain ⟨l, hl, heq⟩ := List.mem_map.mp hmem
  exact ⟨l, heq.symm, hgenuine l hl⟩

theorem Program.lexemes_eq_cons (p : Program) :
    ∃ l rest, p.lexemes = .ofWord .defWord :: l :: rest := by
  obtain ⟨ss, hne⟩ := p
  cases ss with
  | nil => exact absurd rfl hne
  | cons s ss =>
      obtain ⟨⟨name, declared⟩, value⟩ := s
      cases declared <;> exact ⟨_, _, rfl⟩

theorem RightSide.lexemes_ne (r : RightSide) {rest : List Lexeme} :
    r.lexemes ≠ .ofWord .defWord :: rest := by
  have hoperand : ∀ (a : Operand) (s : List Lexeme), a.lexemes ++ s ≠ .ofWord .defWord :: rest := by
    intro a s h
    obtain ⟨l, tail, ha, hl⟩ := a.lexemes_eq_cons
    rw [ha] at h
    rw [(List.cons.inj h).1] at hl
    cases a with
    | var x => obtain ⟨name, _ | _⟩ := x <;> cases hl
    | _ => cases hl
  cases r with
  | operand a =>
      have h := hoperand a []
      rw [List.append_nil] at h
      exact h
  | plain c a b => exact hoperand a _

/-- A single node that spells a program and cannot be reduced is a block. -/
theorem Shaped.symbol_eq_codeBlock {d : Derivation} {p : Program} (h : Shaped d)
    (hnone : Grammar.standard.find [d.symbol] = none) (hunparse : d.unparse = p.lexemes) :
    d.symbol = .codeBlock := by
  obtain ⟨l, rest, hcons⟩ := p.lexemes_eq_cons
  rw [hcons] at hunparse
  by_cases hfolded : d.symbol.isFolded = true
  · cases hs : d.symbol with
    | codeBlock => rfl
    | statement => rw [hs] at hnone; cases hnone
    | operand => rw [hs] at hnone; cases hnone
    | valVar =>
        obtain ⟨x, -, hx⟩ := h.readOccurrence hs
        rw [hx] at hunparse
        exact absurd hunparse (RightSide.operand (.var x)).lexemes_ne
    | expression =>
        obtain ⟨r, -, hr⟩ := h.readRightSide (.inl hs)
        rw [hr] at hunparse
        exact absurd hunparse r.lexemes_ne
    | _ => rw [hs] at hfolded; cases hfolded
  · -- any other symbol is one token, and a program has more
    obtain ⟨id, node, l, rfl, hlexeme, -, -⟩ := h.eq_leaf (Bool.eq_false_iff.mpr hfolded)
    rw [unparse, hlexeme] at hunparse
    cases hunparse

/-- A program has leaves. -/
theorem Spells.ne_nil {leaves : List Node} {p : Program} (h : Spells leaves p.lexemes) :
    leaves ≠ [] := by
  rintro rfl
  obtain ⟨l, rest, hcons⟩ := p.lexemes_eq_cons
  rw [Spells, hcons] at h
  cases h

/-- The one node that is left of a program is a block that reads back as the program. -/
theorem Run.readStatements {p : Program} {leaves : List Node} {steps : Nat} {names : List String}
    {d : Derivation} (hspells : Spells leaves p.lexemes)
    (h : Run .standard .bind steps (leafRow leaves) names [d])
    (hnone : Grammar.standard.find [d.symbol] = none) :
    Shaped d ∧ d.symbol = .codeBlock ∧ d.readStatements? = some p.statements := by
  obtain ⟨hshaped, hrow⟩ := h.spells (hspells.genuine p.genuine)
  have hd := hshaped d List.mem_cons_self
  have hunparse : d.unparse = p.lexemes := by
    rw [← hrow.unique hspells]
    exact (List.append_nil _).symm
  have hblock := hd.symbol_eq_codeBlock hnone hunparse
  obtain ⟨ss, hss, hlexemes⟩ := hd.readStatements hblock
  rw [hss, Statement.flatMap_lexemes_inj (hlexemes.symm.trans hunparse)]
  exact ⟨hd, hblock, rfl⟩

/-- **A parse never misreads a program.** Leaves with the tokens of a program, wherever they stand,
are irreducible, or their tree reads back as the program; and there is no other program with these
tokens. -/
theorem parse_program (p : Program) {leaves : List Node} (hspells : Spells leaves p.lexemes)
    (journal : Journal) :
    ((∃ remaining span line w, parse leaves journal
          = .error (.diagnostic ⟨.irreducible remaining, some span, line⟩) w)
        ∨ ∃ root w d, parse leaves journal = .ok root w ∧ w.arena.Unfolds root d
            ∧ d.symbol = .codeBlock ∧ d.readStatements? = some p.statements)
      ∧ ∀ q : Program, Spells leaves q.lexemes → q = p := by
  refine ⟨?_, fun q hq => Program.lexemes_inj (hq.unique hspells)⟩
  obtain ⟨steps, names, row, w, hrun, hgrown, hnone, ⟨d, rfl, hok⟩ | ⟨span, line, -, herror⟩⟩ :=
    parse_run hspells.ne_nil journal
  · obtain ⟨hd, hblock, hread⟩ := hrun.readStatements hspells hnone
    exact .inr ⟨d.id, w, d, hok, hd.unfolds (hgrown.holds d List.mem_cons_self), hblock, hread⟩
  · exact .inl ⟨_, span, line, w, herror⟩

theorem parse_program_not_or :
    ∃ leaves root w d, tokenize "def val x as not T or (F or not U);" = .ok leaves
      ∧ parse leaves {} = .ok root w ∧ w.arena.Unfolds root d
      ∧ d.readStatements? = some [⟨⟨"x", true⟩, .plain .or (.not (.constant (.certain true)))
          (.pair .or (.constant (.certain false)) (.not (.constant .unsure)))⟩] := by
  obtain ⟨leaves, root, w, htokens, hlexemes, hparse⟩ :=
    @exists_parse "def val x as not T or (F or not U);"
      (Program.lexemes ⟨[⟨⟨"x", true⟩, .plain .or (.not (.constant (.certain true)))
        (.pair .or (.constant (.certain false)) (.not (.constant .unsure)))⟩], by decide⟩)
      (by decide +kernel) (by decide +kernel)
  obtain ⟨⟨_, _, _, _, herror⟩ | ⟨root', w', d, hok, hunfolds, -, hread⟩, -⟩ :=
    parse_program _ hlexemes {}
  · rw [hparse] at herror
    cases herror
  · rw [hparse] at hok
    cases hok
    exact ⟨leaves, root, w, d, htokens, hparse, hunfolds, hread⟩

end Trivalent
