import Trivalent.Proofs.Reduction.Termination

/-!
# The grammar of the language

The table `Grammar.standard` has twenty-six rules, but only nine kinds of them. Here they are told
apart, once for symbols and once for what a step does to a row:

* `Connective` -- the two connectives, with their words and actions;
* `Symbol.Ready` -- the symbols that can stand beside a connective;
* `Grammar.StandardFrame`, `Grammar.lookup_standard_iff` -- the nine kinds of rules are all rules
  of the table;
* `Grammar.ranked_standard` -- its one-symbol rules do not run in a circle;
* `Folds` -- a window of derivations and the derivation it is folded into;
* `Step.folds_first` -- **what one step of a parse does**: it folds a window, none wider and none as
  wide further left being a frame, and binds the name that the new node declares.
-/

namespace Trivalent

open Trivalent.Derivation

/-! ## 1. Kinds of rules -/

/-- A connective of two operands. -/
inductive Connective where
  | or
  | and
  deriving DecidableEq, Repr

/-- The word a connective is written with. -/
def Connective.word : Connective → Symbol
  | or => .orWord
  | and => .andWord

/-- The action of a node with this connective. -/
def Connective.action : Connective → Action
  | or => .disjoin
  | and => .conjoin

/-- What may stand beside a connective, after `not` and alone in parentheses. -/
def Symbol.Ready (s : Symbol) : Prop := s = .operand ∨ s = .valVar

namespace Grammar

/-- The rules of the language, by kind. -/
inductive StandardFrame : List Symbol → Production → Prop
  | block : StandardFrame [.codeBlock, .codeBlock] ⟨.codeBlock, .both, 0, 1, false⟩
  | single : StandardFrame [.statement] ⟨.codeBlock, .left, 0, 0, false⟩
  | assign {r : Symbol} (hr : r = .expression ∨ r = .valVar) :
      StandardFrame [.defWord, .valVar, .asWord, r, .semicolon] ⟨.statement, .assign, 1, 3, false⟩
  | declare : StandardFrame [.valWord, .identifier] ⟨.valVar, .bind, 1, 1, true⟩
  | negate {a : Symbol} (ha : a.Ready) :
      StandardFrame [.notWord, a] ⟨.operand, .negate, 1, 1, false⟩
  | group {a : Symbol} (ha : a.Ready) :
      StandardFrame [.openParen, a, .closeParen] ⟨.operand, .left, 1, 1, false⟩
  | lift : StandardFrame [.operand] ⟨.expression, .left, 0, 0, false⟩
  | plain (c : Connective) {a b : Symbol} (ha : a.Ready) (hb : b.Ready) :
      StandardFrame [a, c.word, b] ⟨.expression, c.action, 0, 2, false⟩
  | pair (c : Connective) {a b : Symbol} (ha : a.Ready) (hb : b.Ready) :
      StandardFrame [.openParen, a, c.word, b, .closeParen] ⟨.operand, c.action, 1, 3, false⟩

theorem standardFrame_of_connectiveRules (c : Connective) {a b : Symbol} (ha : a.Ready)
    (hb : b.Ready) {rule : Rule} (h : rule ∈ connectiveRules c.word c.action a b) :
    StandardFrame rule.frame rule.production := by
  unfold connectiveRules at h
  rcases List.mem_cons.mp h with rfl | h
  · exact .pair c ha hb
  · rw [List.mem_singleton.mp h]
    exact .plain c ha hb

theorem ready_of_mem_operands {a : Symbol} (h : a ∈ operands) : a.Ready := by
  simpa [operands, Symbol.Ready] using h

theorem standardFrame_of_mem {rule : Rule} (hmem : rule ∈ standard.rules) :
    StandardFrame rule.frame rule.production := by
  unfold standard at hmem
  rcases List.mem_append.mp hmem with hmem | hmem
  · simp only [List.mem_cons, List.not_mem_nil, or_false] at hmem
    rcases hmem with rfl | rfl | rfl | rfl | rfl | rfl | rfl | rfl | rfl | rfl
    · exact .block
    · exact .single
    · exact .assign (.inl rfl)
    · exact .assign (.inr rfl)
    · exact .declare
    · exact .negate (.inl rfl)
    · exact .negate (.inr rfl)
    · exact .group (.inr rfl)
    · exact .group (.inl rfl)
    · exact .lift
  · obtain ⟨⟨word, action⟩, hc, hmem⟩ := List.mem_flatMap.mp hmem
    obtain ⟨a, ha, hmem⟩ := List.mem_flatMap.mp hmem
    obtain ⟨b, hb, hmem⟩ := List.mem_flatMap.mp hmem
    have ha := ready_of_mem_operands ha
    have hb := ready_of_mem_operands hb
    simp only [connectives, List.mem_cons, List.not_mem_nil, or_false] at hc
    rcases hc with hc | hc
    · cases hc
      exact standardFrame_of_connectiveRules .or ha hb hmem
    · cases hc
      exact standardFrame_of_connectiveRules .and ha hb hmem

/-- **The nine kinds are all rules of the table.** -/
theorem lookup_standard_iff {frame : List Symbol} {p : Production} :
    standard.lookup frame = some p ↔ StandardFrame frame p := by
  constructor
  · intro h
    obtain ⟨rule, hmem, rfl, rfl⟩ := exists_rule_of_lookup h
    exact standardFrame_of_mem hmem
  · intro h
    cases h with
    | block => rfl
    | single => rfl
    | assign hr => rcases hr with rfl | rfl <;> rfl
    | declare => rfl
    | negate ha => rcases ha with rfl | rfl <;> rfl
    | group ha => rcases ha with rfl | rfl <;> rfl
    | lift => rfl
    | plain c ha hb => cases c <;> rcases ha with rfl | rfl <;> rcases hb with rfl | rfl <;> rfl
    | pair c ha hb => cases c <;> rcases ha with rfl | rfl <;> rcases hb with rfl | rfl <;> rfl

/-- A statement becomes a block and an operand an expression, and that is as far as one-symbol
rules go. -/
def standardRank : Symbol → Nat
  | .statement => 1
  | .operand => 1
  | _ => 0

theorem ranked_standard : standard.Ranked standardRank where
  bounded s := by cases s <;> decide
  drops s p h := by
    generalize hframe : [s] = frame at h
    cases lookup_standard_iff.mp h with
    | single => cases hframe; decide
    | lift => cases hframe; decide
    | block => cases hframe
    | assign => cases hframe
    | declare => cases hframe
    | negate => cases hframe
    | group => cases hframe
    | plain => cases hframe
    | pair => cases hframe

end Grammar

/-! ## 2. What a step folds -/

/-- A window of derivations and the derivation that it is folded into. -/
inductive Folds (next : NodeId) : List Derivation → Derivation → Prop
  | block {l r : Derivation} (hl : l.symbol = .codeBlock) (hr : r.symbol = .codeBlock) :
      Folds next [l, r] (above next .codeBlock .both l (some r))
  | single {s : Derivation} (hs : s.symbol = .statement) :
      Folds next [s] (above next .codeBlock .left s none)
  | assign {k v a r e : Derivation} (hk : k.symbol = .defWord) (hv : v.symbol = .valVar)
      (ha : a.symbol = .asWord) (hr : r.symbol = .expression ∨ r.symbol = .valVar)
      (he : e.symbol = .semicolon) :
      Folds next [k, v, a, r, e] (above next .statement .assign v (some r))
  | declare {k i : Derivation} (hk : k.symbol = .valWord) (hi : i.symbol = .identifier) :
      Folds next [k, i] (above next .valVar .bind i none)
  | negate {k a : Derivation} (hk : k.symbol = .notWord) (ha : a.symbol.Ready) :
      Folds next [k, a] (above next .operand .negate a none)
  | group {o a e : Derivation} (ho : o.symbol = .openParen) (ha : a.symbol.Ready)
      (he : e.symbol = .closeParen) : Folds next [o, a, e] (above next .operand .left a none)
  | lift {a : Derivation} (ha : a.symbol = .operand) :
      Folds next [a] (above next .expression .left a none)
  | plain (c : Connective) {a k b : Derivation} (ha : a.symbol.Ready) (hk : k.symbol = c.word)
      (hb : b.symbol.Ready) : Folds next [a, k, b] (above next .expression c.action a (some b))
  | pair (c : Connective) {o a k b e : Derivation} (ho : o.symbol = .openParen)
      (ha : a.symbol.Ready) (hk : k.symbol = c.word) (hb : b.symbol.Ready)
      (he : e.symbol = .closeParen) :
      Folds next [o, a, k, b, e] (above next .operand c.action a (some b))

/-- The name that a node declares: the text below `val`. -/
def Derivation.declares? : Derivation → Option String
  | .unary _ node child =>
    if node.symbol = .valVar ∧ node.action = .bind then child.node.literal? else none
  | _ => none

/-- A production of the language folds a window that is its frame. -/
theorem folds_of_standardFrame {next : NodeId} {window : List Derivation} {frame : List Symbol}
    {p : Production} {left : Derivation} {right : Option Derivation}
    (h : Grammar.StandardFrame frame p) (hframe : window.map symbol = frame)
    (hleft : window[p.left]? = some left)
    (hright : right = if p.hasRight then window[p.right]? else none) :
    Folds next window (above next p.result p.action left right)
      ∧ declaredBy .bind p left = (above next p.result p.action left right).declares? := by
  subst hright
  cases h with
  | block =>
      simp only [List.map_eq_cons_iff, List.map_eq_nil_iff] at hframe
      obtain ⟨l, _, rfl, hl, r, _, rfl, hr, rfl⟩ := hframe
      cases hleft
      exact ⟨.block hl hr, rfl⟩
  | single =>
      simp only [List.map_eq_cons_iff, List.map_eq_nil_iff] at hframe
      obtain ⟨s, _, rfl, hs, rfl⟩ := hframe
      cases hleft
      exact ⟨.single hs, rfl⟩
  | assign hr =>
      simp only [List.map_eq_cons_iff, List.map_eq_nil_iff] at hframe
      obtain ⟨k, _, rfl, hk, v, _, rfl, hv, a, _, rfl, ha, r, _, rfl, rfl, e, _, rfl, he, rfl⟩ :=
        hframe
      cases hleft
      exact ⟨.assign hk hv ha hr he, rfl⟩
  | declare =>
      simp only [List.map_eq_cons_iff, List.map_eq_nil_iff] at hframe
      obtain ⟨k, _, rfl, hk, i, _, rfl, hi, rfl⟩ := hframe
      cases hleft
      exact ⟨.declare hk hi, rfl⟩
  | negate ha =>
      simp only [List.map_eq_cons_iff, List.map_eq_nil_iff] at hframe
      obtain ⟨k, _, rfl, hk, a, _, rfl, rfl, rfl⟩ := hframe
      cases hleft
      exact ⟨.negate hk ha, rfl⟩
  | group ha =>
      simp only [List.map_eq_cons_iff, List.map_eq_nil_iff] at hframe
      obtain ⟨o, _, rfl, ho, a, _, rfl, rfl, e, _, rfl, he, rfl⟩ := hframe
      cases hleft
      exact ⟨.group ho ha he, rfl⟩
  | lift =>
      simp only [List.map_eq_cons_iff, List.map_eq_nil_iff] at hframe
      obtain ⟨a, _, rfl, ha, rfl⟩ := hframe
      cases hleft
      exact ⟨.lift ha, rfl⟩
  | plain c ha hb =>
      simp only [List.map_eq_cons_iff, List.map_eq_nil_iff] at hframe
      obtain ⟨a, _, rfl, rfl, k, _, rfl, hk, b, _, rfl, rfl, rfl⟩ := hframe
      cases hleft
      exact ⟨.plain c ha hk hb, rfl⟩
  | pair c ha hb =>
      simp only [List.map_eq_cons_iff, List.map_eq_nil_iff] at hframe
      obtain ⟨o, _, rfl, ho, a, _, rfl, rfl, k, _, rfl, hk, b, _, rfl, rfl, e, _, rfl, he, rfl⟩ :=
        hframe
      cases hleft
      exact ⟨.pair c ho ha hk hb he, rfl⟩

/-- **What one step of a parse does**, by the grammar of the language or a part of it. It folds a
window, none wider and none as wide further left being a frame, and covers the raw identifiers that
the new node declares. -/
theorem Step.folds_first {g : Grammar} {next : NodeId} {row row' : List Derivation}
    {declared : Option String}
    (hg : ∀ {frame p}, g.lookup frame = some p → Grammar.StandardFrame frame p)
    (h : Step g .bind next row declared row') :
    ∃ before window after new p, row = before ++ window ++ after ∧ Folds next window new
      ∧ g.lookup (window.map symbol) = some p ∧ new.symbol = p.result
      ∧ (∀ b frame a q, g.IsFrame (row.map symbol) b frame a q →
          frame.length ≤ window.length ∧ (frame.length = window.length → before.length ≤ b.length))
      ∧ declared = new.declares?
      ∧ row' = bindAll .valVar (next + 1) (before ++ new :: after) declared := by
  cases h with
  | @intro before window after p left right found split lookup leftChild rightChild =>
    obtain ⟨hfolds, hdeclared⟩ := @folds_of_standardFrame next window _ p left right
      (hg lookup) rfl leftChild rightChild
    refine ⟨before, window, after, _, p, split, hfolds, lookup, symbol_above ..,
      (Grammar.find_eq_some found).2, hdeclared, ?_⟩
    -- only a declaration binds anything, and it makes a variable
    generalize hname : declaredBy .bind p left = declared
    cases declared with
    | none => rfl
    | some name =>
        have hresult : p.result = .valVar := by
          have hstandard := hg lookup
          generalize window.map symbol = frame at hstandard
          cases hstandard with
          | declare => rfl
          | _ => cases hname
        rw [hresult]

/-- The same by the whole grammar, where it does not matter that the window lies furthest left. -/
theorem Step.folds {next : NodeId} {row row' : List Derivation} {declared : Option String}
    (h : Step .standard .bind next row declared row') :
    ∃ before window after new, row = before ++ window ++ after ∧ Folds next window new
      ∧ (∀ b frame a p, Grammar.standard.IsFrame (row.map symbol) b frame a p →
          frame.length ≤ window.length)
      ∧ declared = new.declares?
      ∧ row' = bindAll .valVar (next + 1) (before ++ new :: after) declared := by
  obtain ⟨before, window, after, new, p, hrow, hfolds, -, -, hfirst, hstep⟩ :=
    h.folds_first Grammar.lookup_standard_iff.mp
  exact ⟨before, window, after, new, hrow, hfolds,
    fun b frame a p hframe => (hfirst b frame a p hframe).1, hstep⟩

end Trivalent
