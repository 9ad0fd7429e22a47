import Trivalent.Proofs.Parse.Reading
import Trivalent.Program

/-!
# Evaluation along the tree

An evaluation follows numbers through an arena, one fetch after another, and may meet anything
there. On a tree that a parse has built there is nothing to meet but the tree, and evaluation is a
recursion on it.

* `Derivation.evaluate` -- the value of an expression, by recursion on its derivation;
  `evaluateAt_eq` -- **evaluation in an arena is this recursion**, with the same failures;
* `Derivation.statements` -- the statements of a program, from left to right;
* `Derivation.perform` -- one statement, at the depth at which statements are walked;
* `Context.walk_eq` -- **a walk performs the statements in order**: however blocks are nested, and
  without any bound being reached;
* `Context.symbol_of_walkAt` -- only blocks and statements can be walked.
-/

namespace Trivalent

open Trivalent.Derivation

/-! ## 1. Expressions -/

/-- The value of a name, if there is one, asked for at a node. -/
def Node.recall {σ : Type} (node : Node) (bindings : Bindings) : Option String → Work σ Value
  | some name =>
    match bindings.get? name with
    | some value => return value
    | none => node.report (.unknownVariable name)
  | none => node.report (.nameless node.symbol)

namespace Derivation

/-- The text of the identifier below a variable. -/
def name? : Derivation → Option String
  | .unary _ _ child => child.node.literal?
  | _ => none

/-- The value of an expression where `room` levels are left. -/
def evaluate (limits : Limits) (bindings : Bindings) : Derivation → Nat → Work Nat Value
  | d, 0 => d.node.report (.depthLimit limits.maxDepth)
  | .leaf _ node, _ + 1 =>
    match node.action with
    | .makeTrue => return .const true
    | .makeFalse => return .const false
    | _ => freshAtom limits node
  | .unary _ node child, room + 1 =>
    if node.symbol = .valVar then node.recall bindings child.node.literal?
    else
      match node.action with
      | .negate => do return (← limits.descend room (child.evaluate limits bindings room)).negate
      | _ => limits.descend room (child.evaluate limits bindings room)
  | .binary _ node left right, room + 1 => do
    let a ← limits.descend room (left.evaluate limits bindings room)
    let b ← limits.descend room (right.evaluate limits bindings room)
    match node.action with
    | .conjoin => return a.and b
    | _ => return a.or b

end Derivation

/-- The symbols of expressions. -/
def Symbol.Valued (s : Symbol) : Prop := s.Ready ∨ s = .expression

/-- An expression that is a single token is a truth value. -/
theorem Lexeme.Genuine.exists_constant {l : Lexeme} (h : l.Genuine) (hs : l.symbol.Valued) :
    ∃ k : Constant, l = k.lexeme := by
  cases h with
  | @word s hword =>
      have hs : s.Valued := hs
      rcases hs with (rfl | rfl) | rfl <;> cases hword
  | name text => rcases hs with (hs | hs) | hs <;> cases hs
  | constant k => exact ⟨k, rfl⟩

theorem evaluateAt_zero {limits : Limits} {arena : Arena} {bindings : Bindings} {d : Derivation}
    (h : arena.Holds d) :
    evaluateAt limits arena bindings 0 d.id = d.evaluate limits bindings 0 := by
  have hget := h.get?
  unfold evaluateAt
  rw [Arena.fetch_eq hget, pure_bind]
  cases d <;> rfl

theorem variableName_eq {σ : Type} {arena : Arena} {id : NodeId} {node : Node} {child : Derivation}
    (h : arena.Holds (.unary id node child)) :
    (variableName arena node : Work σ String)
      = match child.node.literal? with
        | some name => pure name
        | none => node.report (.nameless node.symbol) := by
  obtain ⟨-, hshape, -, hchild⟩ := h
  have hleft : node.left? = some child.id := by
    unfold Node.left?
    rw [hshape]
  unfold variableName
  cases hname : child.node.literal? with
  | none => simp only [hleft, Arena.fetch_eq hchild.get?, pure_bind, hname]
  | some name => simp only [hleft, Arena.fetch_eq hchild.get?, pure_bind, hname]

theorem Node.child_left {σ : Type} {node : Node} {left : NodeId} {right : Option NodeId}
    (h : node.shape = .branch (some left) right) :
    (node.child .left : Work σ NodeId) = pure left := by
  unfold Node.child Node.child? Node.left?
  rw [h]

theorem Node.child_right {σ : Type} {node : Node} {left : Option NodeId} {right : NodeId}
    (h : node.shape = .branch left (some right)) :
    (node.child .right : Work σ NodeId) = pure right := by
  unfold Node.child Node.child? Node.right?
  rw [h]

section Expressions

variable {limits : Limits} {arena : Arena} {bindings : Bindings} {id room : Nat} {node : Node}

theorem evaluateAt_variable {child : Derivation} (h : arena.Holds (.unary id node child))
    (hs : node.symbol = .valVar) (room : Nat) :
    evaluateAt limits arena bindings (room + 1) id
      = (unary id node child).evaluate limits bindings (room + 1) := by
  unfold evaluateAt evaluate
  rw [Arena.fetch_eq h.1, pure_bind, if_pos hs, if_pos hs]
  unfold readVariable
  rw [variableName_eq h]
  cases child.node.literal? with
  | none => rfl
  | some name =>
      rw [pure_bind]
      rfl

theorem evaluateAt_unary {child : Derivation} (h : arena.Holds (.unary id node child))
    (hs : node.symbol ≠ .valVar) (ha : node.action = .negate ∨ node.action = .left)
    (hchild : evaluateAt limits arena bindings room child.id
      = child.evaluate limits bindings room) :
    evaluateAt limits arena bindings (room + 1) id
      = (unary id node child).evaluate limits bindings (room + 1) := by
  unfold evaluateAt evaluate
  rw [Arena.fetch_eq h.1, pure_bind, if_neg hs, if_neg hs]
  rcases ha with ha | ha <;> simp only [ha, Node.child_left h.2.1, pure_bind, hchild]

theorem evaluateAt_binary {left right : Derivation} (h : arena.Holds (.binary id node left right))
    (hs : node.symbol ≠ .valVar) (c : Connective) (ha : node.action = c.action)
    (hleft : evaluateAt limits arena bindings room left.id = left.evaluate limits bindings room)
    (hright : evaluateAt limits arena bindings room right.id
      = right.evaluate limits bindings room) :
    evaluateAt limits arena bindings (room + 1) id
      = (binary id node left right).evaluate limits bindings (room + 1) := by
  unfold evaluateAt evaluate
  rw [Arena.fetch_eq h.1, pure_bind, if_neg hs]
  cases c <;> simp only [ha, Connective.action, Node.child_left h.2.1, Node.child_right h.2.1,
    pure_bind, hleft, hright]

end Expressions

/-- **Evaluation in an arena is a recursion on the derivation that the arena holds.** -/
theorem evaluateAt_eq {limits : Limits} {arena : Arena} {bindings : Bindings} {d : Derivation}
    (hshaped : Shaped d) (hs : d.symbol.Valued) (h : arena.Holds d) (room : Nat) :
    evaluateAt limits arena bindings room d.id = d.evaluate limits bindings room := by
  have hoperand : Symbol.operand ≠ .valVar := by decide
  have hexpression : Symbol.expression ≠ .valVar := by decide
  induction hshaped generalizing room with
  | @token id node l lexeme genuine =>
      obtain ⟨hsymbol, haction, -⟩ := Node.lexeme?_eq_some lexeme
      rw [symbol_leaf, hsymbol] at hs
      obtain ⟨k, rfl⟩ := genuine.exists_constant hs
      cases room with
      | zero => exact evaluateAt_zero h
      | succ room =>
          have hne : node.symbol ≠ .valVar := by rw [hsymbol, k.symbol_lexeme]; decide
          have hget : arena.get? (leaf id node).id = some node := h
          unfold evaluateAt evaluate
          rw [Arena.fetch_eq hget, pure_bind, if_neg hne]
          rcases k with (_ | _) | _ <;> simp only [haction, Constant.lexeme]
  | occurrence raw child ih =>
      cases room with
      | zero => exact evaluateAt_zero h
      | succ room => exact evaluateAt_variable h rfl room
  | folded fold parts ih =>
      cases room with
      | zero => exact evaluateAt_zero h
      | succ room =>
          cases fold with
          | declare hk hi => exact evaluateAt_variable h rfl room
          | @negate k a hk ha =>
              exact evaluateAt_unary h hoperand (.inl rfl)
                (ih a (by simp) (.inl ha) h.2.2.2 room)
          | @group o a e ho ha he =>
              exact evaluateAt_unary h hoperand (.inr rfl)
                (ih a (by simp) (.inl ha) h.2.2.2 room)
          | @lift a ha =>
              exact evaluateAt_unary h hexpression (.inr rfl)
                (ih a (by simp) (.inl (.inl ha)) h.2.2.2 room)
          | @plain c a k b ha hk hb =>
              have hleft := h.2.2.2.2.1
              have hright := h.2.2.2.2.2
              exact evaluateAt_binary h hexpression c rfl (ih a (by simp) (.inl ha) hleft room)
                (ih b (by simp) (.inl hb) hright room)
          | @pair c o a k b e ho ha hk hb he =>
              have hleft := h.2.2.2.2.1
              have hright := h.2.2.2.2.2
              exact evaluateAt_binary h hoperand c rfl (ih a (by simp) (.inl ha) hleft room)
                (ih b (by simp) (.inl hb) hright room)
          | _ => rcases hs with (hs | hs) | hs <;> cases hs

/-! ## 2. Statements -/

namespace Derivation

/-- The statements in a derivation, from left to right. -/
def statements (d : Derivation) : List Derivation := d.subtrees.filter (·.symbol == .statement)

/-- The variable of a statement. -/
def target? : Derivation → Option String
  | .binary _ _ target _ => target.name?
  | _ => none

/-- Carries out a statement at the depth of statements, which is one. -/
def perform (limits : Limits) (s : Derivation) : Work Context Unit :=
  match limits.maxDepth, s with
  | 0, _ => s.node.report (.depthLimit limits.maxDepth)
  | room + 1, .binary _ _ target value =>
    match target.name? with
    | some name => do
      let bindings := (← get).store.bindings
      Context.assign name
        (← limits.descend room (Context.withAtoms (value.evaluate limits bindings room)))
    | none => target.node.report (.nameless target.symbol)
  | _ + 1, _ => s.node.report (.unexpectedAction s.symbol s.action)

/-- The blocks that a chain of blocks is made of. -/
def parts : Derivation → List Derivation
  | .binary _ _ left right => left.parts ++ [right]
  | d => [d]

end Derivation

theorem statements_unary (id : NodeId) (node : Node) (child : Derivation) :
    (unary id node child).statements
      = if node.symbol = .statement then unary id node child :: child.statements
        else child.statements := by
  unfold statements
  rw [subtrees, List.filter_cons]
  simp only [symbol_unary, beq_iff_eq]

theorem statements_binary (id : NodeId) (node : Node) (left right : Derivation) :
    (binary id node left right).statements
      = if node.symbol = .statement then
          binary id node left right :: (left.statements ++ right.statements)
        else left.statements ++ right.statements := by
  unfold statements
  rw [subtrees, List.filter_cons, List.filter_append]
  simp only [symbol_binary, beq_iff_eq]

theorem Symbol.Ready.ne_block {s : Symbol} (h : s.Ready) : s ≠ .codeBlock ∧ s ≠ .statement := by
  rcases h with rfl | rfl <;> decide

/-- Statements are found in blocks and nowhere else. -/
theorem Shaped.statements_eq_nil {d : Derivation} (h : Shaped d) (hblock : d.symbol ≠ .codeBlock)
    (hs : d.symbol ≠ .statement) : d.statements = [] := by
  induction h with
  | token lexeme genuine => exact List.filter_cons_of_neg (by simpa using hs)
  | @occurrence id i name raw child ih =>
      have hi := symbol_of_isIdentifier raw
      exact (statements_unary _ _ _).trans (ih (by rw [hi]; decide) (by rw [hi]; decide))
  | folded fold parts ih =>
      cases fold with
      | block => exact absurd rfl hblock
      | single => exact absurd rfl hblock
      | assign => exact absurd rfl hs
      | @declare k i hk hi =>
          exact (statements_unary _ _ _).trans
            (ih i (by simp) (by rw [hi]; decide) (by rw [hi]; decide))
      | @negate k a hk ha =>
          exact (statements_unary _ _ _).trans (ih a (by simp) ha.ne_block.1 ha.ne_block.2)
      | @group o a e ho ha he =>
          exact (statements_unary _ _ _).trans (ih a (by simp) ha.ne_block.1 ha.ne_block.2)
      | @lift a ha =>
          exact (statements_unary _ _ _).trans
            (ih a (by simp) (by rw [ha]; decide) (by rw [ha]; decide))
      | @plain c a k b ha hk hb =>
          refine (statements_binary _ _ _ _).trans ?_
          rw [if_neg nofun, ih a (by simp) ha.ne_block.1 ha.ne_block.2,
            ih b (by simp) hb.ne_block.1 hb.ne_block.2]
          rfl
      | @pair c o a k b e ho ha hk hb he =>
          refine (statements_binary _ _ _ _).trans ?_
          rw [if_neg nofun, ih a (by simp) ha.ne_block.1 ha.ne_block.2,
            ih b (by simp) hb.ne_block.1 hb.ne_block.2]
          rfl

theorem Shaped.exists_name {d : Derivation} (h : Shaped d) (hs : d.symbol = .valVar) :
    ∃ name, d.name? = some name := by
  obtain ⟨x, hx, -⟩ := h.readOccurrence hs
  cases d with
  | leaf id node => cases hx
  | binary id node left right => cases hx
  | unary id node child =>
      cases hname : child.node.literal? with
      | some name => exact ⟨name, hname⟩
      | none =>
          simp only [readOccurrence?, hname, Option.map_none] at hx
          split at hx <;> cases hx

/-- A statement assigns the value of an expression to a variable. -/
theorem Shaped.exists_assignment {s : Derivation} (h : Shaped s) (hs : s.symbol = .statement) :
    ∃ id target value name, s = above id .statement .assign target (some value)
      ∧ Shaped target ∧ target.symbol = .valVar ∧ target.name? = some name
      ∧ Shaped value ∧ value.symbol.Valued := by
  obtain ⟨id, window, fold, parts⟩ := h.exists_fold (.inr (.inl hs))
  cases fold with
  | @assign k v a r e hk hv ha hr he =>
      have hshaped := parts v (by simp)
      obtain ⟨name, hname⟩ := hshaped.exists_name hv
      refine ⟨id, v, r, name, rfl, hshaped, hv, hname, parts r (by simp), ?_⟩
      rcases hr with hr | hr
      · exact .inr hr
      · exact .inl (.inr hr)
  | _ => cases hs

/-! ## 3. Blocks -/

theorem statements_block (id : NodeId) (l r : Derivation) :
    (above id .codeBlock .both l (some r)).statements = l.statements ++ r.statements :=
  (statements_binary ..).trans (if_neg nofun)

theorem Shaped.statements_statement {s : Derivation} (h : Shaped s) (hs : s.symbol = .statement) :
    s.statements = [s] := by
  obtain ⟨id, target, value, name, rfl, htarget, hvar, -, hvalue, hvalued⟩ := h.exists_assignment hs
  have hleft := htarget.statements_eq_nil (by rw [hvar]; decide) (by rw [hvar]; decide)
  have hright : value.statements = [] := by
    rcases hvalued with (hs | hs) | hs
    all_goals exact hvalue.statements_eq_nil (by rw [hs]; decide) (by rw [hs]; decide)
  refine (statements_binary ..).trans ?_
  rw [if_pos rfl, hleft, hright]
  rfl

theorem Shaped.statements_single {s : Derivation} (h : Shaped s) (hs : s.symbol = .statement)
    (id : NodeId) : (above id .codeBlock .left s none).statements = [s] :=
  (statements_unary ..).trans ((if_neg nofun).trans (h.statements_statement hs))

/-- Blocks are built in two ways. -/
theorem Shaped.block_induction {P : Derivation → Prop}
    (single : ∀ id s, Shaped s → s.symbol = .statement → P (above id .codeBlock .left s none))
    (block : ∀ id l r, Shaped l → l.symbol = .codeBlock → P l → Shaped r → r.symbol = .codeBlock →
      P r → P (above id .codeBlock .both l (some r)))
    {d : Derivation} (h : Shaped d) (hs : d.symbol = .codeBlock) : P d := by
  induction h with
  | token lexeme genuine =>
      obtain ⟨id, window, fold, -⟩ := (Shaped.token lexeme genuine).exists_fold (.inl hs)
      cases fold
  | occurrence => cases hs
  | @folded id window new fold parts ih =>
      cases fold with
      | @single s hstatement => exact single id s (parts s (by simp)) hstatement
      | @block l r hl hr =>
          exact block id l r (parts l (by simp)) hl (ih l (by simp) hl) (parts r (by simp)) hr
            (ih r (by simp) hr)
      | _ => cases hs

/-- What is read off a block as off its parts is read off its statements. -/
theorem Shaped.flatMap_block {α : Type} {f : Derivation → List α}
    (single : ∀ id s, f (above id .codeBlock .left s none) = f s)
    (block : ∀ id l r, f (above id .codeBlock .both l (some r)) = f l ++ f r)
    {d : Derivation} (h : Shaped d) (hs : d.symbol = .codeBlock) :
    d.statements.flatMap f = f d := by
  refine h.block_induction (P := fun d => d.statements.flatMap f = f d) ?_ ?_ hs
  · intro id s hshaped hstatement
    rw [hshaped.statements_single hstatement, List.flatMap_singleton, single]
  · intro id l r _ _ ihl _ _ ihr
    rw [statements_block, List.flatMap_append, ihl, ihr, block]

/-- The parts of a chain of blocks are blocks of the arena, no younger than the chain. -/
theorem Shaped.of_mem_parts {arena : Arena} {d : Derivation} (h : Shaped d)
    (hs : d.symbol = .codeBlock) (hholds : arena.Holds d) :
    ∀ p ∈ d.parts, Shaped p ∧ p.symbol = .codeBlock ∧ arena.Holds p ∧ p.id ≤ d.id := by
  refine h.block_induction (P := fun d => Shaped d → arena.Holds d → ∀ p ∈ d.parts,
    Shaped p ∧ p.symbol = .codeBlock ∧ arena.Holds p ∧ p.id ≤ d.id) ?_ ?_ hs h hholds
  · intro id s _ _ hshaped hholds p hp
    rw [List.mem_singleton.mp hp]
    exact ⟨hshaped, rfl, hholds, Nat.le_refl _⟩
  · intro id l r hl _ ihl hr hrs _ _ hholds p hp
    obtain ⟨-, -, hltl, hltr, hleft, hright⟩ := hholds
    rcases List.mem_append.mp hp with hp | hp
    · obtain ⟨hp, hps, hpholds, hle⟩ := ihl hl hleft p hp
      exact ⟨hp, hps, hpholds, Nat.le_trans hle (Nat.le_of_lt hltl)⟩
    · rw [List.mem_singleton.mp hp]
      exact ⟨hr, hrs, hright, Nat.le_of_lt hltr⟩

/-- Together they have the statements of the chain. -/
theorem Shaped.flatMap_parts {d : Derivation} (h : Shaped d) (hs : d.symbol = .codeBlock) :
    d.parts.flatMap statements = d.statements := by
  refine h.block_induction (P := fun d => d.parts.flatMap statements = d.statements) ?_ ?_ hs
  · exact fun id s _ _ => List.append_nil _
  · intro id l r _ _ ihl _ _ _
    rw [statements_block, ← ihl]
    show (l.parts ++ [r]).flatMap statements = _
    rw [List.flatMap_append, List.flatMap_singleton]

theorem forM_parts {σ : Type} {parts : List Derivation} {f : NodeId → Work σ Unit}
    {g : Derivation → Work σ Unit} (h : ∀ p ∈ parts, f p.id = p.statements.forM g) :
    (parts.map (·.id)).forM f = (parts.flatMap statements).forM g := by
  induction parts with
  | nil => rfl
  | cons p parts ih =>
      rw [List.flatMap_cons]
      show (f p.id >>= fun _ => (parts.map (·.id)).forM f) = _
      rw [h p (by simp), ih fun q hq => h q (List.mem_cons_of_mem p hq)]
      exact List.forM_append.symm

theorem Limits.ok_of_descend {σ α : Type} {limits : Limits} {room : Nat} {next : Work σ α} {s t : σ}
    {a : α} (h : (limits.descend room next).run s = .ok a t) : next.run s = .ok a t := by
  unfold Limits.descend at h
  split at h
  · cases h
  · exact h

theorem forM_congr_mem {σ α : Type} {xs : List α} {f g : α → Work σ Unit}
    (h : ∀ x ∈ xs, f x = g x) : xs.forM f = xs.forM g := by
  induction xs with
  | nil => rfl
  | cons x xs ih =>
      show (f x >>= fun _ => xs.forM f) = (g x >>= fun _ => xs.forM g)
      rw [h x (by simp), ih fun y hy => h y (List.mem_cons_of_mem x hy)]

theorem Shaped.of_mem_statements {arena : Arena} {d s : Derivation} (h : Shaped d)
    (hholds : arena.Holds d) (hmem : s ∈ d.statements) :
    Shaped s ∧ s.symbol = .statement ∧ arena.Holds s := by
  obtain ⟨hmem, hs⟩ := List.mem_filter.mp hmem
  exact ⟨h.subtree hmem, eq_of_beq hs, hholds.subtree hmem⟩

theorem child_left_above {σ : Type} (id : NodeId) (symbol : Symbol) (action : Action)
    (left : Derivation) (right : Option Derivation) :
    ((above id symbol action left right).node.child .left : Work σ NodeId) = pure left.id := by
  cases right <;> rfl

theorem child_right_above {σ : Type} (id : NodeId) (symbol : Symbol) (action : Action)
    (left right : Derivation) :
    ((above id symbol action left (some right)).node.child .right : Work σ NodeId) = pure right.id :=
  rfl

namespace Context

/-- Unrolling a chain gives its parts. -/
theorem spine_eq {σ : Type} {arena : Arena} {d : Derivation} (h : Shaped d)
    (hs : d.symbol = .codeBlock) (hholds : arena.Holds d) {length : Nat} (hlen : d.id < length)
    (later : List NodeId) :
    (spine arena length d.id later : Work σ (List NodeId))
      = pure (d.parts.map (·.id) ++ later) := by
  refine h.block_induction (P := fun d => arena.Holds d → ∀ length later, d.id < length →
    (spine arena length d.id later : Work σ (List NodeId)) = pure (d.parts.map (·.id) ++ later))
    ?_ ?_ hs hholds length later hlen
  · intro id s _ _ hholds length later hlen
    cases length with
    | zero => exact absurd hlen (Nat.not_lt_zero _)
    | succ length =>
        unfold spine
        rw [Arena.fetch_eq hholds.get?, pure_bind, if_neg nofun]
        rfl
  · intro id l r _ _ ihl _ _ _ hholds length later hlen
    cases length with
    | zero => exact absurd hlen (Nat.not_lt_zero _)
    | succ length =>
        have hget := hholds.get?
        obtain ⟨-, -, hltl, -, hleft, -⟩ := hholds
        unfold spine
        rw [Arena.fetch_eq hget, pure_bind, if_pos (by rfl), child_right_above, pure_bind,
          child_left_above, pure_bind,
          ihl hleft length _ (Nat.lt_of_lt_of_le hltl (Nat.le_of_lt_succ hlen))]
        show pure _ = pure ((l.parts ++ [r]).map (·.id) ++ later)
        rw [List.map_append, List.append_assoc]
        rfl

theorem blockParts_eq {σ : Type} {arena : Arena} {id : NodeId} {l r : Derivation} (hl : Shaped l)
    (hs : l.symbol = .codeBlock) (hholds : arena.Holds l) :
    (blockParts arena (above id .codeBlock .both l (some r)).node : Work σ (List NodeId))
      = pure ((l.parts ++ [r]).map (·.id)) := by
  unfold blockParts
  rw [child_right_above, pure_bind, child_left_above, pure_bind,
    spine_eq hl hs hholds (Nat.lt_succ_of_lt hholds.id_lt), List.map_append]
  rfl

/-- **What is walked at one depth below a block is its statements**, each one level further down. -/
theorem walkLevel_block {limits : Limits} {arena : Arena} {room : Nat}
    {deeper : NodeId → Work Context Unit} {d : Derivation} (h : Shaped d)
    (hs : d.symbol = .codeBlock) (hholds : arena.Holds d) {blocks : Nat} (hlt : d.id < blocks) :
    walkLevel limits arena room deeper blocks d.id = d.statements.forM fun s => deeper s.id := by
  induction blocks generalizing d with
  | zero => exact absurd hlt (Nat.not_lt_zero _)
  | succ blocks ih =>
      obtain ⟨id, window, fold, shaped⟩ := h.exists_fold (.inl hs)
      have hget := hholds.get?
      unfold walkLevel
      rw [Arena.fetch_eq hget, pure_bind]
      cases fold with
      | @single s hstatement =>
          rw [(shaped s (by simp)).statements_single hstatement]
          show (Node.child (above id .codeBlock .left s none).node .left >>= deeper)
            = (deeper s.id >>= fun _ => pure ())
          rw [child_left_above, pure_bind, bind_pure_unit]
      | @block l r hl hr =>
          have hl' := shaped l (by simp)
          obtain ⟨-, -, hltl, hltr, hleft, hright⟩ := hholds
          -- the parts were made before the chain, so the bound suffices for each of them
          have hparts : ∀ p ∈ l.parts ++ [r], walkLevel limits arena room deeper blocks p.id
              = p.statements.forM fun s => deeper s.id := by
            intro p hp
            have hle := Nat.le_of_lt_succ hlt
            rcases List.mem_append.mp hp with hp | hp
            · obtain ⟨hp, hps, hpholds, hpl⟩ := hl'.of_mem_parts hl hleft p hp
              exact ih hp hps hpholds (Nat.lt_of_le_of_lt hpl (Nat.lt_of_lt_of_le hltl hle))
            · rw [List.mem_singleton.mp hp]
              exact ih (shaped r (by simp)) hr hright (Nat.lt_of_lt_of_le hltr hle)
          show (blockParts arena (above id .codeBlock .both l (some r)).node >>= fun ids =>
            ids.forM (walkLevel limits arena room deeper blocks)) = _
          rw [blockParts_eq hl' hl hleft, pure_bind, forM_parts hparts, ← h.flatMap_parts hs]
          rfl
      | _ => cases hs

theorem lt_blockBound {limits : Limits} {arena : Arena} {id : Nat} (h : id < arena.size) :
    id < blockBound limits arena :=
  Nat.lt_of_lt_of_le (Nat.lt_succ_of_lt h) (Nat.le_mul_of_pos_right _ (Nat.succ_pos _))

theorem exists_blockBound (limits : Limits) (arena : Arena) :
    ∃ blocks, blockBound limits arena = blocks + 1 :=
  Nat.exists_eq_succ_of_ne_zero (Nat.mul_ne_zero (Nat.succ_ne_zero _) (Nat.succ_ne_zero _))

theorem variableName_of_name? {σ : Type} {arena : Arena} {d : Derivation} {name : String}
    (h : arena.Holds d) (hname : d.name? = some name) :
    (variableName arena d.node : Work σ String) = pure name := by
  cases d with
  | leaf id node => cases hname
  | binary id node left right => cases hname
  | unary id node child =>
      have hliteral : child.node.literal? = some name := hname
      exact (variableName_eq h).trans (by rw [hliteral])

/-- A walk does what the action of the node says; `blocks` is what is left of the bound. -/
theorem walkAt_succ {arena : Arena} {d : Derivation} (h : arena.Holds d) (limits : Limits)
    (room : Nat) :
    ∃ blocks, walkAt limits arena (room + 1) d.id
      = match d.node.action with
        | .both => do
          (← blockParts arena d.node).forM (walkLevel limits arena room
            (fun child => limits.descend room (walkAt limits arena room child)) blocks)
        | .left => do limits.descend room (walkAt limits arena room (← d.node.child .left))
        | .right => do limits.descend room (walkAt limits arena room (← d.node.child .right))
        | .assign => walkAssignment limits arena room d.node
        | action => d.node.report (.unexpectedAction d.node.symbol action) := by
  obtain ⟨blocks, hblocks⟩ := exists_blockBound limits arena
  refine ⟨blocks, ?_⟩
  conv => lhs; unfold walkAt
  rw [hblocks]
  conv => lhs; unfold walkLevel
  cases haction : d.node.action <;> simp only [Arena.fetch_eq h.get?, pure_bind, haction]

/-- Statements are walked one level below the root. -/
theorem walkAt_statement {limits : Limits} {arena : Arena} {s : Derivation} (h : Shaped s)
    (hs : s.symbol = .statement) (hholds : arena.Holds s) :
    walkAt limits arena limits.maxDepth s.id = s.perform limits := by
  obtain ⟨id, target, value, name, rfl, -, hvar, hname, hvalue, hvalued⟩ := h.exists_assignment hs
  have hleft := hholds.2.2.2.2.1
  have hright := hholds.2.2.2.2.2
  unfold perform
  cases hdepth : limits.maxDepth with
  | zero =>
      unfold walkAt
      rw [Arena.fetch_eq hholds.get?, pure_bind, hdepth]
  | succ room =>
      obtain ⟨blocks, hlevel⟩ := walkAt_succ hholds limits room
      rw [hlevel]
      show walkAssignment limits arena room (above id .statement .assign target (some value)).node
        = match target.name? with
          | some name => do
            let bindings := (← get).store.bindings
            assign name (← limits.descend room (withAtoms (value.evaluate limits bindings room)))
          | none => target.node.report (.nameless target.symbol)
      unfold walkAssignment
      rw [child_left_above, pure_bind, Arena.fetch_eq hleft.get?, pure_bind,
        if_neg (not_not_intro (show target.node.symbol = .valVar from hvar)),
        variableName_of_name? hleft hname, pure_bind, child_right_above, pure_bind, hname]
      simp only [evaluateAt_eq hvalue hvalued hright]

/-- **A walk performs the statements of the program in order.** -/
theorem walk_eq {arena : Arena} {d : Derivation} (h : Shaped d) (hs : d.symbol = .codeBlock)
    (hholds : arena.Holds d) :
    walk arena d.id = (do
      let limits := (← get).limits
      d.statements.forM (perform limits)) := by
  unfold walk
  refine bind_congr fun c => ?_
  show walkAt c.limits arena (c.limits.maxDepth + 1) d.id = d.statements.forM (perform c.limits)
  unfold walkAt
  rw [walkLevel_block h hs hholds (lt_blockBound hholds.id_lt)]
  refine forM_congr_mem fun s hmem => ?_
  obtain ⟨hshaped, hstatement, hheld⟩ := h.of_mem_statements hholds hmem
  rw [Limits.descend_of_lt (Nat.lt_add_of_pos_left (by decide))]
  exact walkAt_statement hshaped hstatement hheld

/-! ## 4. What cannot be walked -/

section Refusals

variable {limits : Limits} {arena : Arena} {room : Nat} {d : Derivation} {c c' : Context}

theorem exists_level (h : (walkAt limits arena room d.id).run c = .ok () c')
    (hholds : arena.Holds d) :
    ∃ below blocks, (walkLevel limits arena below
      (fun child => limits.descend below (walkAt limits arena below child)) (blocks + 1) d.id).run c
        = .ok () c' := by
  cases room with
  | zero =>
      unfold walkAt at h
      rw [Arena.fetch_eq hholds.get?, pure_bind] at h
      cases h
  | succ below =>
      unfold walkAt at h
      obtain ⟨blocks, hblocks⟩ := exists_blockBound limits arena
      rw [hblocks] at h
      exact ⟨below, blocks, h⟩

/-- A walk that succeeds finds something to carry out and not a value. -/
theorem action_of_walkAt (h : (walkAt limits arena room d.id).run c = .ok () c')
    (hholds : arena.Holds d) :
    d.action = .both ∨ d.action = .left ∨ d.action = .right ∨ d.action = .assign := by
  obtain ⟨below, blocks, hlevel⟩ := exists_level h hholds
  unfold walkLevel at hlevel
  rw [Arena.fetch_eq hholds.get?, pure_bind] at hlevel
  show d.node.action = _ ∨ d.node.action = _ ∨ d.node.action = _ ∨ d.node.action = _
  cases haction : d.node.action <;> rw [haction] at hlevel <;> first | cases hlevel | simp

/-- Where the action is to go left, it succeeds on the left. -/
theorem left_of_walkAt {id : NodeId} {s : Symbol} {a : Derivation}
    (h : (walkAt limits arena room (above id s .left a none).id).run c = .ok () c')
    (hholds : arena.Holds (above id s .left a none)) :
    ∃ below, (walkAt limits arena below a.id).run c = .ok () c' := by
  obtain ⟨below, blocks, hlevel⟩ := exists_level h hholds
  unfold walkLevel at hlevel
  rw [Arena.fetch_eq hholds.get?, pure_bind] at hlevel
  exact ⟨below, Limits.ok_of_descend hlevel⟩

/-- **Only blocks and statements can be walked.** -/
theorem symbol_of_walkAt (hshaped : Shaped d) (hholds : arena.Holds d)
    (h : (walkAt limits arena room d.id).run c = .ok () c') :
    d.symbol = .codeBlock ∨ d.symbol = .statement := by
  induction hshaped generalizing room with
  | @token id node l lexeme genuine =>
      have haction := action_of_walkAt h hholds
      have hleaf : (leaf id node).action = l.action := (Node.lexeme?_eq_some lexeme).2.1
      rw [hleaf] at haction
      cases genuine with
      | word => rcases haction with h | h | h | h <;> cases h
      | name => rcases haction with h | h | h | h <;> cases h
      | constant k =>
          rcases k with (_ | _) | _ <;> rcases haction with h | h | h | h <;> cases h
  -- below parentheses and variables the walk goes on, but it never comes to a statement there
  | @occurrence id i name raw child ih =>
      obtain ⟨below, hbelow⟩ := left_of_walkAt h hholds
      have hs := ih hholds.2.2.2 hbelow
      rw [symbol_of_isIdentifier raw] at hs
      rcases hs with hs | hs <;> cases hs
  | folded fold parts ih =>
      have haction := action_of_walkAt h hholds
      cases fold with
      | block => exact .inl rfl
      | single => exact .inl rfl
      | assign => exact .inr rfl
      | @group o a e ho ha he =>
          obtain ⟨below, hbelow⟩ := left_of_walkAt h hholds
          have hs := ih a (by simp) hholds.2.2.2 hbelow
          rcases ha with ha | ha <;> rw [ha] at hs <;> rcases hs with hs | hs <;> cases hs
      | @lift a ha =>
          obtain ⟨below, hbelow⟩ := left_of_walkAt h hholds
          have hs := ih a (by simp) hholds.2.2.2 hbelow
          rw [ha] at hs
          rcases hs with hs | hs <;> cases hs
      | plain c => cases c <;> rcases haction with h | h | h | h <;> cases h
      | pair c => cases c <;> rcases haction with h | h | h | h <;> cases h
      | _ => rcases haction with h | h | h | h <;> cases h

end Refusals

end Context

end Trivalent
