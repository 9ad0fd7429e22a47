import Trivalent.Proofs.Grammar.Standard
import Trivalent.Proofs.Token.Lexeme

/-!
# What a parse builds

The tree of a program holds no words and no delimiters, and its children are picked from windows by
position. Still nothing of the source is lost: every node knows by its symbol and its action which
words stood around its children. This file says so for every row of leaves that a parse accepts.

* `parse_run` -- the outcome of a parse as a run from the row of leaves;
* `layout` -- the words and the children of a node, by symbol and action;
* `Derivation.unparse` -- the lexemes below a node, read back along the layouts;
* `Derivation.Formed` -- a leaf, or a node whose layout is a frame of the grammar, or a variable
  over an identifier;
* `Shaped` -- what a parse of genuine leaves can build, with one case for each way to build it;
  `Step.shaped` is the step lemma;
* `Step.flatMap_eq` -- whatever a fold reads off a window as off the parts of the window, a step
  reads off the row unchanged;
* `parse_unparse` -- **no token is lost, doubled, invented or moved.**
-/

namespace Trivalent

open Trivalent.Derivation

/-! ## 1. The run behind a parse -/

/-- The leaves of a program as the row that a parse starts from. -/
def leafRow (leaves : List Node) : List Derivation := leaves.mapIdx .leaf

theorem Arena.get?_pushAll (nodes : List Node) :
    ∀ (arena : Arena) (id : Nat), (arena.pushAll nodes).get? id
      = if id < arena.size then arena.get? id else nodes[id - arena.size]? := by
  induction nodes with
  | nil =>
      intro arena id
      show arena.get? id = _
      split
      · rfl
      · rename_i hge
        exact Array.getElem?_eq_none (Nat.le_of_not_lt hge)
  | cons node nodes ih =>
      intro arena id
      show ((arena.push node).pushAll nodes).get? id = _
      rw [ih, size_push, get?_push]
      by_cases hlt : id < arena.size
      · rw [if_pos (Nat.lt_succ_of_lt hlt), if_neg (Nat.ne_of_lt hlt), if_pos hlt]
      · rw [if_neg hlt]
        by_cases heq : id = arena.size
        · subst heq
          rw [if_pos (Nat.lt_succ_self _), if_pos rfl, Nat.sub_self]
          rfl
        · have hsub : id - arena.size = id - (arena.size + 1) + 1 := by omega
          rw [if_neg (by omega), hsub, List.getElem?_cons_succ]

theorem ids_leafRow (leaves : List Node) :
    (leafRow leaves).map (·.id) = List.range leaves.length := by
  apply List.ext_getElem
  · simp [leafRow]
  · intro i h₁ h₂
    simp [leafRow, Derivation.id]

theorem holds_leafRow (leaves : List Node) (journal : Journal) :
    ∀ d ∈ leafRow leaves, (Workspace.ofLeaves leaves journal).arena.Holds d := by
  intro d hd
  obtain ⟨i, hi, rfl⟩ := List.mem_mapIdx.mp hd
  show (({} : Arena).pushAll leaves).get? i = some leaves[i]
  rw [Arena.get?_pushAll, show ({} : Arena).size = 0 from rfl, if_neg (Nat.not_lt_zero i)]
  exact List.getElem?_eq_getElem hi

/-- **The outcome of a parse.** A program with a leaf is run until no window is a frame; the one
node that is left is the root, and more than one are irreducible. -/
theorem parse_run {leaves : List Node} (hne : leaves ≠ []) (journal : Journal) :
    ∃ steps names row w, Run .standard .bind steps (leafRow leaves) names row
      ∧ Workspace.Grown (.ofLeaves leaves journal) w names row
      ∧ Grammar.standard.find (row.map symbol) = none
      ∧ ((∃ d, row = [d] ∧ parse leaves journal = .ok d.id w)
        ∨ ∃ span line, 2 ≤ row.length ∧ parse leaves journal
            = .error (.diagnostic ⟨.irreducible (row.map symbol), some span, line⟩) w) := by
  have hrow : leafRow leaves ≠ [] := by
    intro h
    exact hne (List.mapIdx_eq_nil_iff.mp h)
  have h := @Workspace.reduce_run .standard .bind _ (.ofLeaves leaves journal) _
    Grammar.ranked_standard (holds_leafRow leaves journal) hrow
  rw [ids_leafRow] at h
  exact h

theorem parse_nil (journal : Journal) :
    parse [] journal
      = .error (.diagnostic ⟨.unexpectedEnd, none, 1⟩) (.ofLeaves [] journal) := rfl

/-! ## 2. Layouts -/

/-- A part of what a node was folded from. -/
inductive Part where
  | word (s : Symbol)
  | left
  | right
  deriving DecidableEq, Repr

/-- What a node is and what it does. -/
def Node.role (n : Node) : Symbol × Action := (n.symbol, n.action)

/-- The words and the children of a node, in the order in which they are written. -/
def layout : Symbol × Action → List Part
  | (.codeBlock, .both) => [.left, .right]
  | (.codeBlock, .left) => [.left]
  | (.statement, .assign) => [.word .defWord, .left, .word .asWord, .right, .word .semicolon]
  | (.valVar, .bind) => [.word .valWord, .left]
  | (.valVar, .left) => [.left]
  | (.operand, .negate) => [.word .notWord, .left]
  | (.operand, .disjoin) => [.word .openParen, .left, .word .orWord, .right, .word .closeParen]
  | (.operand, .conjoin) => [.word .openParen, .left, .word .andWord, .right, .word .closeParen]
  | (.operand, .left) => [.word .openParen, .left, .word .closeParen]
  | (.expression, .disjoin) => [.left, .word .orWord, .right]
  | (.expression, .conjoin) => [.left, .word .andWord, .right]
  | (.expression, .left) => [.left]
  | _ => []

theorem layout_plain (c : Connective) :
    layout (.expression, c.action) = [.left, .word c.word, .right] := by
  cases c <;> rfl

theorem layout_pair (c : Connective) :
    layout (.operand, c.action)
      = [.word .openParen, .left, .word c.word, .right, .word .closeParen] := by
  cases c <;> rfl

theorem spelling_word (c : Connective) : c.word.spelling?.isSome := by
  cases c <;> rfl

/-- A part with something in place of the word or of the child. -/
def Part.fill {α : Type} (word : Symbol → α) (left right : List α) : Part → List α
  | .word s => [word s]
  | .left => left
  | .right => right

namespace Derivation

/-- The lexemes below a node. A leaf gives its own, all other nodes follow their layout. -/
def unparse : Derivation → List Lexeme
  | .leaf _ node => node.lexeme?.toList
  | .unary _ node child => (layout node.role).flatMap (Part.fill Lexeme.ofWord child.unparse [])
  | .binary _ node left right =>
    (layout node.role).flatMap (Part.fill Lexeme.ofWord left.unparse right.unparse)

/-- The symbols that a node was folded from, by its layout. -/
def frame : Derivation → List Symbol
  | .leaf _ _ => []
  | .unary _ node child => (layout node.role).flatMap (Part.fill (fun s => s) [child.symbol] [])
  | .binary _ node left right =>
    (layout node.role).flatMap (Part.fill (fun s => s) [left.symbol] [right.symbol])

/-- A node as a parse leaves it: a leaf with a text; a node whose layout is a frame of the grammar,
with the children where the production of the frame picks them; or a variable over an identifier. -/
inductive Formed : Derivation → Prop
  | terminal {id : NodeId} {node : Node} (h : node.literal?.isSome) : Formed (.leaf id node)
  | production {d : Derivation} {p : Production} (lookup : Grammar.standard.lookup d.frame = some p)
      (role : d.node.role = (p.result, p.action))
      (children : d.children.length = if p.hasRight then 2 else 1)
      (left : (layout d.node.role)[p.left]? = some .left)
      (right : p.hasRight → (layout d.node.role)[p.right]? = some .right) : Formed d
  | occurrence {id i : NodeId} {node leaf : Node} (role : node.role = (.valVar, .left))
      (symbol : leaf.symbol = .identifier) (text : leaf.literal?.isSome) :
      Formed (.unary id node (.leaf i leaf))

end Derivation

/-! ## 3. Shapes -/

theorem symbol_of_isIdentifier {i : Derivation} {name : String}
    (h : i.node.isIdentifier name = true) : i.symbol = .identifier :=
  eq_of_beq (Bool.and_eq_true_iff.mp h).1

/-- What a parse of genuine leaves can build: a leaf, a variable over an identifier, or a node that
a window of such derivations is folded into. -/
inductive Shaped : Derivation → Prop
  | token {id : NodeId} {node : Node} {l : Lexeme} (lexeme : node.lexeme? = some l)
      (genuine : l.Genuine) : Shaped (.leaf id node)
  | occurrence {id : NodeId} {i : Derivation} {name : String} (raw : i.node.isIdentifier name)
      (child : Shaped i) : Shaped (above id .valVar .left i none)
  | folded {id : NodeId} {window : List Derivation} {new : Derivation} (fold : Folds id window new)
      (parts : ∀ d ∈ window, Shaped d) : Shaped new

theorem Folds.isFolded {next : NodeId} {window : List Derivation} {new : Derivation}
    (h : Folds next window new) : new.symbol.isFolded := by
  cases h <;> rfl

namespace Shaped

/-- A word, a delimiter or an identifier is a leaf. -/
theorem eq_leaf {d : Derivation} (h : Shaped d) (hs : d.symbol.isFolded = false) :
    ∃ id node l, d = .leaf id node ∧ node.lexeme? = some l ∧ l.Genuine
      ∧ l.symbol = d.symbol := by
  cases h with
  | @token id node l lexeme genuine =>
      exact ⟨id, node, l, rfl, lexeme, genuine, (Node.lexeme?_eq_some lexeme).1.symm⟩
  | occurrence => cases hs
  | folded fold => rw [fold.isFolded] at hs; cases hs

/-- A block, a statement or an expression was folded from a window. -/
theorem exists_fold {d : Derivation} (h : Shaped d)
    (hs : d.symbol = .codeBlock ∨ d.symbol = .statement ∨ d.symbol = .expression) :
    ∃ id window, Folds id window d ∧ ∀ e ∈ window, Shaped e := by
  cases h with
  | @token id node l lexeme genuine =>
      rw [symbol_leaf, (Node.lexeme?_eq_some lexeme).1] at hs
      have hfolded : l.symbol.isFolded := by
        rcases hs with hs | hs | hs <;> (rw [hs]; rfl)
      rw [genuine.symbol_eq_operand hfolded] at hs
      rcases hs with hs | hs | hs <;> cases hs
  | occurrence => rcases hs with hs | hs | hs <;> cases hs
  | @folded id window new fold parts => exact ⟨id, window, fold, parts⟩

/-- A word or a delimiter gives itself. -/
theorem unparse_word {d : Derivation} (h : Shaped d) (hs : d.symbol.spelling?.isSome) :
    d.unparse = [.ofWord d.symbol] := by
  obtain ⟨id, node, l, rfl, hlexeme, hgenuine, hsymbol⟩ := h.eq_leaf (Symbol.isFolded_of_spelling hs)
  show node.lexeme?.toList = _
  rw [← hsymbol] at hs ⊢
  rw [hlexeme, ← hgenuine.eq_ofWord hs]
  rfl

/-- An identifier gives its name. -/
theorem unparse_identifier {d : Derivation} (h : Shaped d) (hs : d.symbol = .identifier) :
    ∃ id node name, d = .leaf id node ∧ node.lexeme? = some (.ofName name) := by
  obtain ⟨id, node, l, rfl, hlexeme, hgenuine, hsymbol⟩ := h.eq_leaf (by rw [hs]; rfl)
  rw [hs] at hsymbol
  cases hgenuine with
  | word hword => cases hsymbol; cases hword
  | name text => exact ⟨id, node, text, rfl, hlexeme⟩
  | constant c => rw [c.symbol_lexeme] at hsymbol; cases hsymbol

end Shaped

/-- **A fold loses nothing**: the new node gives the lexemes of the window. -/
theorem Folds.unparse_eq {next : NodeId} {window : List Derivation} {new : Derivation}
    (h : Folds next window new) (hparts : ∀ d ∈ window, Shaped d) :
    new.unparse = window.flatMap unparse := by
  have hword : ∀ {d : Derivation} {s : Symbol}, d ∈ window → d.symbol = s → s.spelling?.isSome →
      d.unparse = [.ofWord s] := by
    intro d s hd hs hspelled
    subst hs
    exact (hparts d hd).unparse_word hspelled
  cases h with
  | block hl hr => rfl
  | single hs => rfl
  | assign hk hv ha hr he =>
      simp [above, unparse, layout, Node.role, Part.fill, hword _ hk rfl, hword _ ha rfl,
        hword _ he rfl]
  | declare hk hi => simp [above, unparse, layout, Node.role, Part.fill, hword _ hk rfl]
  | negate hk ha => simp [above, unparse, layout, Node.role, Part.fill, hword _ hk rfl]
  | group ho ha he =>
      simp [above, unparse, layout, Node.role, Part.fill, hword _ ho rfl, hword _ he rfl]
  | lift ha => rfl
  | plain c ha hk hb =>
      simp [above, unparse, layout_plain, Node.role, Part.fill, hword _ hk (spelling_word c)]
  | pair c ho ha hk hb he =>
      simp [above, unparse, layout_pair, Node.role, Part.fill, hword _ ho rfl,
        hword _ hk (spelling_word c), hword _ he rfl]

/-- A variable over an identifier gives what the identifier gives. -/
theorem unparse_occurrence (id : NodeId) (i : Derivation) :
    (above id .valVar .left i none).unparse = i.unparse := List.append_nil _

/-- The layout of a folded node is the frame that it was folded from. -/
theorem Folds.formed {next : NodeId} {window : List Derivation} {new : Derivation}
    (h : Folds next window new) : new.Formed := by
  have hstandard : ∀ {frame p}, Grammar.StandardFrame frame p →
      Grammar.standard.lookup frame = some p := Grammar.lookup_standard_iff.mpr
  cases h with
  | @block l r hl hr =>
      have hframe : Grammar.StandardFrame [l.symbol, r.symbol] ⟨.codeBlock, .both, 0, 1, false⟩ := by
        rw [hl, hr]
        exact .block
      exact .production (hstandard hframe) rfl rfl rfl fun _ => rfl
  | @single s hs =>
      have hframe : Grammar.StandardFrame [s.symbol] ⟨.codeBlock, .left, 0, 0, false⟩ := by
        rw [hs]
        exact .single
      exact .production (hstandard hframe) rfl rfl rfl fun h => by cases h
  | @assign k v a r e hk hv ha hr he =>
      have hframe : Grammar.StandardFrame [.defWord, v.symbol, .asWord, r.symbol, .semicolon]
          ⟨.statement, .assign, 1, 3, false⟩ := by
        rw [hv]
        exact .assign hr
      exact .production (hstandard hframe) rfl rfl rfl fun _ => rfl
  | @declare k i hk hi =>
      have hframe : Grammar.StandardFrame [.valWord, i.symbol] ⟨.valVar, .bind, 1, 1, true⟩ := by
        rw [hi]
        exact .declare
      exact .production (hstandard hframe) rfl rfl rfl fun h => by cases h
  | negate hk ha =>
      have hframe := Grammar.StandardFrame.negate ha
      exact .production (hstandard hframe) rfl rfl rfl fun h => by cases h
  | group ho ha he =>
      have hframe := Grammar.StandardFrame.group ha
      exact .production (hstandard hframe) rfl rfl rfl fun h => by cases h
  | @lift a ha =>
      have hframe : Grammar.StandardFrame [a.symbol] ⟨.expression, .left, 0, 0, false⟩ := by
        rw [ha]
        exact .lift
      exact .production (hstandard hframe) rfl rfl rfl fun h => by cases h
  | plain c ha hk hb =>
      have hframe := hstandard (.plain c ha hb)
      cases c <;> exact .production hframe rfl rfl rfl fun _ => rfl
  | pair c ho ha hk hb he =>
      have hframe := hstandard (.pair c ha hb)
      cases c <;> exact .production hframe rfl rfl rfl fun _ => rfl

/-- The children of a folded node are in the window. -/
theorem Folds.mem_window {next : NodeId} {window : List Derivation} {new c : Derivation}
    (h : Folds next window new) (hc : c ∈ new.children) : c ∈ window := by
  cases h <;> simp only [above, children, List.mem_cons, List.not_mem_nil, or_false] at hc ⊢
  all_goals first | exact hc | (rcases hc with rfl | rfl <;> simp)

theorem mem_subtrees_iff {d e : Derivation} :
    e ∈ d.subtrees ↔ e = d ∨ ∃ c ∈ d.children, e ∈ c.subtrees := by
  cases d with
  | leaf id node => simp [subtrees, children]
  | unary id node child => simp [subtrees, children]
  | binary id node left right => simp [subtrees, children]

theorem leaf_mem_subtrees {d : Derivation} {l : NodeId × Node} (h : l ∈ d.leaves) :
    .leaf l.1 l.2 ∈ d.subtrees := by
  induction d with
  | leaf id node =>
      rw [List.mem_singleton.mp h]
      exact List.mem_singleton.mpr rfl
  | unary id node child ih => exact List.mem_cons_of_mem _ (ih h)
  | binary id node left right ihl ihr =>
      rcases List.mem_append.mp h with h | h
      · exact List.mem_cons_of_mem _ (List.mem_append_left _ (ihl h))
      · exact List.mem_cons_of_mem _ (List.mem_append_right _ (ihr h))

namespace Shaped

/-- Whatever lies in a shaped derivation is shaped. -/
theorem subtree {d e : Derivation} (h : Shaped d) (he : e ∈ d.subtrees) : Shaped e := by
  induction h with
  | @token id node l lexeme genuine =>
      rw [List.mem_singleton.mp he]
      exact .token lexeme genuine
  | @occurrence id i name raw child ih =>
      rcases List.mem_cons.mp he with rfl | he
      · exact @Shaped.occurrence id i name raw child
      · exact ih he
  | folded fold parts ih =>
      rcases mem_subtrees_iff.mp he with rfl | ⟨c, hc, he⟩
      · exact .folded fold parts
      · exact ih c (fold.mem_window hc) he

theorem formed {d : Derivation} (h : Shaped d) : d.Formed := by
  cases h with
  | @token id node l lexeme genuine =>
      exact .terminal (by rw [(Node.lexeme?_eq_some lexeme).2.2]; rfl)
  | @occurrence id i name raw child =>
      have hraw := Bool.and_eq_true_iff.mp raw
      have hsymbol : i.symbol = .identifier := eq_of_beq hraw.1
      obtain ⟨iid, node, l, rfl, -, -, -⟩ := child.eq_leaf (by rw [hsymbol]; rfl)
      have htext : node.literal? = some name := eq_of_beq hraw.2
      exact .occurrence rfl hsymbol (by rw [htext]; rfl)
  | folded fold parts => exact fold.formed

/-- The leaves of a shaped derivation have texts. -/
theorem literal_isSome {d : Derivation} (h : Shaped d) : ∀ l ∈ d.leaves, l.2.literal?.isSome := by
  intro l hl
  cases (h.subtree (leaf_mem_subtrees hl)).formed with
  | terminal htext => exact htext
  | @production d p lookup role children left right =>
      simp only [Derivation.children, List.length_nil] at children
      split at children <;> cases children

end Shaped

/-! ## 4. What steps keep -/

theorem mem_coverAll {symbol : Symbol} {name : String} {d : Derivation} :
    ∀ {row : List Derivation} {next : NodeId}, d ∈ coverAll symbol name next row →
      d ∈ row ∨ ∃ id, ∃ i ∈ row, i.node.isIdentifier name ∧ d = above id symbol .left i none
  | e :: row, next, h => by
      unfold coverAll at h
      split at h
      · rename_i hname
        rcases List.mem_cons.mp h with rfl | h
        · exact .inr ⟨next, e, List.mem_cons_self, hname, rfl⟩
        · rcases mem_coverAll h with h | ⟨id, i, hi, hd⟩
          · exact .inl (List.mem_cons_of_mem _ h)
          · exact .inr ⟨id, i, List.mem_cons_of_mem _ hi, hd⟩
      · rcases List.mem_cons.mp h with rfl | h
        · exact .inl List.mem_cons_self
        · rcases mem_coverAll h with h | ⟨id, i, hi, hd⟩
          · exact .inl (List.mem_cons_of_mem _ h)
          · exact .inr ⟨id, i, List.mem_cons_of_mem _ hi, hd⟩

theorem flatMap_coverAll {α : Type} {f : Derivation → List α} {symbol : Symbol} {name : String}
    (hcover : ∀ id i, i.node.isIdentifier name → f (above id symbol .left i none) = f i) :
    ∀ (row : List Derivation) (next : NodeId),
      (coverAll symbol name next row).flatMap f = row.flatMap f
  | [], _ => rfl
  | d :: row, next => by
      unfold coverAll
      split
      · rename_i hname
        rw [List.flatMap_cons, List.flatMap_cons, hcover _ _ hname, flatMap_coverAll hcover row]
      · rw [List.flatMap_cons, List.flatMap_cons, flatMap_coverAll hcover row]

namespace Step

variable {next : NodeId} {row row' : List Derivation} {declared : Option String}

/-- **A step builds shaped derivations from shaped derivations.** -/
theorem shaped (h : Step .standard .bind next row declared row') (hrow : ∀ d ∈ row, Shaped d) :
    ∀ d ∈ row', Shaped d := by
  obtain ⟨before, window, after, new, rfl, hfolds, -, -, rfl⟩ := h.folds
  have hnew : ∀ d ∈ before ++ new :: after, Shaped d := by
    intro d hd
    rcases List.mem_append.mp hd with hd | hd
    · exact hrow d (List.mem_append_left _ (List.mem_append_left _ hd))
    · rcases List.mem_cons.mp hd with rfl | hd
      · exact .folded hfolds fun e he =>
          hrow e (List.mem_append_left _ (List.mem_append_right _ he))
      · exact hrow d (List.mem_append_right _ hd)
  cases declared with
  | none => exact hnew
  | some name =>
      intro d hd
      rcases mem_coverAll hd with hd | ⟨id, i, hi, hname, rfl⟩
      · exact hnew d hd
      · exact .occurrence hname (hnew i hi)

/-- **What is read off derivations from left to right, a step leaves unchanged**, if every fold and
every covered identifier does. -/
theorem flatMap_eq {α : Type} {f : Derivation → List α}
    (hfold : ∀ {next window new}, Folds next window new → (∀ d ∈ window, Shaped d) →
      f new = window.flatMap f)
    (hcover : ∀ id i name, i.node.isIdentifier name → f (above id .valVar .left i none) = f i)
    (h : Step .standard .bind next row declared row') (hrow : ∀ d ∈ row, Shaped d) :
    row'.flatMap f = row.flatMap f := by
  obtain ⟨before, window, after, new, rfl, hfolds, -, -, rfl⟩ := h.folds
  have hnew : (before ++ new :: after).flatMap f = (before ++ window ++ after).flatMap f := by
    rw [List.flatMap_append, List.flatMap_cons, List.flatMap_append, List.flatMap_append,
      hfold hfolds fun d hd => hrow d (List.mem_append_left _ (List.mem_append_right _ hd)),
      List.append_assoc]
  cases declared with
  | none => exact hnew
  | some name => rw [bindAll_some, flatMap_coverAll (hcover · · name), hnew]

end Step

/-- **A run reads the same off its last row as off its first one.** -/
theorem Run.flatMap_eq {α : Type} {f : Derivation → List α}
    (hfold : ∀ {next window new}, Folds next window new → (∀ d ∈ window, Shaped d) →
      f new = window.flatMap f)
    (hcover : ∀ id i name, i.node.isIdentifier name → f (above id .valVar .left i none) = f i)
    {steps : Nat} {row row' : List Derivation} {names : List String}
    (h : Run .standard .bind steps row names row') (hrow : ∀ d ∈ row, Shaped d) :
    (∀ d ∈ row', Shaped d) ∧ row'.flatMap f = row.flatMap f := by
  refine h.preserves (P := fun r => (∀ d ∈ r, Shaped d) ∧ r.flatMap f = row.flatMap f) ?_
    ⟨hrow, rfl⟩
  intro next r declared r' hstep ⟨hshaped, heq⟩
  exact ⟨hstep.shaped hshaped, (hstep.flatMap_eq hfold hcover hshaped).trans heq⟩

/-! ## 5. Accepted programs -/

/-- The leaves have genuine lexemes, as those of a source have. -/
def GenuineLeaves (leaves : List Node) : Prop :=
  ∀ n ∈ leaves, ∃ l : Lexeme, n.lexeme? = some l ∧ l.Genuine

/-- An accepted program has a run that ends in its root. -/
theorem parse_ok {leaves : List Node} {journal : Journal} {root : NodeId} {w : Workspace}
    (h : parse leaves journal = .ok root w) :
    ∃ steps names d, Run .standard .bind steps (leafRow leaves) names [d] ∧ d.id = root
      ∧ Workspace.Grown (.ofLeaves leaves journal) w names [d]
      ∧ Grammar.standard.find [d.symbol] = none := by
  have hne : leaves ≠ [] := by
    rintro rfl
    rw [parse_nil] at h
    cases h
  obtain ⟨steps, names, row, w', hrun, hgrown, hnone, hok | herror⟩ := parse_run hne journal
  · obtain ⟨d, rfl, hok⟩ := hok
    rw [h] at hok
    cases hok
    exact ⟨steps, names, d, hrun, rfl, hgrown, hnone⟩
  · obtain ⟨span, line, -, herror⟩ := herror
    rw [h] at herror
    cases herror

theorem shaped_leafRow {leaves : List Node} (hgenuine : GenuineLeaves leaves) :
    ∀ d ∈ leafRow leaves, Shaped d := by
  intro d hd
  obtain ⟨i, hi, rfl⟩ := List.mem_mapIdx.mp hd
  obtain ⟨l, hlexeme, hl⟩ := hgenuine leaves[i] (List.getElem_mem hi)
  exact .token hlexeme hl

theorem flatMap_leafRow {α : Type} (f : Derivation → List α) (g : Node → List α)
    (hleaf : ∀ id node, f (.leaf id node) = g node) (leaves : List Node) :
    (leafRow leaves).flatMap f = leaves.flatMap g := by
  rw [leafRow, List.flatMap_def, List.flatMap_def]
  congr 1
  apply List.ext_getElem
  · simp
  · intro i h₁ h₂
    simp [hleaf]

theorem spells_leafRow {leaves : List Node} (hgenuine : GenuineLeaves leaves) :
    Spells leaves ((leafRow leaves).flatMap unparse) := by
  rw [flatMap_leafRow unparse (·.lexeme?.toList) (fun _ _ => rfl)]
  induction leaves with
  | nil => rfl
  | cons n leaves ih =>
      obtain ⟨l, hlexeme, -⟩ := hgenuine n List.mem_cons_self
      have hrest := ih fun m hm => hgenuine m (List.mem_cons_of_mem _ hm)
      show n.lexeme? :: leaves.map Node.lexeme? = _
      rw [hrest, List.flatMap_cons, hlexeme]
      rfl

/-- Along a run from the leaves, every row is shaped and spells the leaves. -/
theorem Run.spells {leaves : List Node} {steps : Nat} {names : List String}
    {row : List Derivation} (hgenuine : GenuineLeaves leaves)
    (h : Run .standard .bind steps (leafRow leaves) names row) :
    (∀ d ∈ row, Shaped d) ∧ Spells leaves (row.flatMap unparse) := by
  obtain ⟨hshaped, heq⟩ := h.flatMap_eq (f := unparse) (fun hfold hparts => hfold.unparse_eq hparts)
    (fun id i _ _ => unparse_occurrence id i) (shaped_leafRow hgenuine)
  rw [heq]
  exact ⟨hshaped, spells_leafRow hgenuine⟩

theorem Shaped.unfolds {arena : Arena} {d : Derivation} (h : Shaped d) (hholds : arena.Holds d) :
    arena.Unfolds d.id d :=
  ⟨hholds, rfl, h.literal_isSome⟩

/-- What lies below the root of an accepted program is shaped, and a run leads to it. -/
theorem exists_run_of_unfolds {leaves : List Node} {journal : Journal} {root : NodeId}
    {w : Workspace} {d : Derivation} (hgenuine : GenuineLeaves leaves)
    (hparse : parse leaves journal = .ok root w) (hunfolds : w.arena.Unfolds root d) :
    Shaped d ∧ ∃ steps names, Run .standard .bind steps (leafRow leaves) names [d] := by
  obtain ⟨steps, names, e, hrun, rfl, hgrown, -⟩ := parse_ok hparse
  have he : Shaped e := (hrun.spells hgenuine).1 e List.mem_cons_self
  obtain rfl := hunfolds.unique (he.unfolds (hgrown.holds e List.mem_cons_self))
  exact ⟨he, steps, names, hrun⟩

/-- There is something below the root of an accepted program, and it cannot be reduced. -/
theorem exists_unfolds {leaves : List Node} {journal : Journal} {root : NodeId} {w : Workspace}
    (hgenuine : GenuineLeaves leaves) (hparse : parse leaves journal = .ok root w) :
    ∃ d, Shaped d ∧ w.arena.Unfolds root d ∧ Grammar.standard.find [d.symbol] = none := by
  obtain ⟨steps, names, d, hrun, rfl, hgrown, hnone⟩ := parse_ok hparse
  have hd : Shaped d := (hrun.spells hgenuine).1 d List.mem_cons_self
  exact ⟨d, hd, hd.unfolds (hgrown.holds d List.mem_cons_self), hnone⟩

/-- **No token is lost, doubled, invented or moved.** What lies below the root of an accepted source
has only well-formed nodes, and read back along their layouts it gives the tokens of the source. -/
theorem parse_unparse {source : String} {leaves : List Node} {journal : Journal} {root : NodeId}
    {w : Workspace} (htokens : tokenize source = .ok leaves)
    (hparse : parse leaves journal = .ok root w) :
    ∃ d, w.arena.Unfolds root d ∧ (∀ e ∈ d.subtrees, e.Formed) ∧ Spells leaves d.unparse := by
  obtain ⟨steps, names, d, hrun, rfl, hgrown, -⟩ := parse_ok hparse
  obtain ⟨hshaped, hspells⟩ := hrun.spells (tokenize_genuine htokens)
  have hd := hshaped d List.mem_cons_self
  have hunparse : [d].flatMap unparse = d.unparse := List.append_nil _
  rw [hunparse] at hspells
  exact ⟨d, hd.unfolds (hgrown.holds d List.mem_cons_self), fun e he => (hd.subtree he).formed,
    hspells⟩

/-- A source whose tokens have been computed. -/
theorem exists_leaves {source : String} {lexemes : List Lexeme}
    (hscan : (tokenize source).toOption.map (·.map Node.lexeme?) = some (lexemes.map some)) :
    ∃ leaves, tokenize source = .ok leaves ∧ Spells leaves lexemes := by
  cases htokens : tokenize source with
  | error d => rw [htokens] at hscan; cases hscan
  | ok leaves =>
      rw [htokens] at hscan
      exact ⟨leaves, rfl, Option.some.inj hscan⟩

/-- A source whose tokens and whose acceptance have been computed. -/
theorem exists_parse {source : String} {lexemes : List Lexeme}
    (hscan : (tokenize source).toOption.map (·.map Node.lexeme?) = some (lexemes.map some))
    (haccepted : ((tokenize source).toOption.map fun leaves =>
      match parse leaves {} with
      | .ok _ _ => true
      | .error _ _ => false) = some true) :
    ∃ leaves root w, tokenize source = .ok leaves ∧ Spells leaves lexemes
      ∧ parse leaves {} = .ok root w := by
  obtain ⟨leaves, htokens, hspells⟩ := exists_leaves hscan
  rw [htokens] at haccepted
  simp only [Except.toOption, Option.map_some, Option.some.injEq] at haccepted
  cases hparse : parse leaves {} with
  | error e w => rw [hparse] at haccepted; cases haccepted
  | ok root w => exact ⟨leaves, root, w, htokens, hspells, hparse⟩

theorem parse_unparse_negation :
    ∃ leaves root w d, tokenize "def val x as not U;" = .ok leaves ∧ parse leaves {} = .ok root w
      ∧ w.arena.Unfolds root d ∧ (∀ e ∈ d.subtrees, e.Formed)
      ∧ d.unparse = [.ofWord .defWord, .ofWord .valWord, .ofName "x", .ofWord .asWord,
          .ofWord .notWord, Constant.unsure.lexeme, .ofWord .semicolon] := by
  obtain ⟨leaves, root, w, htokens, hlexemes, hparse⟩ := @exists_parse "def val x as not U;"
    [.ofWord .defWord, .ofWord .valWord, .ofName "x", .ofWord .asWord, .ofWord .notWord,
      Constant.unsure.lexeme, .ofWord .semicolon] (by decide +kernel) (by decide +kernel)
  obtain ⟨d, hunfolds, hformed, hspells⟩ := parse_unparse htokens hparse
  exact ⟨leaves, root, w, d, htokens, hparse, hunfolds, hformed, hspells.unique hlexemes⟩

end Trivalent
