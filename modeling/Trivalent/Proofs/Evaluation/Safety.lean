import Trivalent.Proofs.Evaluation.Success
import Trivalent.Proofs.Places

/-!
# What a run cannot fail with

Evaluation checks at every node whether the node has the children and the names that it needs, and
there are numbers that could outgrow a machine word. On what a parse builds all these checks succeed.

* `Problem.origin` -- where a problem comes from: the text, its grammar, the program, how deep it is
  nested, an action in the wrong place, or a tree that no parse builds;
* `tokenize_origin`, `parse_origin` -- what scanning and parsing fail with;
* `Shaped.height_le` -- a program is not nested more deeply than it is long;
* `Shaped.evaluate_raises`, `Shaped.perform_raises` -- expressions and statements fail for what the
  program says or for its depth;
* `Context.walkAt_refuses` -- what is no block and no statement cannot be walked;
* `Context.run_safe` -- **no run fails with a fault or because of the shape of its tree**.
-/

namespace Trivalent

open Trivalent.Derivation

/-! ## 1. Where problems come from -/

/-- The part of a run that gives rise to a problem. -/
inductive Origin where
  /-- The text has something in it that is no token. -/
  | text
  /-- The tokens are no program. -/
  | grammar
  /-- A value is missing, or there are too many. -/
  | program
  /-- Something is nested too deeply. -/
  | nesting
  /-- A node is asked for what it does not do. -/
  | action
  /-- A node lacks what every node of its kind has. -/
  | shape
  deriving DecidableEq, Repr

/-- Where a problem comes from. -/
def Problem.origin : Problem → Origin
  | invalidIdentifier _ | invalidLiteral _ => .text
  | irreducible _ | unexpectedEnd => .grammar
  | unknownVariable _ | unsureLimit _ => .program
  | depthLimit _ => .nesting
  | unexpectedAction _ _ => .action
  | notAssignable _ | nameless _ | missingChild _ _ => .shape

/-- A failure is a diagnostic whose problem comes from one of some origins. -/
def Failure.IsFrom (origins : List Origin) : Failure → Prop
  | .diagnostic d => d.problem.origin ∈ origins
  | .fault _ => False

theorem Failure.IsFrom.mono {origins others : List Origin} {e : Failure} (h : e.IsFrom origins)
    (hsub : origins ⊆ others) : e.IsFrom others := by
  cases e with
  | diagnostic d => exact hsub h
  | fault f => exact h.elim

theorem tokenize_origin {source : String} {d : Diagnostic} (h : tokenize source = .error d) :
    d.problem.origin = .text := by
  refine Token.scan_cases (P := fun _ _ _ outcome => ∀ d, outcome = .error d →
    d.problem.origin = .text) ?nil ?stray ?malformed ?skip ?token 0 1 source.toList d h
  case nil => exact fun _ _ _ h => nomatch h
  case stray =>
    intro _ _ _ _ d h
    cases h
    rfl
  case malformed =>
    intro _ _ cs size _ d h
    cases h
    show (Token.malformedProblem (cs.take size)).origin = .text
    unfold Token.malformedProblem
    split <;> rfl
  case skip => exact fun _ _ _ _ _ _ _ _ _ ih => ih
  case token =>
    intro _ _ _ _ _ _ _ outcome _ _ ih d h
    cases outcome with
    | ok leaves => cases h
    | error e =>
        cases h
        exact ih _ rfl

theorem parse_origin {leaves : List Node} {journal : Journal} {e : Failure} {w : Workspace}
    (h : parse leaves journal = .error e w) : e.IsFrom [.grammar] := by
  by_cases hne : leaves = []
  · subst hne
    rw [parse_nil] at h
    cases h
    exact List.mem_singleton.mpr rfl
  · obtain ⟨steps, names, row, w', -, -, -, hok | herror⟩ := parse_run hne journal
    · obtain ⟨d, -, hok⟩ := hok
      rw [h] at hok
      cases hok
    · obtain ⟨span, line, -, herror⟩ := herror
      rw [h] at herror
      cases herror
      exact List.mem_singleton.mpr rfl

/-! ## 2. How deep a program is -/

/-- A source has no more tokens than bytes. -/
theorem length_tokenize_le {source : String} {leaves : List Node}
    (h : tokenize source = .ok leaves) : leaves.length ≤ source.utf8ByteSize := by
  rw [← String.ofList_toList (s := source), utf8ByteSize_eq]
  refine Token.scan_induction (P := fun _ _ cs leaves => leaves.length ≤ byteLength cs)
    ?nil ?skip ?token 0 1 source.toList h
  case nil => exact fun _ _ => Nat.le_refl 0
  case skip =>
    intro _ _ cs _ size leaves _ _ _ ih
    have hbytes := byteLength_append (cs.take size) (cs.drop size)
    rw [List.take_append_drop] at hbytes
    omega
  case token =>
    intro _ _ cs _ size _ _ leaves hlongest _ ih
    have hbytes := byteLength_append (cs.take size) (cs.drop size)
    have hpos := byteLength_pos (Token.take_ne_nil hlongest)
    rw [List.take_append_drop] at hbytes
    rw [List.length_cons]
    omega

theorem Shaped.length_word {d : Derivation} (h : Shaped d) {s : Symbol} (hs : d.symbol = s)
    (hword : s.spelling?.isSome) : d.unparse.length = 1 := by
  subst hs
  rw [h.unparse_word hword]
  rfl

theorem length_flatMap_unparse (window : List Derivation) :
    (window.flatMap unparse).length = (window.map (·.unparse.length)).sum :=
  List.length_flatMap

theorem height_occurrence (id : NodeId) (action : Action) (i : Derivation) :
    (above id .valVar action i none).height = 0 := if_pos rfl

theorem height_unary {id : NodeId} {symbol : Symbol} {action : Action} {a : Derivation}
    (hs : symbol ≠ .valVar) : (above id symbol action a none).height = a.height + 1 := if_neg hs

theorem height_binary (id : NodeId) (symbol : Symbol) (action : Action) (a b : Derivation) :
    (above id symbol action a (some b)).height = max a.height b.height + 1 := rfl

/-- An operand has more tokens than levels: every level adds a word or a pair of parentheses. -/
theorem Shaped.height_lt {d : Derivation} (h : Shaped d) (hs : d.symbol.Ready) :
    d.height < d.unparse.length := by
  have hoperand : Symbol.operand ≠ .valVar := by decide
  induction h with
  | @token id node l lexeme genuine =>
      show 0 < node.lexeme?.toList.length
      rw [lexeme]
      exact Nat.one_pos
  | @occurrence id i name raw child ih =>
      obtain ⟨_, node, text, rfl, hlexeme⟩ := child.unparse_identifier (symbol_of_isIdentifier raw)
      rw [height_occurrence, unparse_occurrence]
      show 0 < node.lexeme?.toList.length
      rw [hlexeme]
      exact Nat.one_pos
  | folded fold parts ih =>
      rw [fold.unparse_eq parts, length_flatMap_unparse]
      cases fold with
      | @declare k i hk hi =>
          have hword := (parts k (by simp)).length_word hk rfl
          rw [height_occurrence]
          simp only [List.map_cons, List.sum_cons]
          omega
      | @negate k a hk ha =>
          have hword := (parts k (by simp)).length_word hk rfl
          have hlt := ih a (by simp) ha
          rw [height_unary hoperand]
          simp only [List.map_cons, List.map_nil, List.sum_cons, List.sum_nil]
          omega
      | @group o a e ho ha he =>
          have hopen := (parts o (by simp)).length_word ho rfl
          have hlt := ih a (by simp) ha
          rw [height_unary hoperand]
          simp only [List.map_cons, List.map_nil, List.sum_cons, List.sum_nil]
          omega
      | @pair c o a k b e ho ha hk hb he =>
          have hopen := (parts o (by simp)).length_word ho rfl
          have hlta := ih a (by simp) ha
          have hltb := ih b (by simp) hb
          rw [height_binary]
          simp only [List.map_cons, List.map_nil, List.sum_cons, List.sum_nil]
          omega
      | _ => rcases hs with hs | hs <;> cases hs

/-- **What is no block and no statement is not nested more deeply than it is long.** -/
theorem Shaped.height_le {d : Derivation} (h : Shaped d) (hblock : d.symbol ≠ .codeBlock)
    (hs : d.symbol ≠ .statement) : d.height ≤ d.unparse.length := by
  cases h with
  | token => exact Nat.zero_le _
  | occurrence raw child =>
      rw [height_occurrence]
      exact Nat.zero_le _
  | folded fold parts =>
      have hready : d.symbol.Ready → d.height ≤ d.unparse.length := fun hready =>
        Nat.le_of_lt ((Shaped.folded fold parts).height_lt hready)
      cases fold with
      | block => exact absurd rfl hblock
      | single => exact absurd rfl hblock
      | assign => exact absurd rfl hs
      | declare => exact hready (.inr rfl)
      | negate => exact hready (.inl rfl)
      | group => exact hready (.inl rfl)
      | pair => exact hready (.inl rfl)
      | @lift a ha =>
          have hlt := (parts a (by simp)).height_lt (.inl ha)
          rw [height_unary (by decide), (Folds.lift ha).unparse_eq parts, length_flatMap_unparse]
          simp only [List.map_cons, List.map_nil, List.sum_cons, List.sum_nil]
          omega
      | @plain c a k b ha hk hb =>
          have hlta := (parts a (by simp)).height_lt ha
          have hltb := (parts b (by simp)).height_lt hb
          rw [height_binary, (Folds.plain c ha hk hb).unparse_eq parts, length_flatMap_unparse]
          simp only [List.map_cons, List.map_nil, List.sum_cons, List.sum_nil]
          omega

/-- The expression of a statement is shorter than the program, by the words around it. -/
theorem Shaped.length_value_lt {d : Derivation} (h : Shaped d) (hs : d.symbol = .codeBlock)
    {id : NodeId} {target value : Derivation}
    (hmem : above id .statement .assign target (some value) ∈ d.statements) :
    value.unparse.length + 3 ≤ d.unparse.length := by
  have hle : (above id .statement .assign target (some value)).unparse.length ≤ d.unparse.length := by
    have hblock : ∀ id l r, (above id .codeBlock .both l (some r)).unparse = l.unparse ++ r.unparse :=
      fun id l r => congrArg (l.unparse ++ ·) (List.append_nil r.unparse)
    rw [← h.flatMap_block (fun _ s => List.append_nil s.unparse) hblock hs, List.flatMap_def]
    exact (List.sublist_flatten_of_mem (List.mem_map_of_mem hmem)).length_le
  have hstatement : (above id .statement .assign target (some value)).unparse
      = .ofWord .defWord :: (target.unparse
        ++ .ofWord .asWord :: (value.unparse ++ [.ofWord .semicolon])) := rfl
  rw [hstatement] at hle
  simp only [List.length_cons, List.length_append, List.length_nil] at hle
  omega

/-! ## 3. Expressions and statements -/

theorem Limits.descend_raises {σ α : Type} {limits : Limits} {room : Nat} {next : Work σ α}
    {B : Failure → Prop} (hword : limits.maxDepth < maxWord + room) (h : Work.Raises next B) :
    Work.Raises (limits.descend room next) B := by
  rw [Limits.descend_of_lt hword]
  exact h

theorem freshAtom_raises {limits : Limits} (hlimit : limits.maxUnsure ≤ 62) (node : Node) :
    Work.Raises (freshAtom limits node) (·.IsFrom [.program, .nesting]) := by
  intro n
  unfold Work.Meets
  by_cases hfull : limits.maxUnsure ≤ n
  · rw [freshAtom_full hfull]
    exact List.mem_cons_self
  · rw [freshAtom_run (Nat.lt_of_not_le hfull) (by omega)]
    trivial

/-- **An expression fails for what the program says or for its depth**, if the levels that are left
cannot outgrow a machine word. -/
theorem Shaped.evaluate_raises {limits : Limits} (hlimit : limits.maxUnsure ≤ 62)
    {bindings : Bindings} {d : Derivation} (h : Shaped d) (hs : d.symbol.Valued) {room : Nat}
    (hword : limits.maxDepth + d.height < maxWord + room) :
    Work.Raises (d.evaluate limits bindings room) (·.IsFrom [.program, .nesting]) := by
  have hzero : ∀ d : Derivation,
      Work.Raises (d.evaluate limits bindings 0) (·.IsFrom [.program, .nesting]) := by
    intro d
    cases d <;> exact .throw (by simp [Failure.IsFrom, Problem.origin])
  revert room
  refine h.expression_induction (P := fun d => ∀ {room},
    limits.maxDepth + d.height < maxWord + room →
      Work.Raises (d.evaluate limits bindings room) (·.IsFrom [.program, .nesting]))
    ?constant ?reference ?negation ?passage ?connection hs
  case constant =>
    intro id node k hlexeme room _
    cases room with
    | zero => exact hzero _
    | succ room =>
        rw [evaluate_constant hlexeme]
        cases k with
        | certain truth => exact .pure
        | unsure => exact freshAtom_raises hlimit node
  case reference =>
    intro id node child name hvar _ _ htext room _
    cases room with
    | zero => exact hzero _
    | succ room =>
        rw [evaluate_reference hvar, htext]
        simp only [Node.recall]
        cases bindings.get? name with
        | none => exact .throw List.mem_cons_self
        | some v => exact .pure
  case negation =>
    intro id node a hvar haction ih room hword
    rw [height, if_neg hvar] at hword
    cases room with
    | zero => exact hzero _
    | succ room =>
        rw [evaluate_negation hvar haction]
        exact (Limits.descend_raises (by omega) (ih (by omega))).bind fun _ => .pure
  case passage =>
    intro id node a hvar haction ih room hword
    rw [height, if_neg hvar] at hword
    cases room with
    | zero => exact hzero _
    | succ room =>
        rw [evaluate_passage hvar haction]
        exact Limits.descend_raises (by omega) (ih (by omega))
  case connection =>
    intro id node c a b haction _ _ iha ihb room hword
    rw [height] at hword
    cases room with
    | zero => exact hzero _
    | succ room =>
        rw [evaluate_connection c haction]
        refine (Limits.descend_raises (by omega) (iha (by omega))).bind fun _ => ?_
        exact (Limits.descend_raises (by omega) (ihb (by omega))).bind fun _ => .pure

namespace Context

theorem withAtoms_raises {α : Type} {work : Work Nat α} {B : Failure → Prop}
    (h : Work.Raises work B) : Work.Raises (withAtoms work) B := by
  intro c
  have hwork := h c.store.atoms
  unfold Work.Meets EStateM.run at hwork
  unfold Work.Meets withAtoms EStateM.run
  dsimp only
  cases hrun : work c.store.atoms with
  | ok a n => trivial
  | error e n =>
      rw [hrun] at hwork
      exact hwork

end Context

/-- **A statement fails for what the program says or for its depth.** -/
theorem perform_raises {limits : Limits} (hlimit : limits.maxUnsure ≤ 62) {id : NodeId}
    {target value : Derivation} {name : String} (hname : target.name? = some name)
    (hvalue : Shaped value) (hvalued : value.symbol.Valued) (hheight : value.height + 1 < maxWord) :
    Work.Raises ((above id .statement .assign target (some value)).perform limits)
      (·.IsFrom [.program, .nesting]) := by
  unfold perform
  cases hdepth : limits.maxDepth with
  | zero => exact .throw (by simp [Failure.IsFrom, Problem.origin])
  | succ room =>
      simp only [above, hname]
      refine .bind (fun _ => trivial) fun c => ?_
      refine .bind (Limits.descend_raises (by omega) (Context.withAtoms_raises
        (hvalue.evaluate_raises hlimit hvalued (by omega)))) fun v => ?_
      exact fun _ => trivial

/-! ## 4. What is no block -/

/-- A token alone is no step of a program. -/
theorem Lexeme.Genuine.action_notMem {l : Lexeme} (h : l.Genuine) :
    l.action ∉ [Action.both, .left, .right, .assign] := by
  cases h with
  | @word s hword =>
      show Action.inert ∉ _
      decide
  | name text =>
      show Action.inert ∉ _
      decide
  | constant k => rcases k with (_ | _) | _ <;> decide

namespace Context

section Refusals

variable {limits : Limits} {arena : Arena} {room : Nat} {d : Derivation} {c : Context}

/-- A walk fails and changes nothing: for an action in the wrong place or for its depth. -/
def Refuses (c : Context) (work : Work Context Unit) : Prop :=
  ∃ e, work.run c = .error (.diagnostic e) c
    ∧ (e.problem.origin = .action ∨ e.problem.origin = .nesting)

theorem walkAt_zero (hholds : arena.Holds d) : Refuses c (walkAt limits arena 0 d.id) := by
  unfold walkAt
  rw [Arena.fetch_eq hholds.get?, pure_bind]
  exact ⟨_, rfl, .inr rfl⟩

/-- A node that is no step of a program is refused. -/
theorem walkAt_other (action : Action) (hholds : arena.Holds d) (haction : d.node.action = action)
    (hother : action ∉ [.both, .left, .right, .assign]) :
    Refuses c (walkAt limits arena room d.id) := by
  cases room with
  | zero => exact walkAt_zero hholds
  | succ room =>
      obtain ⟨blocks, hlevel⟩ := walkAt_succ hholds limits room
      rw [hlevel, haction]
      cases action <;> first | exact ⟨_, rfl, .inl rfl⟩ | simp at hother

/-- Where the action is to go left, the left child decides. -/
theorem walkAt_left {id : NodeId} {s : Symbol} {a : Derivation}
    (hholds : arena.Holds (above id s .left a none))
    (hword : limits.maxDepth + 1 < maxWord + room)
    (hbelow : ∀ below, room = below + 1 → Refuses c (walkAt limits arena below a.id)) :
    Refuses c (walkAt limits arena room (above id s .left a none).id) := by
  cases room with
  | zero => exact walkAt_zero hholds
  | succ room =>
      obtain ⟨blocks, hlevel⟩ := walkAt_succ hholds limits room
      rw [hlevel]
      show Refuses c (Node.child (above id s .left a none).node .left >>= _)
      rw [child_left_above, pure_bind]
      rw [Limits.descend_of_lt (by omega)]
      exact hbelow room rfl

/-- **What is no block and no statement cannot be walked**: the walk may go on below parentheses and
variables, but it comes to a value or a name in the end. -/
theorem walkAt_refuses (h : Shaped d) (hblock : d.symbol ≠ .codeBlock) (hs : d.symbol ≠ .statement)
    (hholds : arena.Holds d) (hword : limits.maxDepth + d.height + 1 < maxWord + room) :
    Refuses c (walkAt limits arena room d.id) := by
  induction h generalizing room with
  | @token id node l lexeme genuine =>
      exact walkAt_other l.action hholds (Node.lexeme?_eq_some lexeme).2.1 genuine.action_notMem
  -- below parentheses and variables the walk goes on, but it never comes to a statement there
  | @occurrence id i name raw child ih =>
      obtain ⟨iid, node, text, rfl, hlexeme⟩ := child.unparse_identifier (symbol_of_isIdentifier raw)
      rw [height_occurrence] at hword
      refine walkAt_left hholds (by omega) fun below hroom => ?_
      exact walkAt_other .inert hholds.2.2.2 (Node.lexeme?_eq_some hlexeme).2.1 (by decide)
  | folded fold parts ih =>
      cases fold with
      | block => exact absurd rfl hblock
      | single => exact absurd rfl hblock
      | assign => exact absurd rfl hs
      | @group o a e ho ha he =>
          rw [height_unary (by decide)] at hword
          refine walkAt_left hholds (by omega) fun below hroom => ?_
          exact ih a (by simp) ha.ne_block.1 ha.ne_block.2 hholds.2.2.2 (by omega)
      | @lift a ha =>
          have ha : a.symbol.Ready := .inl ha
          rw [height_unary (by decide)] at hword
          refine walkAt_left hholds (by omega) fun below hroom => ?_
          exact ih a (by simp) ha.ne_block.1 ha.ne_block.2 hholds.2.2.2 (by omega)
      | declare => exact walkAt_other .bind hholds rfl (by decide)
      | negate => exact walkAt_other .negate hholds rfl (by decide)
      | plain c => exact walkAt_other c.action hholds rfl (by cases c <;> decide)
      | pair c => exact walkAt_other c.action hholds rfl (by cases c <;> decide)

end Refusals

/-! ## 5. Runs -/

section Runs

variable {source : String} {limits : Limits} {journal : Journal} {leaves : List Node} {root : NodeId}
  {w : Workspace} {d : Derivation}

/-- What lies below the root of an accepted source is no longer than the source. -/
theorem length_unparse_lt (hsize : source.utf8ByteSize < maxWord)
    (htokens : tokenize source = .ok leaves) (hparse : parse leaves journal = .ok root w)
    (hunfolds : w.arena.Unfolds root d) : d.unparse.length < maxWord := by
  have hgenuine := tokenize_genuine htokens
  obtain ⟨-, steps, names, hrun⟩ := exists_run_of_unfolds hgenuine hparse hunfolds
  have hspells : leaves.map Node.lexeme? = ([d].flatMap unparse).map some :=
    (hrun.spells hgenuine).2
  have hlength := congrArg List.length hspells
  rw [List.length_map, List.length_map, List.flatMap_singleton] at hlength
  have hle := length_tokenize_le htokens
  omega

/-- **A block fails for what the program says or for its depth.** -/
theorem run_raises_of_block (hlimit : limits.maxUnsure ≤ 62) (hsize : source.utf8ByteSize < maxWord)
    (htokens : tokenize source = .ok leaves) (hparse : parse leaves journal = .ok root w)
    (hunfolds : w.arena.Unfolds root d) (hblock : d.symbol = .codeBlock) {e : Failure} {c : Context}
    (h : (run source).run { limits, journal } = .error e c) : e.IsFrom [.program, .nesting] := by
  have hshaped := (parse_shaped htokens hparse hunfolds).1
  have hlength := length_unparse_lt hsize htokens hparse hunfolds
  rw [run_eq_forM (c := { limits, journal }) htokens hparse hunfolds hblock] at h
  refine (Work.Raises.forM (fun s hs => ?_) _).of_error h
  obtain ⟨hstatement, hsymbol, -⟩ := hshaped.of_mem_statements hunfolds.1 hs
  obtain ⟨id, target, value, name, rfl, -, -, hname, hvalue, hvalued⟩ :=
    hstatement.exists_assignment hsymbol
  have hlt := hshaped.length_value_lt hblock hs
  have hheight : value.height ≤ value.unparse.length := by
    refine hvalue.height_le ?_ ?_
    all_goals rcases hvalued with (hs | hs) | hs <;> rw [hs] <;> decide
  exact perform_raises hlimit hname hvalue hvalued (by omega)

/-- **What is accepted and no block is refused.** -/
theorem run_refuses (hsize : source.utf8ByteSize < maxWord) (htokens : tokenize source = .ok leaves)
    (hparse : parse leaves journal = .ok root w) (hunfolds : w.arena.Unfolds root d)
    (hnone : Grammar.standard.find [d.symbol] = none) (hblock : d.symbol ≠ .codeBlock) :
    ∃ e c, (run source).run { limits, journal } = .error (.diagnostic e) c
      ∧ (e.problem.origin = .action ∨ e.problem.origin = .nesting) := by
  have hshaped := (parse_shaped htokens hparse hunfolds).1
  have hlength := length_unparse_lt hsize htokens hparse hunfolds
  -- a statement alone is still to be folded into a block
  have hstatement : d.symbol ≠ .statement := by
    intro hs
    rw [hs] at hnone
    cases hnone
  have hheight := hshaped.height_le hblock hstatement
  obtain ⟨hholds, rfl, -⟩ := hunfolds
  have hrun : (run source).run { limits, journal }
      = (walkAt limits w.arena (limits.maxDepth + 1) d.id).run { limits, journal := w.journal } := by
    rw [run_eq, htokens]
    simp only [hparse]
    rfl
  obtain ⟨e, herror, horigin⟩ := @walkAt_refuses limits w.arena (limits.maxDepth + 1) d
    { limits, journal := w.journal } hshaped hblock hstatement hholds (by omega)
  exact ⟨e, _, hrun.trans herror, horigin⟩

/-- The root of what an accepted source is parsed to. -/
theorem exists_root (htokens : tokenize source = .ok leaves)
    (hparse : parse leaves journal = .ok root w) :
    ∃ d, w.arena.Unfolds root d ∧ w.arena.get? root = some d.node
      ∧ Grammar.standard.find [d.symbol] = none := by
  obtain ⟨d, -, hunfolds, hnone⟩ := exists_unfolds (tokenize_genuine htokens) hparse
  obtain ⟨hholds, rfl, -⟩ := id hunfolds
  exact ⟨d, hunfolds, hholds.get?, hnone⟩

/-- What a run fails with. -/
theorem origin_of_run (hlimit : limits.maxUnsure ≤ 62) (hsize : source.utf8ByteSize < maxWord)
    {e : Failure} {c : Context} (h : (run source).run { limits, journal } = .error e c) :
    e.IsFrom [.text, .grammar, .program, .nesting]
      ∨ e.IsFrom [.action, .nesting] ∧ ∃ leaves root w node, tokenize source = .ok leaves
        ∧ parse leaves journal = .ok root w ∧ w.arena.get? root = some node
        ∧ node.symbol ≠ .codeBlock := by
  cases htokens : tokenize source with
  | error d =>
      rw [run_eq, htokens] at h
      cases h
      refine .inl ?_
      show d.problem.origin ∈ _
      rw [tokenize_origin htokens]
      decide
  | ok leaves =>
      cases hparse : parse leaves journal with
      | error e' w =>
          rw [run_eq, htokens] at h
          simp only [hparse] at h
          cases h
          exact .inl ((parse_origin hparse).mono (by decide))
      | ok root w =>
          obtain ⟨d, hunfolds, hget, hnone⟩ := exists_root htokens hparse
          by_cases hblock : d.symbol = .codeBlock
          · have horigin := run_raises_of_block hlimit hsize htokens hparse hunfolds hblock h
            exact .inl (horigin.mono (by decide))
          · obtain ⟨d', c', hrun, horigin⟩ :=
              @run_refuses _ limits _ _ _ _ _ hsize htokens hparse hunfolds hnone hblock
            rw [hrun] at h
            cases h
            refine .inr ⟨?_, leaves, root, w, d.node, rfl, hparse, hget, hblock⟩
            show d'.problem.origin ∈ _
            rcases horigin with horigin | horigin <;> rw [horigin] <;> decide

end Runs

/-- **No run fails with a fault or because of the shape of its tree.** Whatever the source is, as
long as a machine word counts its bytes, and whatever the limits are, as long as they allow no more
atoms than a machine word can have tables for: a run does not meet with a fault, be it an index, an
overflow or a loop without end, and never with a node that lacks a child or a name or cannot be
assigned to. It reports an action in the wrong place only of a source whose root is no block; and
such a source never succeeds, but is reported for this or for its depth. -/
theorem run_safe {source : String} {limits : Limits} {journal : Journal}
    (hlimit : limits.maxUnsure ≤ 62) (hsize : source.utf8ByteSize < maxWord) :
    (∀ f c, (run source).run { limits, journal } ≠ .error (.fault f) c)
      ∧ (∀ d c, (run source).run { limits, journal } = .error (.diagnostic d) c →
          d.problem.origin ≠ .shape
          ∧ (d.problem.origin = .action → ∃ leaves root w node, tokenize source = .ok leaves
            ∧ parse leaves journal = .ok root w ∧ w.arena.get? root = some node
            ∧ node.symbol ≠ .codeBlock))
      ∧ ∀ leaves root w node, tokenize source = .ok leaves → parse leaves journal = .ok root w →
          w.arena.get? root = some node → node.symbol ≠ .codeBlock →
          ∃ d c, (run source).run { limits, journal } = .error (.diagnostic d) c
            ∧ (d.problem.origin = .action ∨ d.problem.origin = .nesting) := by
  refine ⟨fun f c h => ?_, fun d c h => ?_, fun leaves root w node htokens hparse hget hs => ?_⟩
  · rcases origin_of_run hlimit hsize h with horigin | ⟨horigin, -⟩ <;> exact horigin
  · rcases origin_of_run hlimit hsize h with horigin | ⟨horigin, hroot⟩
    · have horigin : d.problem.origin ∈ [.text, .grammar, .program, .nesting] := horigin
      refine ⟨fun hshape => ?_, fun haction => ?_⟩
      · rw [hshape] at horigin
        simp at horigin
      · rw [haction] at horigin
        simp at horigin
    · have horigin : d.problem.origin ∈ [.action, .nesting] := horigin
      refine ⟨fun hshape => ?_, fun _ => hroot⟩
      rw [hshape] at horigin
      simp at horigin
  · obtain ⟨d, hunfolds, hroot, hnone⟩ := exists_root htokens hparse
    rw [hroot] at hget
    cases hget
    exact run_refuses hsize htokens hparse hunfolds hnone hs

/-- Parentheses around a declaration are accepted, but they are no program: the walk goes down to the
declaration. -/
theorem run_safe_declaration :
    ∃ d c, (run "(val x)").run {} = .error (.diagnostic d) c
      ∧ d.problem = .unexpectedAction .valVar .bind
      ∧ ∃ leaves root w node, tokenize "(val x)" = .ok leaves ∧ parse leaves {} = .ok root w
        ∧ w.arena.get? root = some node ∧ node.symbol ≠ .codeBlock := by
  have hrun : (match (run "(val x)").run {} with
      | .ok _ _ => none
      | .error e _ => some e)
        = some (.diagnostic ⟨.unexpectedAction .valVar .bind, some ⟨5, 6⟩, 1⟩) := by
    decide +kernel
  split at hrun
  · cases hrun
  · rename_i e c herror
    cases hrun
    obtain ⟨-, hdiagnostic, -⟩ := @run_safe "(val x)" {} {} (by decide) (by decide)
    exact ⟨_, c, herror, rfl, (hdiagnostic _ c herror).2 rfl⟩

end Context

end Trivalent
