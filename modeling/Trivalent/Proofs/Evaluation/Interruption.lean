import Trivalent.Proofs.Evaluation.Safety

/-!
# What a walk leaves when it fails

A walk may fail in the middle of any expression, after some atoms have been taken. It has then done
what the statements before did and nothing else: the statement that fails and those after it assign
nothing, and what remains of the failing one is the atoms of the `U` that were evaluated.

* `Executes`, `ExecutesAll` -- what a statement does to the store, and what statements in sequence
  do;
* `Derivation.Reaches` -- a place in an expression and the `U` before it;
* `Stops` -- a statement that fails, and the store that it leaves;
* `Shaped.evaluate_stops` -- **an evaluation that fails has taken an atom for each `U` before the
  place of the failure**;
* `Context.walk_interrupted` -- **a walk that fails leaves exactly what the completed statements
  did**.
-/

namespace Trivalent

open Trivalent.Derivation

/-! ## 1. Statements and where they stop -/

/-- Carried out in a store, a statement takes an atom for each `U` in its expression and gives the
value of the expression to its variable. Statements are at depth one, their expressions at two. -/
inductive Executes (limits : Limits) (arena : Arena) (store : Store) : Derivation → Store → Prop
  | intro {id : NodeId} {node : Node} {target value : Derivation} {name : String} {v : Value}
      (named : target.name? = some name)
      (evaluated : (evaluateAt limits arena store.bindings (limits.room 2) value.id).run store.atoms
        = .ok v (store.atoms + value.unsureIds.length)) :
      Executes limits arena store (.binary id node target value)
        ({ store with atoms := store.atoms + value.unsureIds.length }.assign name v)

/-- Statements carried out one after another. -/
inductive ExecutesAll (limits : Limits) (arena : Arena) : Store → List Derivation → Store → Prop
  | nil (store : Store) : ExecutesAll limits arena store [] store
  | cons {store mid last : Store} {s : Derivation} {ss : List Derivation}
      (first : Executes limits arena store s mid) (rest : ExecutesAll limits arena mid ss last) :
      ExecutesAll limits arena store (s :: ss) last

/-- The derivation `x` lies in `d`, and `before` are the `U` of `d` to the left of it, which is the
order in which they are evaluated. -/
inductive Derivation.Reaches : Derivation → List NodeId → Derivation → Prop
  | here (d : Derivation) : Reaches d [] d
  | down {id : NodeId} {node : Node} {child x : Derivation} {before : List NodeId}
      (h : Reaches child before x) : Reaches (.unary id node child) before x
  | left {id : NodeId} {node : Node} {a b x : Derivation} {before : List NodeId}
      (h : Reaches a before x) : Reaches (.binary id node a b) before x
  | right {id : NodeId} {node : Node} {a b x : Derivation} {before : List NodeId}
      (h : Reaches b before x) : Reaches (.binary id node a b) (a.unsureIds ++ before) x

/-- A failure that is reported at a node. -/
def Failure.IsAt (e : Failure) (node : Node) : Prop :=
  ∃ problem, e = .diagnostic ⟨problem, some node.span, node.line⟩

/-- A statement that fails, with the store that it leaves: no variable is assigned, and if it is the
expression that fails, an atom has been taken for each `U` before the place of the failure. -/
inductive Stops (limits : Limits) (arena : Arena) (store : Store) :
    Derivation → Failure → Store → Prop
  | atOnce {s : Derivation} (depth : limits.maxDepth = 0) :
      Stops limits arena store s
        (.diagnostic ⟨.depthLimit limits.maxDepth, some s.node.span, s.node.line⟩) store
  | within {id : NodeId} {node : Node} {target value x : Derivation} {before : List NodeId}
      {e : Failure} (reached : value.Reaches before x) (place : e.IsAt x.node)
      (failed : (evaluateAt limits arena store.bindings (limits.room 2) value.id).run store.atoms
        = .error e (store.atoms + before.length)) :
      Stops limits arena store (.binary id node target value) e
        { store with atoms := store.atoms + before.length }

/-! ## 2. Expressions -/

/-- An evaluation of `d` from `n` atoms fails at a place in `d`, and an atom has been taken for each
`U` before it. -/
def Derivation.FailsAt (d : Derivation) (n : Nat) (e : Failure) (m : Nat) : Prop :=
  ∃ before x, d.Reaches before x ∧ e.IsAt x.node ∧ m = n + before.length

section Expressions

variable {limits : Limits} {bindings : Bindings} {id room n m : Nat} {node : Node}
  {a b d : Derivation} {e : Failure}

theorem Derivation.failsAt_self (d : Derivation) (n : Nat) (problem : Problem) :
    d.FailsAt n (.diagnostic ⟨problem, some d.node.span, d.node.line⟩) n :=
  ⟨[], d, .here d, ⟨problem, rfl⟩, rfl⟩

theorem Derivation.FailsAt.below (h : a.FailsAt n e m) : (unary id node a).FailsAt n e m := by
  obtain ⟨before, x, hreached, hplace, hm⟩ := h
  exact ⟨before, x, .down hreached, hplace, hm⟩

theorem Derivation.FailsAt.left (h : a.FailsAt n e m) : (binary id node a b).FailsAt n e m := by
  obtain ⟨before, x, hreached, hplace, hm⟩ := h
  exact ⟨before, x, .left hreached, hplace, hm⟩

/-- The right operand starts when the left one has taken its atoms. -/
theorem Derivation.FailsAt.right (h : b.FailsAt (n + a.unsureIds.length) e m) :
    (binary id node a b).FailsAt n e m := by
  obtain ⟨before, x, hreached, hplace, hm⟩ := h
  refine ⟨a.unsureIds ++ before, x, .right hreached, hplace, ?_⟩
  rw [hm, List.length_append, Nat.add_assoc]

/-- Evaluating an expression takes an atom for each `U` in it, or up to where it fails. -/
def Derivation.Counts (limits : Limits) (bindings : Bindings) (room n : Nat) (d : Derivation) :
    Prop :=
  Work.Meets n (d.evaluate limits bindings room) (fun _ m => m = n + d.unsureIds.length)
    (d.FailsAt n)

theorem Derivation.counts_zero (d : Derivation) : d.Counts limits bindings 0 n := by
  cases d with
  | leaf => exact failsAt_self _ n _
  | unary => exact failsAt_self _ n _
  | binary => exact failsAt_self _ n _

theorem counts_unsure (hlimit : limits.maxUnsure ≤ 62)
    (hlexeme : node.lexeme? = some Constant.unsure.lexeme) :
    (leaf id node).Counts limits bindings (room + 1) n := by
  unfold Derivation.Counts Work.Meets
  rw [evaluate_constant hlexeme, unsureIds_constant hlexeme]
  by_cases hfull : limits.maxUnsure ≤ n
  · rw [freshAtom_full hfull]
    exact failsAt_self (leaf id node) n _
  · rw [freshAtom_run (Nat.lt_of_not_le hfull) (by omega)]
    rfl

/-- **An evaluation that fails has taken an atom for each `U` before the place of the failure**, if
the levels that are left cannot outgrow a machine word. One that succeeds has taken one for each. -/
theorem Shaped.evaluate_stops (hlimit : limits.maxUnsure ≤ 62) (h : Shaped d) (hs : d.symbol.Valued)
    (hword : limits.maxDepth + d.height < maxWord + room) : d.Counts limits bindings room n := by
  revert room n
  refine h.expression_induction (P := fun d => ∀ {room n},
    limits.maxDepth + d.height < maxWord + room → d.Counts limits bindings room n)
    ?constant ?reference ?negation ?passage ?connection hs
  case constant =>
    intro id node k hlexeme room n _
    cases room with
    | zero => exact counts_zero _
    | succ room =>
        cases k with
        | unsure => exact counts_unsure hlimit hlexeme
        | certain truth =>
            unfold Derivation.Counts
            rw [evaluate_constant hlexeme, unsureIds_constant hlexeme]
            exact .pure rfl
  case reference =>
    intro id node child name hvar hchild hi htext room n _
    cases room with
    | zero => exact counts_zero _
    | succ room =>
        have hnil : (unary id node child).unsureIds = [] :=
          hchild.unsureIds_eq_nil (by rw [hi]; rfl)
        unfold Derivation.Counts
        rw [evaluate_reference hvar, htext, hnil]
        simp only [Node.recall]
        cases bindings.get? name with
        | none => exact .throw (failsAt_self (unary id node child) n _)
        | some v => exact .pure rfl
  case negation =>
    intro id node a hvar haction ih room n hword
    rw [height, if_neg hvar] at hword
    cases room with
    | zero => exact counts_zero _
    | succ room =>
        unfold Derivation.Counts
        rw [evaluate_negation hvar haction, Limits.descend_of_lt (by omega)]
        exact (ih (by omega)).seq (fun _ _ hm => hm) fun _ _ he => he.below
  case passage =>
    intro id node a hvar haction ih room n hword
    rw [height, if_neg hvar] at hword
    cases room with
    | zero => exact counts_zero _
    | succ room =>
        unfold Derivation.Counts
        rw [evaluate_passage hvar haction, Limits.descend_of_lt (by omega)]
        exact (ih (by omega)).mono (fun _ _ hm => hm) fun _ _ he => he.below
  case connection =>
    intro id node c a b haction _ _ iha ihb room n hword
    rw [height] at hword
    cases room with
    | zero => exact counts_zero _
    | succ room =>
        unfold Derivation.Counts
        rw [evaluate_connection c haction]
        simp only [Limits.descend_of_lt (show limits.maxDepth < maxWord + room by omega)]
        refine (iha (by omega)).seq (fun _ m hm => ?_) fun _ _ he => he.left
        subst hm
        refine (ihb (by omega)).seq (fun _ k hk => ?_) fun _ _ he => he.right
        show k = n + (a.unsureIds ++ b.unsureIds).length
        rw [hk, List.length_append, Nat.add_assoc]

end Expressions

/-! ## 3. Statements -/

/-- No expression of a program is nested more deeply than the program is long. -/
theorem Shaped.valueHeight_lt {d s : Derivation} (h : Shaped d) (hs : d.symbol = .codeBlock)
    (hmem : s ∈ d.statements) : s.valueHeight + 1 < d.unparse.length := by
  obtain ⟨hmem', hsymbol⟩ := List.mem_filter.mp hmem
  obtain ⟨id, target, value, name, rfl, -, -, -, hvalue, hvalued⟩ :=
    (h.subtree hmem').exists_assignment (eq_of_beq hsymbol)
  have hlength := h.length_value_lt hs hmem
  have hheight : value.height ≤ value.unparse.length := by
    refine hvalue.height_le ?_ ?_
    all_goals rcases hvalued with (hs | hs) | hs <;> rw [hs] <;> decide
  show value.height + 1 < d.unparse.length
  omega

namespace Context

section Statements

variable {limits : Limits} {arena : Arena} {c : Context} {ss : List Derivation}

/-- A computation changes the store as `Q` says, or fails and leaves it as `E` says. The limits stay
what they are. -/
def Changes (c : Context) (work : Work Context Unit) (Q : Store → Prop)
    (E : Failure → Store → Prop) : Prop :=
  Work.Meets c work (fun _ t => t.limits = c.limits ∧ Q t.store)
    (fun e t => t.limits = c.limits ∧ E e t.store)

/-- **A statement is carried out, or it stops.** -/
theorem perform_changes (hlimit : limits.maxUnsure ≤ 62) {s : Derivation} (h : Shaped s)
    (hs : s.symbol = .statement) (hholds : arena.Holds s) (hheight : s.valueHeight + 1 < maxWord) :
    Changes c (s.perform limits) (Executes limits arena c.store s)
      (Stops limits arena c.store s) := by
  obtain ⟨id, target, value, name, rfl, -, -, hname, hvalue, hvalued⟩ := h.exists_assignment hs
  have hheight : value.height + 1 < maxWord := hheight
  have hright := hholds.2.2.2.2.2
  unfold Changes perform
  cases hdepth : limits.maxDepth with
  | zero =>
      refine .throw ⟨rfl, ?_⟩
      rw [← hdepth]
      exact .atOnce hdepth
  | succ room =>
      have hroom : limits.room 2 = room := by unfold Limits.room; omega
      have hcounts : value.Counts limits c.store.bindings room c.store.atoms :=
        hvalue.evaluate_stops hlimit hvalued (by omega)
      have heval := @evaluateAt_eq limits arena c.store.bindings value hvalue hvalued hright room
      rw [← hroom] at hcounts heval
      simp only [above, hname,
        Limits.descend_of_lt (show limits.maxDepth < maxWord + room by omega)]
      refine .bind ?_
      show Work.Meets c
        (withAtoms (value.evaluate limits c.store.bindings room) >>= assign name) _ _
      rw [← hroom]
      unfold Work.Meets
      rw [EStateM.run_bind]
      unfold withAtoms EStateM.run
      dsimp only
      cases hrun : value.evaluate limits c.store.bindings (limits.room 2) c.store.atoms with
      | ok v m =>
          cases hcounts.of_ok hrun
          exact ⟨rfl, .intro hname (heval ▸ hrun)⟩
      | error e m =>
          obtain ⟨before, x, hreached, hplace, rfl⟩ := hcounts.of_error hrun
          exact ⟨rfl, .within hreached hplace (heval ▸ hrun)⟩

/-- **Statements in sequence are carried out up to the first one that stops.** -/
theorem forM_perform_changes (hlimit : limits.maxUnsure ≤ 62)
    (hss : ∀ s ∈ ss, Shaped s ∧ s.symbol = .statement ∧ arena.Holds s
      ∧ s.valueHeight + 1 < maxWord) :
    Changes c (ss.forM (perform limits)) (ExecutesAll limits arena c.store ss) (fun e last =>
      ∃ before s after mid, ss = before ++ s :: after ∧ ExecutesAll limits arena c.store before mid
        ∧ Stops limits arena mid s e last) := by
  induction ss generalizing c with
  | nil => exact ⟨rfl, .nil _⟩
  | cons s ss ih =>
      obtain ⟨hshaped, hsymbol, hholds, hheight⟩ := hss s List.mem_cons_self
      have hfirst := @perform_changes limits arena c hlimit s hshaped hsymbol hholds hheight
      refine hfirst.seq (fun _ t ht => ?_) fun e t ht => ?_
      · obtain ⟨hlimits, hexecutes⟩ := ht
        refine (ih fun s' hs' => hss s' (List.mem_cons_of_mem s hs')).mono (fun _ u hu => ?_)
          fun e u hu => ?_
        · exact ⟨hu.1.trans hlimits, .cons hexecutes hu.2⟩
        · obtain ⟨hu, before, s', after, mid, rfl, hbefore, hstops⟩ := hu
          exact ⟨hu.trans hlimits, s :: before, s', after, mid, rfl, .cons hexecutes hbefore,
            hstops⟩
      · exact ⟨ht.1, [], s, ss, c.store, rfl, .nil _, ht.2⟩

end Statements

/-! ## 4. Walks -/

/-- An evaluation changes nothing but the number of atoms. -/
theorem evaluate_keeps (arena : Arena) (id : NodeId) (depth : Nat) (c : Context) :
    ∃ n, Work.Meets c (evaluate arena id depth) (fun _ t => t = { c with store.atoms := n })
      (fun _ t => t = { c with store.atoms := n }) := by
  unfold Work.Meets evaluate
  rw [EStateM.run_bind, EStateM.run_get]
  unfold withAtoms
  simp only [EStateM.run]
  cases evaluateAt c.limits arena c.store.bindings (c.limits.room depth) id c.store.atoms with
  | ok v n => exact ⟨n, rfl⟩
  | error e n => exact ⟨n, rfl⟩

/-- **A walk that fails leaves exactly what the completed statements did.** In any context that
allows no more atoms than a machine word can have tables for, a walk of an accepted program either
carries out all its statements, one after another, or it fails with what one of them fails with.
Then the statements before that one have been carried out, and it is where it has stopped: it and
those after it have assigned nothing, and an atom has been taken for each `U` of it before the place
that the failure is reported at. The limits stay what they are. An evaluation alone, in any arena and at
any node, assigns nothing and leaves the limits, whether it succeeds or fails. -/
theorem walk_interrupted {source : String} {leaves : List Node} {journal : Journal} {root : NodeId}
    {w : Workspace} {d : Derivation} {c : Context} (htokens : tokenize source = .ok leaves)
    (hparse : parse leaves journal = .ok root w) (hunfolds : w.arena.Unfolds root d)
    (hblock : d.symbol = .codeBlock) (hsize : source.utf8ByteSize < maxWord)
    (hlimit : c.limits.maxUnsure ≤ 62) :
    Changes c (walk w.arena root) (ExecutesAll c.limits w.arena c.store d.statements)
        (fun e last => ∃ before s after mid, d.statements = before ++ s :: after
          ∧ ExecutesAll c.limits w.arena c.store before mid ∧ Stops c.limits w.arena mid s e last)
      ∧ ∀ (arena : Arena) (id : NodeId) (depth : Nat) (c : Context),
        Work.Meets c (evaluate arena id depth)
          (fun _ t => t.store.bindings = c.store.bindings ∧ t.limits = c.limits)
          (fun _ t => t.store.bindings = c.store.bindings ∧ t.limits = c.limits) := by
  have hshaped := (parse_shaped htokens hparse hunfolds).1
  have hlength := length_unparse_lt hsize htokens hparse hunfolds
  obtain ⟨hholds, rfl, -⟩ := hunfolds
  refine ⟨?_, fun arena id depth c => ?_⟩
  · rw [walk_eq hshaped hblock hholds]
    refine .bind (forM_perform_changes hlimit fun s hs => ?_)
    obtain ⟨hstatement, hsymbol, hheld⟩ := hshaped.of_mem_statements hholds hs
    exact ⟨hstatement, hsymbol, hheld, Nat.lt_trans (hshaped.valueHeight_lt hblock hs) hlength⟩
  · obtain ⟨n, h⟩ := evaluate_keeps arena id depth c
    refine h.mono (fun _ t ht => ?_) fun _ t ht => ?_ <;> rw [ht] <;> exact ⟨rfl, rfl⟩

/-- The second statement reads a variable that is assigned too late, after it has taken an atom.
What is left is the first statement, and two atoms. -/
theorem walk_interrupted_late :
    ∃ leaves root w d c,
      tokenize "def val x as U; def val y as (U and z); def val z as T;" = .ok leaves
      ∧ parse leaves {} = .ok root w ∧ w.arena.Unfolds root d
      ∧ (walk w.arena root).run {}
        = .error (.diagnostic ⟨.unknownVariable "z", some ⟨36, 37⟩, 1⟩) c
      ∧ c.store = { bindings := [("x", .table [true, false])], atoms := 2 }
      ∧ ∃ before s after mid, d.statements = before ++ s :: after
        ∧ ExecutesAll {} w.arena {} before mid
        ∧ Stops {} w.arena mid s (.diagnostic ⟨.unknownVariable "z", some ⟨36, 37⟩, 1⟩) c.store := by
  have hcomputed :
      ((tokenize "def val x as U; def val y as (U and z); def val z as T;").toOption.bind
        fun leaves => (Work.succeeded (parse leaves {})).bind
          fun p => (Work.failed ((walk p.2.arena p.1).run {})).map
            fun q => ((p.2.arena.get? p.1).map (·.symbol), q.1, q.2.store))
      = some (some .codeBlock, .diagnostic ⟨.unknownVariable "z", some ⟨36, 37⟩, 1⟩,
          { bindings := [("x", .table [true, false])], atoms := 2 }) := by
    decide +kernel
  obtain ⟨leaves, htokens, hcomputed⟩ := Option.bind_eq_some_iff.mp hcomputed
  obtain ⟨⟨root, w⟩, hparse, hcomputed⟩ := Option.bind_eq_some_iff.mp hcomputed
  obtain ⟨⟨e, c⟩, hwalk, hcomputed⟩ := Option.map_eq_some_iff.mp hcomputed
  simp only [Prod.mk.injEq] at hcomputed
  obtain ⟨hroot, rfl, hstore⟩ := hcomputed
  have htokens := Work.eq_ok_of_toOption htokens
  have hparse := Work.eq_ok_of_succeeded hparse
  have hwalk := Work.eq_error_of_failed hwalk
  obtain ⟨d, -, hunfolds, -⟩ := exists_unfolds (tokenize_genuine htokens) hparse
  have hblock : d.symbol = .codeBlock := by
    rw [← hunfolds.2.1, hunfolds.1.get?] at hroot
    exact Option.some.inj hroot
  obtain ⟨hchanges, -⟩ := walk_interrupted (c := {}) htokens hparse hunfolds hblock
    (by decide) (by decide)
  exact ⟨leaves, root, w, d, c, htokens, hparse, hunfolds, hwalk, hstore,
    (hchanges.of_error hwalk).2⟩

end Context

end Trivalent
