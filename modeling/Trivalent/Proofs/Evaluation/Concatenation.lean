import Trivalent.Proofs.Evaluation.Success
import Trivalent.Proofs.Parse.Concatenation
import Trivalent.Proofs.Work

/-!
# Running programs one below the other

A program that stands below another one is parsed to the same statements further on. Where they
stand makes no difference to what they do: only a failure says where it has happened.

* `Failure.moved`, `Work.moved` -- a failure further on, and a computation that fails there;
* `Derivation.evaluate_moved`, `Derivation.perform_moved` -- **an expression or a statement further
  on fails further on, and does the same otherwise**;
* `Context.walk_append` -- **two programs one below the other do what the first one does and then
  what the second one does**, if they share no name.
-/

namespace Trivalent

open Trivalent.Derivation

/-! ## 1. Failures further on -/

/-- A failure some bytes and lines further on; a fault says nothing about places. -/
def Failure.moved (bytes lines : Nat) : Failure → Failure
  | .diagnostic d =>
    .diagnostic { d with span := d.span.map (Span.moved bytes), line := d.line + lines }
  | .fault f => .fault f

/-- The same computation with its failures some bytes and lines further on. -/
def Work.moved {σ α : Type} (bytes lines : Nat) (work : Work σ α) : Work σ α :=
  EStateM.adaptExcept (Failure.moved bytes lines) work

section Moved

variable {σ α β : Type} {bytes lines : Nat}

theorem Failure.moved_zero (e : Failure) : e.moved 0 0 = e := by
  cases e with
  | fault f => rfl
  | diagnostic d =>
      obtain ⟨problem, span, line⟩ := d
      cases span <;> rfl

namespace Work

theorem moved_zero (work : Work σ α) : work.moved 0 0 = work := by
  funext s
  unfold moved EStateM.adaptExcept
  split
  · rename_i e t h
    rw [Failure.moved_zero, h]
  · rename_i a t h
    rw [h]

theorem moved_bind (work : Work σ α) (next : α → Work σ β) :
    (work >>= next : Work σ β).moved bytes lines
      = work.moved bytes lines >>= fun a => (next a).moved bytes lines := by
  funext s
  show EStateM.adaptExcept _ (EStateM.bind _ _) s = EStateM.bind (EStateM.adaptExcept _ _) _ s
  unfold EStateM.adaptExcept EStateM.bind
  dsimp only
  cases work s <;> rfl

end Work

theorem Limits.descend_moved (limits : Limits) (room : Nat) (next : Work σ α) :
    limits.descend room (next.moved bytes lines)
      = (limits.descend room next).moved bytes lines := by
  unfold Limits.descend
  split <;> rfl

theorem Context.withAtoms_moved (work : Work Nat α) :
    withAtoms (work.moved bytes lines) = (withAtoms work).moved bytes lines := by
  funext c
  unfold withAtoms Work.moved EStateM.adaptExcept EStateM.run
  dsimp only
  cases work c.store.atoms <;> rfl

end Moved

/-! ## 2. Expressions and statements further on -/

section Places

variable {bytes lines : Nat} {limits : Limits} {bindings : Bindings}

/-- An atom that cannot be made is a fault, and is so everywhere. -/
theorem nextAtom_moved : nextAtom.moved bytes lines = nextAtom := by
  unfold nextAtom
  rw [Work.moved_bind]
  refine bind_congr fun _ => ?_
  rw [Work.moved_bind]
  refine bind_congr fun n => ?_
  split <;> rfl

theorem freshAtom_moved (node : Node) :
    freshAtom limits (node.moved bytes lines)
      = (freshAtom limits node).moved bytes lines := by
  unfold freshAtom
  rw [Work.moved_bind]
  refine bind_congr fun n => ?_
  split
  · rfl
  · exact nextAtom_moved.symm

theorem Node.recall_moved {σ : Type} (node : Node) (name : Option String) :
    ((node.moved bytes lines).recall bindings name : Work σ Value)
      = (node.recall bindings name).moved bytes lines := by
  unfold Node.recall
  cases name with
  | none => rfl
  | some name =>
      dsimp only
      split <;> rfl

namespace Derivation

/-- **An expression further on has the same value**, or fails further on. -/
theorem evaluate_moved (d : Derivation) (room : Nat) :
    (d.moved bytes lines).evaluate limits bindings room
      = (d.evaluate limits bindings room).moved bytes lines := by
  induction d generalizing room with
  | leaf id node =>
      cases room with
      | zero => rfl
      | succ room =>
          unfold moved evaluate
          rw [Node.action_moved]
          split
          · rfl
          · rfl
          · exact freshAtom_moved node
  | unary id node child ih =>
      cases room with
      | zero => rfl
      | succ room =>
          unfold moved evaluate
          rw [Node.symbol_moved, node_moved, Node.literal?_moved, Node.action_moved, ih]
          split
          · exact Node.recall_moved node _
          · split
            · rw [Limits.descend_moved, Work.moved_bind]
              rfl
            · exact Limits.descend_moved ..
  | binary id node left right ihl ihr =>
      cases room with
      | zero => rfl
      | succ room =>
          unfold moved evaluate
          rw [ihl, ihr, Limits.descend_moved, Limits.descend_moved, Node.action_moved,
            Work.moved_bind]
          refine bind_congr fun a => ?_
          rw [Work.moved_bind]
          refine bind_congr fun b => ?_
          split <;> rfl

theorem name?_moved (d : Derivation) : (d.moved bytes lines).name? = d.name? := by
  cases d with
  | unary id node child => simp [moved, name?]
  | _ => rfl

/-- **A statement further on does the same**, or fails further on. -/
theorem perform_moved (s : Derivation) :
    (s.moved bytes lines).perform limits = (s.perform limits).moved bytes lines := by
  unfold perform
  cases limits.maxDepth with
  | zero => exact node_moved bytes lines s ▸ rfl
  | succ room =>
      cases s with
      | leaf id node => rfl
      | unary id node child => rfl
      | binary id node target value =>
          unfold moved
          dsimp only
          rw [name?_moved, node_moved, symbol_moved]
          cases target.name? with
          | none => rfl
          | some name =>
              dsimp only
              rw [Work.moved_bind]
              refine bind_congr fun c => ?_
              rw [evaluate_moved, Context.withAtoms_moved, Limits.descend_moved, Work.moved_bind]
              rfl

/-- So do statements in sequence. -/
theorem forM_perform_moved (ss : List Derivation) :
    (ss.map (moved bytes lines)).forM (perform limits)
      = (ss.forM (perform limits) : Work Context Unit).moved bytes lines := by
  induction ss with
  | nil => rfl
  | cons s ss ih =>
      show (perform limits (s.moved bytes lines) >>= fun _ =>
        (ss.map (moved bytes lines)).forM (perform limits)) = _
      rw [ih, perform_moved]
      exact (Work.moved_bind _ _).symm

/-- Statements of which the last ones stand further on. -/
theorem forM_perform_append {ss xs ys : List Derivation}
    (h : ss.map (moved 0 0) = xs.map (moved 0 0) ++ ys.map (moved bytes lines)) :
    ss.forM (perform limits) = xs.forM (perform limits)
      >>= fun _ => Work.moved bytes lines (ys.forM (perform limits)) := by
  calc ss.forM (perform limits)
      = (ss.map (moved 0 0)).forM (perform limits) := by
        rw [forM_perform_moved, Work.moved_zero]
    _ = (xs.map (moved 0 0)).forM (perform limits)
          >>= fun _ => (ys.map (moved bytes lines)).forM (perform limits) := by
        rw [h]
        exact List.forM_append
    _ = _ := by rw [forM_perform_moved, forM_perform_moved, Work.moved_zero]

end Derivation

end Places

/-! ## 3. Programs -/

/-- A source has an identifier of this name in it. -/
def Mentions (source name : String) : Prop :=
  ∃ leaves, tokenize source = .ok leaves ∧ ∃ n ∈ leaves, n.isIdentifier name

namespace Context

/-- Statements leave the limits as they are. -/
theorem forM_perform_limits {limits : Limits} {c c' : Context} {ss : List Derivation}
    (hss : ∀ s ∈ ss, Shaped s ∧ s.symbol = .statement)
    (h : (ss.forM (perform limits)).run c = .ok () c') : c'.limits = c.limits := by
  induction ss generalizing c with
  | nil =>
      cases h
      rfl
  | cons s ss ih =>
      obtain ⟨_, t, hs, hrest⟩ := Work.exists_of_bind h
      obtain ⟨hshaped, hsymbol⟩ := hss s List.mem_cons_self
      obtain ⟨id, target, value, name, rfl, -, -, hname, -, -⟩ := hshaped.exists_assignment hsymbol
      obtain ⟨room, v, n, -, -, -, hlimits⟩ := perform_ok hname hs
      rw [ih (fun s' hs' => hss s' (List.mem_cons_of_mem _ hs')) hrest, hlimits]

/-- The tree of a program performs its statements. -/
theorem walk_of_parseSource {source : String} {c c' : Context} {tree : Tree} {d : Derivation}
    (h : (parseSource source).run c = .ok tree c') (hd : tree.arena.Unfolds tree.root d)
    (hs : d.symbol = .codeBlock) :
    (∀ s ∈ d.statements, Shaped s ∧ s.symbol = .statement)
      ∧ walk tree.arena tree.root = (do
        let limits := (← get).limits
        d.statements.forM (perform limits)) := by
  obtain ⟨leaves, w, htokens, hparse, harena, -⟩ := parseSource_ok h
  have hshaped := (parse_shaped htokens hparse (harena ▸ hd)).1
  obtain ⟨hholds, hroot, -⟩ := hd
  refine ⟨fun s hs => ?_, hroot ▸ walk_eq hshaped hs hholds⟩
  obtain ⟨hs, hsymbol, -⟩ := hshaped.of_mem_statements hholds hs
  exact ⟨hs, hsymbol⟩

/-- Below a root that is a block there is a block. -/
theorem exists_block_of_root {source : String} {c c' : Context} {tree : Tree}
    (h : (parseSource source).run c = .ok tree c')
    (hs : (tree.arena.get? tree.root).map (·.symbol) = some .codeBlock) :
    ∃ d, tree.arena.Unfolds tree.root d ∧ d.symbol = .codeBlock := by
  obtain ⟨leaves, w, htokens, hparse, harena, -⟩ := parseSource_ok h
  obtain ⟨d, -, hunfolds, -⟩ := exists_unfolds (tokenize_genuine htokens) hparse
  have hget := hunfolds.1.get?
  rw [harena, ← hunfolds.2.1, hget] at hs
  exact ⟨d, harena ▸ hunfolds, Option.some.inj hs⟩

/-- **Programs compose by concatenation.** Two sources that are programs and have no name in common
are a program one below the other. It has the statements of the first, then those of the second as
many bytes and lines further on as the first one takes, with the end of its last line. In any
context it does what the first does and then, if that has succeeded, what the second does: the same
contexts are reached, by the same successes and failures, and a failure of the second is reported
further on. -/
theorem walk_append {source source' : String} {c₁ c₁' c₂ c₂' : Context} {tree tree' : Tree}
    {d d' : Derivation} (h : (parseSource source).run c₁ = .ok tree c₁')
    (hd : tree.arena.Unfolds tree.root d) (hs : d.symbol = .codeBlock)
    (h' : (parseSource source').run c₂ = .ok tree' c₂')
    (hd' : tree'.arena.Unfolds tree'.root d') (hs' : d'.symbol = .codeBlock)
    (hapart : ∀ name, Mentions source name → ¬ Mentions source' name) (c : Context) :
    ∃ whole e c', (parseSource (source ++ "\n" ++ source')).run c = .ok whole c'
      ∧ whole.arena.Unfolds whole.root e ∧ e.symbol = .codeBlock
      ∧ e.statements.map (moved 0 0) = d.statements.map (moved 0 0) ++ d'.statements.map
          (moved (byteLength source.toList + 1) (lineBreaks source.toList + 1))
      ∧ walk whole.arena whole.root = (do
          walk tree.arena tree.root
          Work.moved (byteLength source.toList + 1) (lineBreaks source.toList + 1)
            (walk tree'.arena tree'.root)) := by
  obtain ⟨leaves, w, htokens, hparse, harena, -⟩ := parseSource_ok h
  obtain ⟨leaves', w', htokens', hparse', harena', -⟩ := parseSource_ok h'
  have haccepted : Accepted leaves d :=
    ⟨tokenize_genuine htokens, ⟨_, _, w, hparse, harena ▸ hd⟩, hs⟩
  have haccepted' : Accepted leaves' d' :=
    ⟨tokenize_genuine htokens', ⟨_, _, w', hparse', harena' ▸ hd'⟩, hs'⟩
  have hnames : ∀ name, (∃ n ∈ leaves, n.isIdentifier name) →
      ¬ ∃ n ∈ leaves', n.isIdentifier name := by
    intro name hname hname'
    exact hapart name ⟨leaves, htokens, hname⟩ ⟨leaves', htokens', hname'⟩
  obtain ⟨root, u, e, hwhole, hunfolds, hblock, hstatements⟩ := haccepted.append haccepted' hnames
    (byteLength source.toList + 1) (lineBreaks source.toList + 1) c.journal
  have hsource := parseSource_run (tokenize_append htokens htokens') hwhole
  refine ⟨⟨u.arena, root⟩, e, _, hsource, hunfolds, hblock, hstatements, ?_⟩
  obtain ⟨hss, hwalk⟩ := walk_of_parseSource h hd hs
  rw [hwalk, (walk_of_parseSource h' hd' hs').2, (walk_of_parseSource hsource hunfolds hblock).2]
  funext c
  show e.statements.forM (perform c.limits) c
    = (d.statements.forM (perform c.limits) >>= fun _ => Work.moved _ _ (do
      let limits := (← get).limits
      d'.statements.forM (perform limits))).run c
  rw [forM_perform_append hstatements]
  show (_ >>= _ : Work Context Unit).run c = _
  rw [EStateM.run_bind, EStateM.run_bind]
  cases hrun : (d.statements.forM (perform c.limits)).run c with
  | error f t => rfl
  | ok u t =>
      -- the second walk reads its limits from the context that the first one leaves
      rw [← forM_perform_limits hss hrun]
      rfl

/-- One `U` is allowed. Each program has one, so the second is refused where it stands now. -/
theorem walk_append_unsure :
    ∃ whole c c', (parseSource ("def val x as U;" ++ "\n" ++ "def val y as U;")).run {}
        = .ok whole c
      ∧ (walk whole.arena whole.root).run { limits.maxUnsure := 1 }
        = .error (.diagnostic ⟨.unsureLimit 1, some ⟨29, 30⟩, 2⟩) c'
      ∧ c'.store.atoms = 1 := by
  have hcomputed : ((Work.succeeded ((parseSource "def val x as U;").run {})).bind fun p =>
      (Work.succeeded ((parseSource "def val y as U;").run {})).bind fun q =>
        (Work.failed ((do
          walk p.1.arena p.1.root
          Work.moved 16 1 (walk q.1.arena q.1.root) : Work Context Unit).run
            { limits.maxUnsure := 1 })).map fun r =>
          ((p.1.arena.get? p.1.root).map Node.symbol, (q.1.arena.get? q.1.root).map Node.symbol,
            r.1, r.2.store.atoms))
      = some (some .codeBlock, some .codeBlock,
          .diagnostic ⟨.unsureLimit 1, some ⟨29, 30⟩, 2⟩, 1) := by
    decide +kernel
  have honly : ∀ source x : String, (tokenize source).toOption.map
      (·.all fun n => n.symbol != .identifier || n.literal? == some x) = some true →
      ∀ name, Mentions source name → name = x := by
    rintro source x hall name ⟨leaves, htokens, n, hn, hname⟩
    rw [htokens] at hall
    have hn := List.all_eq_true.mp (Option.some.inj hall) n hn
    unfold Node.isIdentifier at hname
    simp only [Bool.and_eq_true, beq_iff_eq] at hname
    simpa [hname.1, hname.2] using hn
  have hapart : ∀ name, Mentions "def val x as U;" name → ¬ Mentions "def val y as U;" name := by
    intro name hx hy
    have hx := honly _ "x" (by decide +kernel) name hx
    have hy := honly _ "y" (by decide +kernel) name hy
    exact absurd (hx.symm.trans hy) (by decide)
  obtain ⟨⟨tree, c₁⟩, hsource, hcomputed⟩ := Option.bind_eq_some_iff.mp hcomputed
  obtain ⟨⟨tree', c₂⟩, hsource', hcomputed⟩ := Option.bind_eq_some_iff.mp hcomputed
  obtain ⟨⟨f, c'⟩, hfailed, hcomputed⟩ := Option.map_eq_some_iff.mp hcomputed
  simp only [Prod.mk.injEq] at hcomputed
  obtain ⟨hs, hs', rfl, hatoms⟩ := hcomputed
  have hsource := Work.eq_ok_of_succeeded hsource
  have hsource' := Work.eq_ok_of_succeeded hsource'
  have hfailed := Work.eq_error_of_failed hfailed
  obtain ⟨d, hd, hblock⟩ := exists_block_of_root hsource hs
  obtain ⟨d', hd', hblock'⟩ := exists_block_of_root hsource' hs'
  obtain ⟨whole, e, c, hwhole, -, -, -, heq⟩ :=
    walk_append hsource hd hblock hsource' hd' hblock' hapart {}
  exact ⟨whole, c, c', hwhole, heq ▸ hfailed, hatoms⟩

end Context

end Trivalent
