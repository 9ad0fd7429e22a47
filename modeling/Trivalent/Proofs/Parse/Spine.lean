import Trivalent.Proofs.Evaluation.Tree
import Trivalent.Proofs.Parse.Completeness
import Trivalent.Proofs.Places
import Trivalent.Proofs.Work

/-!
# Blocks lean to the left

Statements are completed in any order: a short one may be a statement while one before it still has
parentheses to fold or a name to wait for. Blocks arise in the order of the source nevertheless, and
a block is put together with the statement behind it and never with a longer block.

* `Derivation.Single`, `Derivation.Leans` -- a block of one statement, and a chain of them that
  hangs from left children only;
* `Leaning` -- **the invariant of a row**: before a block there is nothing to fold, where there is a
  block no declaration is pending, blocks lean to the left, and a block behind another one has one
  statement;
* `Step.leaning` -- the step lemma. A statement becomes a block only when no wider window is a
  frame, and the leftmost one does first, so all that lies before it has been folded;
* `Workspace.reduceWindow_adds` -- what a pass adds to the arena; `Workspace.Reduces.aligned` --
  passes keep the invariant, and every `BOTH` node that they have made leans to the left;
* `parse_appends` -- **whatever comes of a parse, every `BOTH` node puts a block of one statement
  behind a block that precedes it in the source**, so a walk never enters a block from within
  another one.
-/

namespace Trivalent

open Trivalent.Derivation

/-! ## 1. Spines -/

/-- A block of one statement. -/
inductive Derivation.Single : Derivation → Prop
  | intro (id : NodeId) {s : Derivation} (hs : s.symbol = .statement) :
      Single (above id .codeBlock .left s none)

/-- A block that hangs from left children: each `BOTH` node of it has one statement to the right. -/
inductive Derivation.Leans : Derivation → Prop
  | single {d : Derivation} (hd : d.Single) : Leans d
  | append (id : NodeId) {l r : Derivation} (hl : l.Leans) (hr : r.Single) :
      Leans (above id .codeBlock .both l (some r))

/-! ## 2. Rows -/

/-- Blocks in a row, and what has become of the row before them. -/
structure Leaning (row : List Derivation) : Prop where
  /-- Blocks lean to the left. -/
  leans : ∀ b ∈ row, b.symbol = .codeBlock → b.Leans
  /-- Before a block there is nothing to fold. -/
  folded : ∀ before b after, row = before ++ b :: after → b.symbol = .codeBlock →
    Grammar.standard.find (before.map symbol) = none
  /-- Where there is a block, no declaration is pending. -/
  declared : ∀ b ∈ row, b.symbol = .codeBlock → pending .semicolon (row.map mark) = []
  /-- Behind a block there is at most a block of one statement. -/
  single : ∀ before l r after, row = before ++ l :: r :: after → l.symbol = .codeBlock →
    r.symbol = .codeBlock → r.Single

/-- A row without blocks is such a row. -/
theorem leaning_of_forall_ne {row : List Derivation} (h : ∀ d ∈ row, d.symbol ≠ .codeBlock) :
    Leaning row where
  leans b hb hs := absurd hs (h b hb)
  folded before b after hrow hs := absurd hs (h b (by simp [hrow]))
  declared b hb hs := absurd hs (h b hb)
  single before l r after hrow hs := absurd hs (h l (by simp [hrow]))

section Fold

variable {before window after : List Derivation} {new : Derivation} {next : NodeId}

/-- There is no block behind a window that can be folded. -/
theorem Leaning.ne_of_mem_after (h : Leaning (before ++ window ++ after)) {p : Production}
    (hlookup : Grammar.standard.lookup (window.map symbol) = some p) :
    ∀ b ∈ after, b.symbol ≠ .codeBlock := by
  intro b hb hs
  obtain ⟨x, y, rfl⟩ := List.append_of_mem hb
  have hnone := h.folded (before ++ window ++ x) b y (by simp) hs
  rw [List.map_append, List.map_append] at hnone
  exact Grammar.find_eq_none hnone ⟨rfl, hlookup⟩

/-- Where nothing in `after` is a block, a block of the row is the new node or lies before it. -/
theorem block_cases {x y : List Derivation} {b : Derivation}
    (hafter : ∀ b ∈ after, b.symbol ≠ .codeBlock) (hb : b.symbol = .codeBlock)
    (hrow : before ++ new :: after = x ++ b :: y) :
    (x = before ∧ b = new) ∨ ∃ z, before = x ++ b :: z := by
  rcases List.append_eq_append_iff.mp hrow with ⟨z, rfl, hz⟩ | ⟨z, rfl, hz⟩
  · cases z with
    | nil =>
        obtain ⟨rfl, -⟩ := List.cons.inj hz
        exact .inl ⟨by simp, rfl⟩
    | cons d z =>
        obtain ⟨-, rfl⟩ := List.cons.inj hz
        exact absurd hb (hafter b (by simp))
  · cases z with
    | nil =>
        obtain ⟨rfl, -⟩ := List.cons.inj hz
        exact .inl ⟨by simp, rfl⟩
    | cons d z =>
        obtain ⟨rfl, -⟩ := List.cons.inj hz
        exact .inr ⟨z, rfl⟩

/-- A fold without a declaration keeps the invariant, if a block that it makes is in order. -/
theorem Leaning.fold (h : Leaning (before ++ window ++ after)) (hfolds : Folds next window new)
    (hafter : ∀ b ∈ after, b.symbol ≠ .codeBlock)
    (hnew : new.symbol = .codeBlock → new.Leans
      ∧ Grammar.standard.find (before.map symbol) = none
      ∧ pending .semicolon ((before ++ window ++ after).map mark) = []
      ∧ ∀ x l, before = x ++ [l] → l.symbol = .codeBlock → new.Single) :
    Leaning (before ++ new :: after) where
  leans b hb hs := by
    obtain ⟨x, y, hrow⟩ := List.append_of_mem hb
    rcases block_cases hafter hs hrow with ⟨-, rfl⟩ | ⟨z, rfl⟩
    · exact (hnew hs).1
    · exact h.leans b (by simp) hs
  folded x b y hrow hs := by
    rcases block_cases hafter hs hrow with ⟨rfl, rfl⟩ | ⟨z, rfl⟩
    · exact (hnew hs).2.1
    · exact h.folded x b (z ++ window ++ after) (by simp) hs
  declared b hb hs := by
    obtain ⟨x, y, hrow⟩ := List.append_of_mem hb
    have hnone : pending .semicolon ((before ++ window ++ after).map mark) = [] := by
      rcases block_cases hafter hs hrow with ⟨-, rfl⟩ | ⟨z, rfl⟩
      · exact (hnew hs).2.2.1
      · exact h.declared b (by simp) hs
    obtain ⟨hpending, hpending'⟩ := @Folds.pending_eq next before window after new hfolds
    rw [hpending] at hnone
    rw [hpending']
    simp_all
  single x l r y hrow hl hr := by
    have hrow' : before ++ new :: after = (x ++ [l]) ++ r :: y := by simpa using hrow
    rcases block_cases hafter hr hrow' with ⟨hx, rfl⟩ | ⟨z, rfl⟩
    · exact (hnew hr).2.2.2 x l hx.symm hl
    · exact h.single x l r (z ++ window ++ after) (by simp) hl hr

/-- A block is made from a statement or from two blocks. -/
theorem Folds.block_cases (h : Folds next window new) (hs : new.symbol = .codeBlock) :
    (window.length = 1 ∧ new.Single)
      ∨ ∃ l r, window = [l, r] ∧ l.symbol = .codeBlock ∧ r.symbol = .codeBlock
        ∧ new = above next .codeBlock .both l (some r) := by
  cases h with
  | single hstatement => exact .inl ⟨rfl, .intro next hstatement⟩
  | block hl hr => exact .inr ⟨_, _, rfl, hl, hr, rfl⟩
  | _ => cases hs

end Fold

/-- Where the widest window has one symbol, nothing before the leftmost one can be folded. -/
theorem find_before_eq_none {before window after : List Derivation} (hlen : window.length = 1)
    (hfirst : ∀ b frame a q,
      Grammar.standard.IsFrame ((before ++ window ++ after).map symbol) b frame a q →
      frame.length ≤ window.length ∧ (frame.length = window.length → before.length ≤ b.length)) :
    Grammar.standard.find (before.map symbol) = none := by
  refine Grammar.find_eq_none_of_forall fun b frame a q hframe => ?_
  have hrow := hframe.append [] ((window ++ after).map symbol)
  rw [List.nil_append, ← List.map_append, ← List.append_assoc] at hrow
  obtain ⟨hwidth, hleft⟩ := hfirst _ _ _ _ hrow
  have hpos := (Grammar.lookup_length hframe.lookup).1
  have hbefore := congrArg List.length hframe.row
  simp only [List.length_map, List.length_append] at hbefore
  have hle : before.length ≤ b.length := hleft (by omega)
  omega

/-- A declaration is pending only if there is a window of two symbols. -/
theorem pending_eq_nil_of_forall_le {row : List Derivation}
    (h : ∀ b frame a q, Grammar.standard.IsFrame (row.map symbol) b frame a q → frame.length ≤ 1) :
    pending .semicolon (row.map mark) = [] := by
  refine List.eq_nil_iff_forall_not_mem.mpr fun name hname => ?_
  obtain ⟨b, a, hsplit⟩ := exists_declaration_of_mem_pending hname
  exact absurd (h b _ a _ ⟨hsplit, Grammar.lookup_standard_iff.mpr .declare⟩) (by decide)

/-- A declaration leaves no block in a row that has none. -/
theorem symbol_ne_of_mem_coverAll {row : List Derivation} {name : String} {next : NodeId}
    (h : ∀ d ∈ row, d.symbol ≠ .codeBlock) :
    ∀ d ∈ coverAll .valVar name next row, d.symbol ≠ .codeBlock := by
  intro d hd
  rcases mem_coverAll hd with hd | ⟨id, i, -, -, rfl⟩
  · exact h d hd
  · exact nofun

/-- **A step keeps the invariant.** -/
theorem Step.leaning {next : NodeId} {row row' : List Derivation} {declared : Option String}
    (h : Step .standard .bind next row declared row') (hrow : Leaning row) : Leaning row' := by
  obtain ⟨before, window, after, new, p, rfl, hfolds, hlookup, -, hfirst, rfl, rfl⟩ :=
    h.folds_first Grammar.lookup_standard_iff.mp
  have hpending := (@Folds.pending_eq next before window after new hfolds).1
  cases hdeclares : new.declares? with
  | some name =>
      -- a name is pending, so there is no block that its binding could set free
      have hnone : ∀ d ∈ before ++ window ++ after, d.symbol ≠ .codeBlock := by
        intro d hd hs
        rw [hrow.declared d hd hs, hdeclares] at hpending
        simp at hpending
      refine leaning_of_forall_ne (symbol_ne_of_mem_coverAll fun d hd => ?_)
      rcases List.mem_append.mp hd with hd | hd
      · exact hnone d (by simp [hd])
      · rcases List.mem_cons.mp hd with rfl | hd
        · cases hfolds <;> first | cases hdeclares | exact nofun
        · exact hnone d (by simp [hd])
  | none =>
      refine hrow.fold hfolds (hrow.ne_of_mem_after hlookup) fun hs => ?_
      rcases hfolds.block_cases hs with ⟨hlen, hsingle⟩ | ⟨l, r, rfl, hl, hr, rfl⟩
      · refine ⟨.single hsingle, find_before_eq_none hlen hfirst, ?_, fun _ _ _ _ => hsingle⟩
        refine pending_eq_nil_of_forall_le fun b frame a q hframe => ?_
        rw [← hlen]
        exact (hfirst b frame a q hframe).1
      · have hsingle := hrow.single before l r after (by simp) hl hr
        refine ⟨.append next (hrow.leans l (by simp) hl) hsingle,
          hrow.folded before l (r :: after) (by simp) hl, hrow.declared l (by simp) hl, ?_⟩
        -- two blocks further to the left would have been put together first
        rintro x d rfl hd
        have hframe : Grammar.standard.IsFrame ((x ++ [d] ++ [l, r] ++ after).map symbol)
            (x.map symbol) [.codeBlock, .codeBlock] ((r :: after).map symbol)
            ⟨.codeBlock, .both, 0, 1, false⟩ := ⟨by simp [hd, hl], rfl⟩
        have hle := (hfirst _ _ _ _ hframe).2 rfl
        simp at hle

/-! ## 3. Passes -/

theorem action_above (id : NodeId) (symbol : Symbol) (action : Action) (left : Derivation)
    (right : Option Derivation) : (above id symbol action left right).node.action = action := by
  cases right <;> rfl

namespace Workspace

/-- An arena that has grown by the node `new` and by nodes that cover others. -/
structure Adds (arena arena' : Arena) (new : Derivation) : Prop where
  within : arena.Within arena'
  holds : arena'.Holds new
  cases : ∀ {id node}, arena'.get? id = some node →
    arena.get? id = some node ∨ id = new.id ∨ node.action = .left

/-- What a declaration binds is covered by nodes with the action `left`. -/
theorem Adds.grafts {arena : Arena} {new : Derivation} {s t : Arena × List Derivation}
    (hs : Adds arena s.1 new) (h : Grafts (·.action = .left) s t) : Adds arena t.1 new := by
  refine h.preserves (P := fun t => Adds arena t.1 new) ?_ hs
  intro s t hgraft hs
  refine ⟨hs.within.trans hgraft.within, hs.holds.mono hgraft.within, fun {id node} hget => ?_⟩
  cases hgraft with
  | intro allowed leftChild rightChild =>
      rcases Arena.get?_push_cases hget with ⟨-, rfl⟩ | hget
      · exact .inr (.inr ((action_above ..).trans allowed))
      · exact hs.cases hget

/-- **A pass puts one node over a window that it folds**, and other nodes only over identifiers. -/
theorem reduceWindow_adds {w : Workspace} {row : List Derivation} {window : Grammar.Window}
    (hrow : ∀ d ∈ row, w.arena.Holds d)
    (hfound : Grammar.standard.find (row.map symbol) = some window) :
    ∃ ids w' before win after new, (reduceWindow .bind (row.map slot) window).run w = .ok ids w'
      ∧ row = before ++ win ++ after ∧ Folds w.arena.size win new ∧ Adds w.arena w'.arena new := by
  obtain ⟨before, win, after, rfl, hpos, hwidth, hlookup⟩ := exists_window hfound
  obtain ⟨hl, hr⟩ := Grammar.lookup_children hlookup
  rw [List.length_map] at hl hr
  have hleft := List.getElem?_eq_getElem hl
  generalize win[window.production.left] = left at hleft
  obtain ⟨right, hright⟩ : ∃ right,
      right = if window.production.hasRight then win[window.production.right]? else none :=
    ⟨_, rfl⟩
  obtain ⟨new, hnew⟩ : ∃ new, new
      = above w.arena.size window.production.result window.production.action left right := ⟨_, rfl⟩
  have hwin : ∀ d ∈ win, w.arena.Holds d := fun d hd => hrow d (by simp [hd])
  have hchild := hwin left (List.mem_of_getElem? hleft)
  have hgraft : Graft (fun _ => True) (w.arena, before ++ win ++ after)
      (w.arena.push new.node, before ++ new :: after) := hnew ▸ .intro trivial hleft hright
  have hfolds : Folds w.arena.size win new := hnew ▸
    (folds_of_standardFrame (Grammar.lookup_standard_iff.mp hlookup) rfl hleft hright).1
  have hholds := hgraft.holds hrow
  have hadds : Adds w.arena (w.arena.push new.node) new := by
    refine ⟨w.arena.within_push _, hholds new (by simp), fun hget => ?_⟩
    rcases Arena.get?_push_cases hget with ⟨rfl, -⟩ | hget
    · exact .inr (.inl (by rw [hnew, id_above]))
    · exact .inl hget
  obtain ⟨journal, heq⟩ := @reduceWindow_eq w .bind before win after left right window hpos hwidth
    hleft hright hr hwin new hnew
  rw [heq]
  unfold bindDeclared
  split
  · have hnewHolds : (w.arena.push new.node).Holds
        (above w.arena.size window.production.result window.production.action left right) := by
      rw [← hnew]
      exact hadds.holds
    obtain ⟨count, row', w', hrun, hgrafts⟩ := @bindName_grafts (·.action = .left)
      ⟨w.arena.push new.node, w.bound, journal⟩ _ _ _ _ _ _ rfl hnewHolds
      (hchild.mono (w.arena.within_push _)) hholds
    rw [EStateM.run_bind, show new.id = w.arena.size by rw [hnew, id_above], hrun]
    exact ⟨_, w', before, win, after, new, rfl, rfl, hfolds, hadds.grafts hgrafts⟩
  · exact ⟨_, _, before, win, after, new, rfl, rfl, hfolds, hadds⟩

/-- A pass makes a step, and adds to the arena what the step folds. -/
theorem advance_adds {w w' : Workspace} {row : List Derivation} {row' : List Slot}
    {window : Grammar.Window} (hrow : ∀ d ∈ row, w.arena.Holds d)
    (hfound : Grammar.standard.find (row.map symbol) = some window)
    (hpass : (advance .bind (row.map slot) window).run w = .ok row' w') :
    ∃ declared next, row' = next.map slot ∧ Step .standard .bind w.arena.size row declared next
      ∧ (∀ d ∈ next, w'.arena.Holds d)
      ∧ ∃ before win after new, row = before ++ win ++ after ∧ Folds w.arena.size win new
        ∧ Adds w.arena w'.arena new := by
  obtain ⟨declared, next, w₁, hrun, hstep, hgrown⟩ :=
    @reduceWindow_run .standard .bind w row window hrow hfound
  obtain ⟨ids, w₂, before, win, after, new, hreduce, hsplit, hfolds, hadds⟩ :=
    reduceWindow_adds hrow hfound
  rw [hrun] at hreduce
  cases hreduce
  -- what follows looks symbols up and writes an event
  unfold advance at hpass
  rw [EStateM.run_bind, hrun] at hpass
  simp only [EStateM.run_bind] at hpass
  rw [slots_run hgrown.holds] at hpass
  cases hpass
  exact ⟨declared, next, rfl, hstep, hgrown.holds, before, win, after, new, hsplit, hfolds, hadds⟩

end Workspace

/-- Every `BOTH` node of an arena is the topmost one of a block that leans to the left. -/
def Arena.Leans (arena : Arena) : Prop :=
  ∀ id node, arena.get? id = some node → node.action = .both →
    ∃ d, arena.Holds d ∧ d.id = id ∧ Shaped d ∧ d.Leans

/-- An arena and a row as they are at every pass of a parse. -/
structure Aligned (arena : Arena) (row : List Derivation) : Prop where
  holds : ∀ d ∈ row, arena.Holds d
  shaped : ∀ d ∈ row, Shaped d
  leaning : Leaning row
  leans : arena.Leans

/-- The one fold that makes a `BOTH` node makes it over two blocks. -/
theorem Folds.eq_block {next : NodeId} {window : List Derivation} {new : Derivation}
    (h : Folds next window new) (haction : new.node.action = .both) :
    ∃ l r, window = [l, r] ∧ l.symbol = .codeBlock ∧ r.symbol = .codeBlock
      ∧ new = above next .codeBlock .both l (some r) := by
  cases h with
  | block hl hr => exact ⟨_, _, rfl, hl, hr, rfl⟩
  | plain c => cases c <;> cases haction
  | pair c => cases c <;> cases haction
  | _ => cases haction

namespace Workspace

/-- **A pass keeps the arena and the row in line.** -/
theorem advance_aligned {w w' : Workspace} {row : List Derivation} {row' : List Slot}
    {window : Grammar.Window} (h : Aligned w.arena row)
    (hfound : Grammar.standard.find (row.map symbol) = some window)
    (hpass : (advance .bind (row.map slot) window).run w = .ok row' w') :
    ∃ next, row' = next.map slot ∧ Aligned w'.arena next := by
  obtain ⟨declared, next, rfl, hstep, hholds, before, win, after, new, rfl, hfolds, hadds⟩ :=
    advance_adds h.holds hfound hpass
  refine ⟨next, rfl, hholds, hstep.shaped h.shaped, hstep.leaning h.leaning, ?_⟩
  intro id node hget haction
  rcases hadds.cases hget with hold | rfl | hcover
  · obtain ⟨d, hd, hid, hshaped, hleans⟩ := h.leans id node hold haction
    exact ⟨d, hd.mono hadds.within, hid, hshaped, hleans⟩
  · have hnode : node = new.node := Option.some.inj (hget.symm.trans hadds.holds.get?)
    rw [hnode] at haction
    obtain ⟨l, r, rfl, hl, hr, rfl⟩ := hfolds.eq_block haction
    have hparts : ∀ d ∈ [l, r], Shaped d := fun d hd =>
      h.shaped d (List.mem_append_left _ (List.mem_append_right _ hd))
    refine ⟨_, hadds.holds, rfl, .folded hfolds hparts, ?_⟩
    exact .append _ (h.leaning.leans l (by simp) hl)
      (h.leaning.single before l r after (by simp) hl hr)
  · rw [hcover] at haction
    cases haction

/-- Passes one after another keep them in line. -/
theorem Reduces.aligned {w w' : Workspace} {steps : Nat} {row : List Derivation} {row' : List Slot}
    (h : Reduces .standard .bind steps w (row.map slot) w' row') (hrow : Aligned w.arena row) :
    ∃ last, row' = last.map slot ∧ Aligned w'.arena last := by
  generalize hslots : row.map slot = first at h
  induction h generalizing row with
  | refl w first => exact ⟨row, hslots.symm, hrow⟩
  | step found pass rest ih =>
      subst hslots
      rw [symbols_slots] at found
      obtain ⟨next, rfl, hnext⟩ := advance_aligned hrow found pass
      exact ih hnext rfl

end Workspace

/-! ## 4. Parses -/

/-- No token is a block or does what a block does. -/
theorem Lexeme.Genuine.ne_block {l : Lexeme} (h : l.Genuine) :
    l.symbol ≠ .codeBlock ∧ l.action ≠ .both := by
  cases h with
  | @word s hs =>
      refine ⟨fun hblock => ?_, nofun⟩
      rw [show s = .codeBlock from hblock] at hs
      cases hs
  | name text => exact ⟨nofun, nofun⟩
  | constant c => rcases c with (_ | _) | _ <;> exact ⟨nofun, nofun⟩

/-- The leaves of a program are in line: there is no block yet and no `BOTH` node. -/
theorem aligned_leafRow {leaves : List Node} (hgenuine : GenuineLeaves leaves)
    (journal : Journal) :
    Aligned (Workspace.ofLeaves leaves journal).arena (leafRow leaves) where
  holds := holds_leafRow leaves journal
  shaped := shaped_leafRow hgenuine
  leaning := by
    refine leaning_of_forall_ne fun d hd => ?_
    obtain ⟨i, hi, rfl⟩ := List.mem_mapIdx.mp hd
    obtain ⟨l, hlexeme, hl⟩ := hgenuine _ (List.getElem_mem hi)
    rw [symbol_leaf, (Node.lexeme?_eq_some hlexeme).1]
    exact hl.ne_block.1
  leans := by
    intro id node hget haction
    obtain ⟨l, hlexeme, hl⟩ := hgenuine node (Workspace.get?_ofLeaves hget)
    rw [(Node.lexeme?_eq_some hlexeme).2.1] at haction
    exact absurd haction hl.ne_block.2

/-- Whatever comes of a parse, the arena has the blocks that it is to have. -/
theorem parse_aligned {leaves : List Node} (hgenuine : GenuineLeaves leaves) (journal : Journal) :
    (parseArena leaves journal).Leans := by
  have hleaves := aligned_leafRow hgenuine journal
  obtain ⟨steps, w, row, hreduces, hend⟩ :=
    @Workspace.reduce_reduces .standard .bind _ _ hleaves.holds
  obtain ⟨last, rfl, hlast⟩ := hreduces.aligned hleaves
  rw [ids_leafRow] at hend
  unfold parseArena parse
  rcases hend with ⟨-, hend⟩ | hend
  · rcases Workspace.conclude_cases hlast.holds with ⟨root, -, hconclude⟩ | ⟨d, hconclude⟩
    · rw [hend, hconclude]
      exact hlast.leans
    · rw [hend, hconclude]
      exact hlast.leans
  · rw [hend]
    exact hlast.leans

/-! ## 5. Walks -/

theorem Derivation.Single.action_eq {d : Derivation} (h : d.Single) : d.node.action = .left := by
  cases h
  rfl

theorem Derivation.Leans.symbol_eq {d : Derivation} (h : d.Leans) : d.symbol = .codeBlock := by
  cases h with
  | single hd => cases hd; rfl
  | append => rfl

/-- The parts of a spine are blocks of one statement. -/
theorem Derivation.Leans.single_of_mem_parts {d : Derivation} (h : d.Leans) :
    ∀ p ∈ d.parts, p.Single := by
  induction h with
  | single hd =>
      intro p hp
      cases hd with
      | intro id hs =>
          rw [List.mem_singleton.mp hp]
          exact .intro id hs
  | append id hl hr ih =>
      intro p hp
      rcases List.mem_append.mp hp with hp | hp
      · exact ih p hp
      · rw [List.mem_singleton.mp hp]
        exact hr

namespace Context

variable {limits : Limits} {arena : Arena} {room : Nat} {deeper : NodeId → Work Context Unit}

/-- Only `BOTH` nodes ask for blocks within blocks. -/
theorem walkLevel_of_ne_both {id : NodeId}
    (h : ∀ node, arena.get? id = some node → node.action ≠ .both) (blocks : Nat) :
    walkLevel limits arena room deeper (blocks + 1) id
      = walkLevel limits arena room deeper 1 id := by
  unfold walkLevel
  cases hget : arena.get? id with
  | none =>
      rw [Arena.fetch_absent hget]
      rfl
  | some node =>
      rw [Arena.fetch_eq hget, pure_bind, pure_bind]
      split
      · exact absurd ‹_› (h node hget)
      all_goals rfl

/-- The parts of a block of such an arena are blocks of one statement. -/
theorem exists_parts (h : arena.Leans) {id : NodeId} {node : Node}
    (hget : arena.get? id = some node) (haction : node.action = .both) :
    ∃ parts : List Derivation,
      (blockParts arena node : Work Context (List NodeId)) = pure (parts.map (·.id))
        ∧ ∀ p ∈ parts, arena.Holds p ∧ p.Single := by
  obtain ⟨d, hholds, rfl, hshaped, hleans⟩ := h id node hget haction
  have hnode : node = d.node := Option.some.inj (hget.symm.trans hholds.get?)
  rw [hnode] at haction ⊢
  have hparts := fun p hp => (hshaped.of_mem_parts hleans.symbol_eq hholds p hp).2.2.1
  have hsingle := hleans.single_of_mem_parts
  cases hleans with
  | single hd =>
      rw [hd.action_eq] at haction
      cases haction
  | @append id l r hl hr =>
      have hmem : l ∈ (above id .codeBlock .both l (some r)).subtrees :=
        List.mem_cons_of_mem _ (List.mem_append_left _ (mem_subtrees_iff.mpr (.inl rfl)))
      exact ⟨l.parts ++ [r], blockParts_eq (hshaped.subtree hmem) hl.symbol_eq
        (hholds.subtree hmem), fun p hp => ⟨hparts p hp, hsingle p hp⟩⟩

/-- **A block is never entered from within another one**: a walk that may not do so is the same as
one that may. -/
theorem walkLevel_add_two (h : arena.Leans) (blocks : Nat) (id : NodeId) :
    walkLevel limits arena room deeper (blocks + 2) id
      = walkLevel limits arena room deeper 2 id := by
  by_cases hboth : ∃ node, arena.get? id = some node ∧ node.action = .both
  · obtain ⟨node, hget, haction⟩ := hboth
    obtain ⟨parts, hparts, hsingle⟩ := exists_parts h hget haction
    have hstep : ∀ n, walkLevel limits arena room deeper (n + 1) id
        = (parts.map (·.id)).forM (walkLevel limits arena room deeper n) := by
      intro n
      conv => lhs; unfold walkLevel
      rw [Arena.fetch_eq hget, pure_bind]
      simp only [haction, hparts, pure_bind]
    rw [hstep, hstep]
    refine forM_congr_mem fun part hpart => walkLevel_of_ne_both (fun node' hget' => ?_) blocks
    obtain ⟨p, hp, rfl⟩ := List.mem_map.mp hpart
    obtain ⟨hholds, hone⟩ := hsingle p hp
    rw [← Option.some.inj (hholds.get?.symm.trans hget'), hone.action_eq]
    decide
  · have hother : ∀ node, arena.get? id = some node → node.action ≠ .both :=
      fun node hget haction => hboth ⟨node, hget, haction⟩
    exact (walkLevel_of_ne_both hother (blocks + 1)).trans (walkLevel_of_ne_both hother 1).symm

end Context

/-- A node that puts a block of one statement behind a block, which stops before that one starts. -/
inductive Arena.Appends (arena : Arena) (node : Node) : Prop
  | intro {i j k : NodeId} {left right statement : Node}
      (shape : node.shape = .branch (some i) (some j))
      (getLeft : arena.get? i = some left) (leftSymbol : left.symbol = .codeBlock)
      (getRight : arena.get? j = some right) (rightSymbol : right.symbol = .codeBlock)
      (rightAction : right.action = .left) (rightShape : right.shape = .branch (some k) none)
      (getStatement : arena.get? k = some statement) (isStatement : statement.symbol = .statement)
      (order : left.span.stop ≤ right.span.start)

/-- A `BOTH` node of an arena that leans to the left, where nodes cover their children in order. -/
theorem Arena.Leans.appends {arena : Arena} (h : arena.Leans) {id : NodeId} {node : Node}
    (hget : arena.get? id = some node) (haction : node.action = .both)
    (henclosed : arena.Enclosed node) : arena.Appends node := by
  obtain ⟨d, hholds, rfl, -, hleans⟩ := h id node hget haction
  have hnode : node = d.node := Option.some.inj (hget.symm.trans hholds.get?)
  subst hnode
  cases hleans with
  | single hd =>
      rw [hd.action_eq] at haction
      cases haction
  | @append id l r hl hr =>
      obtain ⟨-, -, -, -, hleft, hright⟩ := hholds
      cases henclosed with
      | leaf shape => cases shape
      | unary shape => cases shape
      | @binary i j left right shape getLeft getRight order =>
          cases shape
          rw [hleft.get?] at getLeft
          rw [hright.get?] at getRight
          cases getLeft
          cases getRight
          cases hr with
          | intro id hs =>
              exact .intro rfl hleft.get? hl.symbol_eq hright.get? rfl rfl rfl
                hright.2.2.2.get? hs order

/-- **Blocks lean to the left**, whatever comes of the parse of a source. Every `BOTH` node that the
parse has made puts a block of one statement behind a block that precedes it in the source. The
parts that its chain is unrolled into are blocks of one statement, and a walk never needs room for a
block within a block. -/
theorem parse_appends {source : String} {leaves : List Node}
    (htokens : tokenize source = .ok leaves) (journal : Journal) :
    (∀ id node, (parseArena leaves journal).get? id = some node → node.action = .both →
        (parseArena leaves journal).Appends node
          ∧ ∃ parts, (Context.blockParts (parseArena leaves journal) node
                : Work Context (List NodeId)) = pure parts
              ∧ ∀ part ∈ parts, ∃ block, (parseArena leaves journal).get? part = some block
                ∧ block.symbol = .codeBlock ∧ block.action = .left)
      ∧ ∀ (limits : Limits) (room : Nat) (deeper : NodeId → Work Context Unit) (blocks : Nat)
          (id : NodeId), Context.walkLevel limits (parseArena leaves journal) room deeper
              (blocks + 2) id
            = Context.walkLevel limits (parseArena leaves journal) room deeper 2 id := by
  have hleans := parse_aligned (tokenize_genuine htokens) journal
  refine ⟨fun id node hget haction => ⟨?_, ?_⟩, fun limits room deeper blocks id =>
    Context.walkLevel_add_two hleans blocks id⟩
  · exact hleans.appends hget haction ((parse_placed htokens journal).1 id node hget).2
  · obtain ⟨parts, hblock, hparts⟩ := Context.exists_parts hleans hget haction
    refine ⟨_, hblock, fun part hpart => ?_⟩
    obtain ⟨p, hp, rfl⟩ := List.mem_map.mp hpart
    obtain ⟨hholds, hsingle⟩ := hparts p hp
    exact ⟨p.node, hholds.get?, (Leans.single hsingle).symbol_eq, hsingle.action_eq⟩

/-- The parse of this source fails at the last token. The third statement is the first one to be
complete, but the other two have become one block before it becomes a block. -/
theorem parse_appends_late :
    ∃ leaves node e w, tokenize "def val x as (T or U); def val y as T; def x as y; )" = .ok leaves
      ∧ parse leaves {} = .error e w ∧ (parseArena leaves {}).get? 36 = some node
      ∧ node.action = .both ∧ (parseArena leaves {}).Appends node := by
  have hcomputed :
      ((tokenize "def val x as (T or U); def val y as T; def x as y; )").toOption.bind
        fun leaves => (Work.failed (parse leaves {})).bind
          fun p => (p.2.arena.get? 36).map (·.action)) = some .both := by
    decide +kernel
  obtain ⟨leaves, htokens, hcomputed⟩ := Option.bind_eq_some_iff.mp hcomputed
  obtain ⟨⟨e, w⟩, hfailed, hcomputed⟩ := Option.bind_eq_some_iff.mp hcomputed
  obtain ⟨node, hget, haction⟩ := Option.map_eq_some_iff.mp hcomputed
  have htokens := Work.eq_ok_of_toOption htokens
  have hparse := Work.eq_error_of_failed hfailed
  have harena : parseArena leaves {} = w.arena := by
    unfold parseArena
    rw [hparse]
  rw [← harena] at hget
  exact ⟨leaves, node, e, w, htokens, hparse, hget, haction,
    ((parse_appends htokens {}).1 36 node hget haction).1⟩

end Trivalent
