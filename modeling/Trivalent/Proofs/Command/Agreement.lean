import Trivalent.Command
import Trivalent.Proofs.Arena.Preorder
import Trivalent.Proofs.Evaluation.Renaming
import Trivalent.Proofs.Evaluation.Safety
import Trivalent.Proofs.Text.Order
import Trivalent.Proofs.Token.Spacing

/-!
# The command does what a run does

The command scans, parses and walks a script by itself, with its printing in between. It comes to
what a run of the script comes to, whatever it is asked to print and whatever it logs.

* `Node.leafText`, `Bindings.entryText` -- the written form of a leaf and of a binding;
  `literal_of_tokenize` -- the text of a leaf needs no escapes between its quotes;
* `render_of_parse` -- **a tree that was parsed has a dump**: its listing in preorder;
* `parse_journal`, `Context.run_journal` -- the journal makes no difference to a parse or to a run;
* `Console.execute_run` -- **what is printed between the stages makes no difference to them**;
* `Command.runScript_agrees` -- **exit status, diagnostic, output and store are those of the run**.
-/

namespace Trivalent

/-! ## 1. Written forms -/

/-- The written form of a leaf: the symbol, the text in quotes, and the span. -/
def Node.leafText (leaf : Node) : String :=
  leaf.symbol.name ++ " \""
    ++ (match leaf.shape with
        | .leaf literal => literal
        | .branch _ _ => "")
    ++ "\" @" ++ toString leaf.span.start ++ ".." ++ toString leaf.span.stop ++ "\n"

theorem Node.tokenLine_eq : Node.tokenLine = Node.leafText := by
  funext leaf
  unfold Node.tokenLine Node.leafText Span.text Node.literal?
  cases leaf.shape <;> simp only [String.append_assoc, Option.getD_some, Option.getD_none]

/-- The written form of a binding: the name and the value, which is `T`, `F`, or the rows of a table
in brackets, `2` for a true one and `0` for a false one. -/
def Bindings.entryText (entry : String × Value) : String :=
  entry.1 ++ " = "
    ++ (match entry.2 with
        | .const truth => if truth then "T" else "F"
        | .table rows =>
          "U[" ++ " ".intercalate (rows.map fun row => if row then "2" else "0") ++ "]")
    ++ "\n"

theorem Bindings.line_eq : Bindings.line = Bindings.entryText := by
  funext ⟨name, value⟩
  unfold Bindings.line Bindings.entryText Value.text
  cases value with
  | const truth => cases truth <;> rfl
  | table rows => rfl

/-- The characters of words and delimiters. A quoted text has them as they are. -/
def isPlain (c : Char) : Bool := Token.isWordChar c || c == '(' || c == ')' || c == ';'

theorem Piece.plain_of_lexeme? {p : Piece} {rest : List Char} {l : Lexeme} (hfits : p.Fits rest)
    (hlexeme : p.lexeme? = some l) : ∀ c ∈ l.literal.toList, isPlain c := by
  obtain ⟨entry, hentry, rfl⟩ := Option.map_eq_some_iff.mp hlexeme
  obtain ⟨t, htoken, hentry⟩ := Option.bind_eq_some_iff.mp hentry
  intro c hc
  rw [String.toList_ofList] at hc
  cases p with
  | word w => simp [isPlain, hfits.2.1 c hc]
  | comment body =>
      cases htoken
      cases hentry
  | unclosed body => cases htoken
  | single d =>
      obtain rfl : c = d := List.mem_singleton.mp hc
      have hmem := mem_of_lookup htoken
      simp only [separators, List.mem_cons, Prod.mk.injEq, List.not_mem_nil, or_false] at hmem
      rcases hmem with ⟨rfl, rfl⟩ | ⟨rfl, rfl⟩ | ⟨rfl, rfl⟩ | ⟨rfl, rfl⟩ | ⟨rfl, rfl⟩ | ⟨rfl, rfl⟩
        | ⟨rfl, rfl⟩ | ⟨rfl, rfl⟩
      -- the first three are delimiters, and the others are not for the grammar
      iterate 3 decide
      all_goals cases hentry

/-- **The text of a leaf needs no escapes** between quotes. -/
theorem literal_of_tokenize {text : String} {leaves : List Node} (h : tokenize text = .ok leaves) :
    ∀ leaf ∈ leaves, ∃ literal, leaf.shape = .leaf literal
      ∧ ∀ c ∈ literal.toList, isPlain c := by
  intro leaf hleaf
  obtain ⟨pieces, hpieces⟩ := exists_madeOf text.toList
  obtain ⟨-, rfl⟩ := fine_of_tokenize hpieces h
  have hlexeme : leaf.lexeme? ∈ (pieces.filterMap Piece.lexeme?).map some := by
    rw [← Piece.spells_leaves 0 1 pieces]
    exact List.mem_map_of_mem hleaf
  obtain ⟨l, hl, hlexeme⟩ := List.mem_map.mp hlexeme
  obtain ⟨p, hp, hpl⟩ := List.mem_filterMap.mp hl
  obtain ⟨rest, hfits⟩ := hpieces.fits p hp
  obtain ⟨-, -, hliteral⟩ := Node.lexeme?_eq_some hlexeme.symm
  refine ⟨l.literal, ?_, Piece.plain_of_lexeme? hfits hpl⟩
  unfold Node.literal? at hliteral
  split at hliteral
  · rename_i literal hshape
    rw [hshape, Option.some.inj hliteral]
  · cases hliteral

/-- **A tree that was parsed has a dump**, the lines of its listing in preorder. -/
theorem render_of_parse {leaves : List Node} {journal : Journal} {root : NodeId} {w : Workspace}
    (hgenuine : GenuineLeaves leaves) (hparse : parse leaves journal = .ok root w) :
    ∃ h : w.arena.Founded, w.arena.render root
      = .ok (String.join ((Arena.preorder h 0 root).map Line.text)) := by
  have hleaves : ∀ n ∈ leaves, n.literal?.isSome := by
    intro n hn
    obtain ⟨l, hlexeme, -⟩ := hgenuine n hn
    rw [(Node.lexeme?_eq_some hlexeme).2.2]
    rfl
  have hforest := Workspace.forest_of_reduce hleaves (fun id hid => List.mem_range.mp hid)
    List.nodup_range hparse
  exact ⟨hforest.founded, Arena.render_eq_preorder _ (hforest.present List.mem_cons_self)⟩

/-! ## 2. Journals -/

theorem Failure.renamed_id (e : Failure) : e.renamed id = e := by
  cases e with
  | fault f => rfl
  | diagnostic d =>
      obtain ⟨problem, span, line⟩ := d
      cases problem <;> rfl

/-- The journal makes no difference to a parse. -/
theorem parse_journal {leaves : List Node} (hgenuine : GenuineLeaves leaves)
    (journal journal' : Journal) :
    Alike (fun root w root' w' => root' = root ∧ w'.arena = w.arena ∧ ∃ names, w.arena.Named names)
      (fun e _ e' _ => e' = e) (parse leaves journal) (parse leaves journal') := by
  have h := parse_renamed hgenuine (Set.injOn_id _) journal journal'
  rw [show Node.renamed id = id from funext Node.renamed_id, List.map_id] at h
  refine h.mono ?_ fun e _ e' _ he => he.1
  rintro root w root' w' ⟨hroot, hw⟩
  exact ⟨hroot, hw.arena.trans w.arena.renamed_id, _, hw.named⟩

namespace Context

/-- The journal makes no difference to a walk, which leaves its bindings in order. -/
theorem walk_journal {arena : Arena} {names : Set String} (harena : arena.Named names)
    (root : NodeId) (limits : Limits) (journal journal' : Journal) :
    Alike (fun _ c _ c' => c'.store = c.store ∧ c.store.bindings.Ordered)
      (fun e c e' c' => e' = e ∧ c'.store = c.store)
      ((walk arena root).run { limits, journal })
      ((walk arena root).run { limits, journal := journal' }) := by
  have hself := walk_empty_renamed (Set.injOn_id _) harena root limits journal journal
  have hother := walk_empty_renamed (Set.injOn_id _) harena root limits journal journal'
  rw [arena.renamed_id] at hself hother
  -- the walk beside itself shows that its bindings are in order
  cases hwalk : (walk arena root).run { limits, journal } with
  | ok u c =>
      rw [hwalk] at hself hother
      obtain ⟨_, c', hwalk', hstore, -⟩ := hother.of_ok
      rw [hwalk']
      refine ⟨hstore.trans hself.1.symm, ?_⟩
      rw [hself.1]
      exact Bindings.ordered_renamed id _
  | error e c =>
      rw [hwalk] at hself hother
      obtain ⟨e', c', hwalk', he, hstore, -⟩ := hother.of_error
      rw [hwalk']
      exact ⟨he.trans e.renamed_id, hstore.trans hself.2.1.symm⟩

/-- **The journal makes no difference to a run**, which leaves its bindings in order. -/
theorem run_journal (text : String) (limits : Limits) (journal journal' : Journal) :
    Alike (fun _ c _ c' => c'.store = c.store ∧ c.store.bindings.Ordered)
      (fun e c e' c' => e' = e ∧ c'.store = c.store)
      ((run text).run { limits, journal }) ((run text).run { limits, journal := journal' }) := by
  rw [run_eq, run_eq]
  cases htokens : tokenize text with
  | error d => exact ⟨rfl, rfl⟩
  | ok leaves =>
      dsimp only
      have hparses := parse_journal (tokenize_genuine htokens) journal journal'
      cases hparse : parse leaves journal with
      | ok root w =>
          rw [hparse] at hparses
          obtain ⟨_, w', hparse', rfl, harena, names, hnamed⟩ := hparses.of_ok
          rw [hparse']
          dsimp only
          rw [harena]
          exact walk_journal hnamed _ limits w.journal w'.journal
      | error e w =>
          rw [hparse] at hparses
          obtain ⟨e', w', hparse', he⟩ := hparses.of_error
          rw [hparse']
          exact ⟨he, rfl⟩

end Context

/-! ## 3. What is printed -/

/-- A text that is printed if it is asked for. -/
def asked (flag : Bool) (text : String) : String := if flag then text else ""

/-- The leaves of a script as they are printed; nothing if it cannot be scanned. -/
def leavesText (text : String) : String :=
  match tokenize text with
  | .ok leaves => String.join (leaves.map Node.leafText)
  | .error _ => ""

/-- The tree of a script as it is printed; nothing if it cannot be parsed. -/
def treeText (text : String) : String :=
  match tokenize text with
  | .ok leaves =>
    match parse leaves {} with
    | .ok root w => (w.arena.render root).toOption.getD ""
    | .error _ _ => ""
  | .error _ => ""

/-- The bindings of a store as they are printed. -/
def storeText (store : Store) : String := String.join (store.bindings.map Bindings.entryText)

/-- A script that is parsed has a tree, whatever the journal. -/
theorem render_eq_treeText {text : String} {leaves : List Node} {journal : Journal} {root : NodeId}
    {w : Workspace} (htokens : tokenize text = .ok leaves)
    (hparse : parse leaves journal = .ok root w) :
    w.arena.render root = .ok (treeText text) ∧ ∃ h : w.arena.Founded,
      treeText text = String.join ((Arena.preorder h 0 root).map Line.text) := by
  have hgenuine := tokenize_genuine htokens
  have hparses := parse_journal hgenuine journal {}
  rw [hparse] at hparses
  obtain ⟨root, w', hparse', rfl, harena, -⟩ := hparses.of_ok
  obtain ⟨hfounded, hdump⟩ := render_of_parse hgenuine hparse
  have htree : treeText text = String.join ((Arena.preorder hfounded 0 root).map Line.text) := by
    unfold treeText
    rw [htokens]
    dsimp only
    rw [hparse']
    dsimp only
    rw [harena, hdump]
    rfl
  exact ⟨hdump.trans (congrArg _ htree.symm), hfounded, htree⟩

/-- A script that is not parsed has no tree. -/
theorem treeText_eq_empty {text : String} {leaves : List Node} {journal : Journal} {e : Failure}
    {w : Workspace} (htokens : tokenize text = .ok leaves)
    (hparse : parse leaves journal = .error e w) : treeText text = "" := by
  have hparses := parse_journal (tokenize_genuine htokens) journal {}
  rw [hparse] at hparses
  obtain ⟨e', w', hparse', -⟩ := hparses.of_error
  unfold treeText
  rw [htokens]
  dsimp only
  rw [hparse']

theorem Context.parseTree_run (leaves : List Node) (c : Context) :
    (parseTree leaves).run c
      = match parse leaves c.journal with
        | .ok root w => .ok ⟨w.arena, root⟩ { c with journal := w.journal }
        | .error e w => .error e { c with journal := w.journal } := by
  unfold parseTree
  rw [EStateM.run_bind]
  unfold withJournal
  cases hparse : parse leaves c.journal with
  | ok root w => simp only [EStateM.run, hparse]; rfl
  | error e w => simp only [EStateM.run, hparse]

namespace Console

theorem inContext_run {α : Type} (work : Work Context α) (c : Console) :
    (inContext work).run c
      = match work.run c.context with
        | .ok a context => .ok a { c with context }
        | .error e context => .error e { c with context } := rfl

theorem printIf_run (flag : Bool) (text : Unit → String) (c : Console) :
    (printIf flag text).run c = .ok () { c with output := c.output ++ asked flag (text ()) } := by
  unfold printIf asked
  cases flag with
  | true => rfl
  | false =>
      rw [if_neg Bool.false_ne_true, if_neg Bool.false_ne_true, String.append_empty]
      rfl

/-- The last stage but one: the dump of a tree, if it is asked for. -/
def showTree (a : Arguments) (tree : Tree) : Work Console Unit :=
  if a.tree then do print (← dump tree) else pure ()

/-- The last stage: a walk, and the bindings if they are asked for. -/
def walkTree (a : Arguments) (tree : Tree) : Work Console Unit := do
  inContext (Context.walk tree.arena tree.root)
  let bindings := (← get).context.store.bindings
  printIf a.printStore fun _ => String.join (bindings.map Bindings.line)

/-- The stages of the command. -/
theorem execute_eq (a : Arguments) (text : String) :
    execute a text = (do
      let leaves ← Context.scanSource text
      printIf a.tokens fun _ => String.join (leaves.map Node.tokenLine)
      let tree ← inContext (Context.parseTree leaves)
      showTree a tree
      walkTree a tree) := by
  unfold execute showTree walkTree
  refine bind_congr fun leaves => bind_congr fun _ => bind_congr fun tree => ?_
  by_cases htree : a.tree = true
  · rw [if_pos htree, if_pos htree, bind_assoc]
  · rw [if_neg htree, if_neg htree, pure_bind]

theorem showTree_run {a : Arguments} {tree : Tree} {text : String}
    (h : tree.arena.render tree.root = .ok text) (c : Console) :
    (showTree a tree).run c = .ok () { c with output := c.output ++ asked a.tree text } := by
  unfold showTree dump asked
  rw [h]
  by_cases htree : a.tree = true
  · rw [if_pos htree, if_pos htree]
    rfl
  · rw [if_neg htree, if_neg htree, String.append_empty]
    rfl

theorem walkTree_run (a : Arguments) (tree : Tree) (c : Console) :
    (walkTree a tree).run c
      = match (Context.walk tree.arena tree.root).run c.context with
        | .ok _ context =>
          .ok () ⟨context, c.output ++ asked a.printStore (storeText context.store)⟩
        | .error e context => .error e ⟨context, c.output⟩ := by
  unfold walkTree
  rw [Bindings.line_eq, EStateM.run_bind, inContext_run]
  cases (Context.walk tree.arena tree.root).run c.context with
  | ok u context =>
      exact printIf_run a.printStore (fun _ => storeText context.store) ⟨context, c.output⟩
  | error e context => rfl

/-- **What is printed between the stages makes no difference to them.** The command leaves the
context that a run leaves, with the same success or failure, and has printed what was asked for and
known by then. -/
theorem execute_run (a : Arguments) (text : String) (c : Context) :
    Alike
      (fun _ c _ console => console.context = c
        ∧ console.output = asked a.tokens (leavesText text) ++ asked a.tree (treeText text)
          ++ asked a.printStore (storeText c.store))
      (fun e c e' console => e' = e ∧ console.context = c
        ∧ console.output = asked a.tokens (leavesText text) ++ asked a.tree (treeText text))
      ((Context.run text).run c) ((execute a text).run { context := c }) := by
  rw [Context.run_eq, execute_eq]
  unfold Context.scanSource
  cases htokens : tokenize text with
  | error d =>
      refine ⟨rfl, rfl, ?_⟩
      simp [asked, leavesText, treeText, htokens]
  | ok leaves =>
      have hleaves : leavesText text = String.join (leaves.map Node.tokenLine) := by
        rw [leavesText, htokens, Node.tokenLine_eq]
      dsimp only
      rw [pure_bind, EStateM.run_bind, printIf_run, ← hleaves, String.empty_append]
      dsimp only
      rw [EStateM.run_bind, inContext_run, Context.parseTree_run]
      cases hparse : parse leaves c.journal with
      | error e w =>
          refine ⟨rfl, rfl, ?_⟩
          rw [treeText_eq_empty htokens hparse]
          simp [asked]
      | ok root w =>
          dsimp only
          rw [EStateM.run_bind, showTree_run (render_eq_treeText htokens hparse).1]
          dsimp only
          rw [walkTree_run]
          cases (Context.walk w.arena root).run { c with journal := w.journal } with
          | ok u c' => exact ⟨rfl, rfl⟩
          | error e c' => exact ⟨rfl, rfl, rfl⟩

end Console

/-! ## 4. Reports -/

theorem Bindings.Ordered.pairwise_bytes {bindings : Bindings} (h : bindings.Ordered) :
    (bindings.map fun b => bytes b.1).Pairwise (· < ·) :=
  List.pairwise_map.mpr (h.imp bytes_lt)

namespace Command

/-- What a report on a script says, given what a run of the script comes to. A run that succeeds is
reported with all that was asked for, the bindings in increasing order of the bytes of their names. A
run that fails is reported with its diagnostic, after the leaves and the tree as far as there are
any. A fault is never reported. -/
def Agrees (a : Arguments) (text : String) (report : Report) :
    EStateM.Result Failure Context Unit → Prop
  | .ok _ c => report.status = 0 ∧ report.diagnostic = none ∧ report.closing = none
    ∧ report.output = asked a.tokens (leavesText text) ++ asked a.tree (treeText text)
      ++ asked a.printStore (storeText c.store)
    ∧ (c.store.bindings.map fun b => bytes b.1).Pairwise (· < ·)
  | .error (.diagnostic d) _ => report.status = 1 ∧ report.diagnostic = some d
    ∧ report.closing = some "This Lej program has terminated."
    ∧ report.output = asked a.tokens (leavesText text) ++ asked a.tree (treeText text)
  | .error (.fault _) _ => False

/-- One run leaves no choice but for what is printed. -/
theorem Agrees.same {a a' : Arguments} {text : String} {report report' : Report}
    {outcome : EStateM.Result Failure Context Unit} (h : Agrees a text report outcome)
    (h' : Agrees a' text report' outcome) :
    report'.status = report.status ∧ report'.diagnostic = report.diagnostic
      ∧ report'.closing = report.closing := by
  cases outcome with
  | ok u c =>
      exact ⟨h'.1.trans h.1.symm, h'.2.1.trans h.2.1.symm, h'.2.2.1.trans h.2.2.1.symm⟩
  | error e c =>
      cases e with
      | fault f => exact h.elim
      | diagnostic d =>
          exact ⟨h'.1.trans h.1.symm, h'.2.1.trans h.2.1.symm, h'.2.2.1.trans h.2.2.1.symm⟩

/-- The command beside a run with a journal of its own. -/
theorem execute_beside_run (a : Arguments) (text : String) (journal journal' : Journal) :
    Alike
      (fun _ c _ console => console.context.store = c.store ∧ c.store.bindings.Ordered
        ∧ console.output = asked a.tokens (leavesText text) ++ asked a.tree (treeText text)
          ++ asked a.printStore (storeText c.store))
      (fun e c e' console => e' = e ∧ console.context.store = c.store
        ∧ console.output = asked a.tokens (leavesText text) ++ asked a.tree (treeText text))
      ((Context.run text).run { limits := a.limits, journal })
      ((Console.execute a text).run
        { context := { limits := a.limits, journal := journal' } }) := by
  have hjournal := Context.run_journal text a.limits journal journal'
  have hexecute := Console.execute_run a text { limits := a.limits, journal := journal' }
  cases hrun : (Context.run text).run { limits := a.limits, journal } with
  | ok u c =>
      rw [hrun] at hjournal
      obtain ⟨u', c', hrun', hstore, hordered⟩ := hjournal.of_ok
      rw [hrun'] at hexecute
      obtain ⟨u'', console, hconsole, rfl, houtput⟩ := hexecute.of_ok
      rw [hconsole]
      rw [hstore] at houtput
      exact ⟨hstore, hordered, houtput⟩
  | error e c =>
      rw [hrun] at hjournal
      obtain ⟨_, c', hrun', rfl, hstore⟩ := hjournal.of_error
      rw [hrun'] at hexecute
      obtain ⟨_, console, hconsole, rfl, rfl, houtput⟩ := hexecute.of_error
      rw [hconsole]
      exact ⟨rfl, hstore, houtput⟩

/-- The report on a script agrees with a run of it. -/
theorem agrees_of_run {a : Arguments} {text : String} (hlimit : a.limits.maxUnsure ≤ 62)
    (hsize : text.utf8ByteSize < maxWord) (spec : Option String) (journal : Journal) :
    Agrees a text (runScript a spec text)
      ((Context.run text).run { limits := a.limits, journal }) := by
  have hbeside := execute_beside_run a text journal { filter := filter a spec }
  unfold runScript
  cases hrun : (Context.run text).run { limits := a.limits, journal } with
  | ok u c =>
      rw [hrun] at hbeside
      obtain ⟨u', console, hconsole, -, hordered, houtput⟩ := hbeside.of_ok
      rw [hconsole]
      exact ⟨rfl, rfl, rfl, houtput, hordered.pairwise_bytes⟩
  | error e c =>
      rw [hrun] at hbeside
      obtain ⟨e', console, hconsole, rfl, -, houtput⟩ := hbeside.of_error
      rw [hconsole]
      cases e' with
      | diagnostic d => exact ⟨rfl, rfl, rfl, houtput⟩
      | fault f =>
          rcases Context.origin_of_run hlimit hsize hrun with hfault | ⟨hfault, -⟩
          · exact hfault
          · exact hfault

/-- **The command does what a run does.** Its exit status, its diagnostic and its output are those
that a run of the script under the same limits gives rise to. What is printed of the leaves is a line
for each of them, whose text needs no escapes; the tree that is printed is the dump of the parsed one,
its nodes in preorder; and the store is the one that the run leaves. What is printed and what is
logged makes no difference to how the command ends. A command line that can be read does what its
arguments say with the script that they name. -/
theorem runScript_agrees {a : Arguments} {text : String} (hlimit : a.limits.maxUnsure ≤ 62)
    (hsize : text.utf8ByteSize < maxWord) (spec : Option String) (journal : Journal) :
    Agrees a text (runScript a spec text) ((Context.run text).run { limits := a.limits, journal })
      ∧ (∀ leaves, tokenize text = .ok leaves → ∀ leaf ∈ leaves, ∃ literal,
        leaf.shape = .leaf literal ∧ ∀ c ∈ literal.toList, isPlain c)
      ∧ (∀ leaves root w, tokenize text = .ok leaves → parse leaves journal = .ok root w →
        w.arena.render root = .ok (treeText text) ∧ ∃ h : w.arena.Founded,
          treeText text = String.join ((Arena.preorder h 0 root).map Line.text))
      ∧ Alike (fun _ c _ console => console.context.store = c.store)
        (fun e c e' console => e' = e ∧ console.context.store = c.store)
        ((Context.run text).run { limits := a.limits, journal })
        ((Console.execute a text).run
          { context := { limits := a.limits, journal := { filter := filter a spec } } })
      ∧ (∀ a' spec', a'.limits = a.limits →
        (runScript a' spec' text).status = (runScript a spec text).status
        ∧ (runScript a' spec' text).diagnostic = (runScript a spec text).diagnostic
        ∧ (runScript a' spec' text).closing = (runScript a spec text).closing)
      ∧ ∀ args read, Arguments.read args = .ok a → script a read = .ok text →
        run args spec read = runScript a spec text := by
  have hagrees := agrees_of_run hlimit hsize spec journal
  refine ⟨hagrees, fun leaves => literal_of_tokenize, ?dump, ?store, ?flags, ?line⟩
  case dump =>
    intro leaves root w htokens hparse
    exact render_eq_treeText htokens hparse
  case store =>
    refine (execute_beside_run a text journal _).mono ?_ ?_
    · rintro _ c _ console ⟨hstore, -⟩
      exact hstore
    · rintro e c e' console ⟨he, hstore, -⟩
      exact ⟨he, hstore⟩
  case flags =>
    intro a' spec' hlimits
    have hagrees' : Agrees a' text (runScript a' spec' text)
        ((Context.run text).run { limits := a'.limits, journal }) :=
      agrees_of_run (by rw [hlimits]; exact hlimit) hsize spec' journal
    rw [hlimits] at hagrees'
    exact hagrees.same hagrees'
  case line =>
    intro args read hread hscript
    unfold run
    rw [hread]
    dsimp only
    rw [hscript]

/-- A script that binds its second name first, with all that can be printed and no log: a line for
each leaf, the tree, and the bindings in the order of their names. -/
theorem runScript_agrees_reordered :
    (runScript ⟨false, true, true, true, {}, 3, "def val b as T; def val a as U;"⟩ (some "off")
        "def val b as T; def val a as U;").status = 0
      ∧ (runScript ⟨false, true, true, true, {}, 3, "def val b as T; def val a as U;"⟩ (some "off")
        "def val b as T; def val a as U;").output
        = String.join
          ["DEF \"def\" @0..3\n", "VAL \"val\" @4..7\n", "ID \"b\" @8..9\n",
            "AS \"as\" @10..12\n", "VAL-SUBEXPR \"T\" @13..14\n", "; \";\" @14..15\n",
            "DEF \"def\" @16..19\n", "VAL \"val\" @20..23\n", "ID \"a\" @24..25\n",
            "AS \"as\" @26..28\n", "VAL-SUBEXPR \"U\" @29..30\n", "; \";\" @30..31\n",
            "CODE-BLOCK <BOTH> @8..30\n",
            "  CODE-BLOCK <LEFT> @8..14\n",
            "    ASGN-STMT <assign> @8..14\n",
            "      VAL-VAR <bind> @8..9\n",
            "        ID 'b' @8..9\n",
            "      VAL-EXPR <LEFT> @13..14\n",
            "        VAL-SUBEXPR <true> 'T' @13..14\n",
            "  CODE-BLOCK <LEFT> @24..30\n",
            "    ASGN-STMT <assign> @24..30\n",
            "      VAL-VAR <bind> @24..25\n",
            "        ID 'a' @24..25\n",
            "      VAL-EXPR <LEFT> @29..30\n",
            "        VAL-SUBEXPR <unsure> 'U' @29..30\n",
            "a = U[2 0]\n", "b = T\n"] := by
  have hrun : (match (Context.run "def val b as T; def val a as U;").run {} with
      | .ok _ c => some (storeText c.store)
      | .error _ _ => none) = some "a = U[2 0]\nb = T\n" := by
    decide +kernel
  have hagrees := (@runScript_agrees
    ⟨false, true, true, true, {}, 3, "def val b as T; def val a as U;"⟩
    "def val b as T; def val a as U;" (by decide) (by decide) (some "off") {}).1
  split at hrun
  · rename_i u c hok
    rw [hok] at hagrees
    obtain ⟨hstatus, -, -, houtput, -⟩ := hagrees
    refine ⟨hstatus, ?_⟩
    rw [houtput, Option.some.inj hrun]
    decide +kernel
  · cases hrun

end Command

end Trivalent
