import Trivalent.Proofs.Grammar.History
import Trivalent.Proofs.Reduction.Endless
import Trivalent.Proofs.Work

/-!
# Frames by their names

A grammar keeps a production under the symbols of its frame. It could as well keep it under the
text that the names of these symbols make, with blanks between them. Some names begin like others,
and delimiters are names too, but no name has a blank in it and no two symbols share one:

* `Symbol.readNames`, `Symbol.readNames_eq_some_iff` -- **symbols are read off the text of their
  names, and off no other text**;
* `NameTable` -- productions that are kept under texts, one for each text;
* `Grammar.named`, `NameTable.build_eq` -- **a table under texts that is filled by the additions of
  a grammar is this grammar, with its frames spelled out**;
* `Grammar.lookup_named` -- **a text finds there what the symbols that it spells find in the
  grammar**;
* `Workspace.Tells` -- what the report of an irreducible row says about the row;
* `Workspace.lookup_by_names` -- the same for the windows of a row of nodes, and for what is left of
  a row that cannot be reduced.
-/

namespace Trivalent

open Trivalent.Derivation

/-! ## 1. Names -/

namespace Symbol

/-- The symbol with the given name. -/
def ofName? (word : List Char) : Option Symbol := all.find? (·.name.toList == word)

/-- No two symbols share a name. -/
theorem ofName?_eq_some_iff {word : List Char} {s : Symbol} :
    ofName? word = some s ↔ word = s.name.toList := by
  constructor
  · intro h
    have hname := List.find?_some h
    exact (eq_of_beq hname).symm
  · rintro rfl
    cases s <;> decide

/-- A name is one word. -/
theorem blank_notMem_name (s : Symbol) : ' ' ∉ s.name.toList := by cases s <;> decide

theorem name_ne_nil (s : Symbol) : s.name.toList ≠ [] := by cases s <;> decide

/-- The symbols whose names, with one blank between neighbours, make up a text. -/
def readNames (text : String) : Option (List Symbol) :=
  -- blanks cut the empty text into one empty word, which is no name
  if text = "" then some [] else (text.toList.splitOn ' ').mapM ofName?

theorem mapM_ofName?_eq_some_iff {words : List (List Char)} {symbols : List Symbol} :
    words.mapM ofName? = some symbols ↔ words = symbols.map (·.name.toList) := by
  induction words generalizing symbols with
  | nil => cases symbols <;> simp
  | cons word words ih =>
      simp only [List.mapM_cons, Option.bind_eq_bind, Option.bind_eq_some_iff, ofName?_eq_some_iff,
        ih, Option.pure_def, Option.some_inj]
      constructor
      · rintro ⟨s, rfl, rest, rfl, rfl⟩
        rfl
      · intro hwords
        obtain ⟨s, rest, rfl, rfl, rfl⟩ := List.map_eq_cons_iff.mp hwords.symm
        exact ⟨s, rfl, rest, rfl, rfl⟩

theorem toList_joinNames (symbols : List Symbol) :
    (joinNames symbols).toList = [' '].intercalate (symbols.map (·.name.toList)) := by
  unfold joinNames
  rw [String.toList_intercalate, List.map_map]
  rfl

/-- Blanks cut the text of some names into these names. -/
theorem splitOn_joinNames {symbols : List Symbol} (h : symbols ≠ []) :
    (joinNames symbols).toList.splitOn ' ' = symbols.map (·.name.toList) := by
  rw [toList_joinNames]
  refine List.splitOn_intercalate ' ' (fun word hword => ?_) (by simpa using h)
  obtain ⟨s, -, rfl⟩ := List.mem_map.mp hword
  exact blank_notMem_name s

theorem joinNames_eq_empty_iff {symbols : List Symbol} : joinNames symbols = "" ↔ symbols = [] := by
  constructor
  · intro hempty
    by_contra hne
    have hwords := splitOn_joinNames hne
    rw [hempty] at hwords
    cases symbols with
    | nil => exact hne rfl
    | cons s symbols =>
        obtain ⟨hname, -⟩ := List.cons.inj hwords
        exact name_ne_nil s hname.symm
  · rintro rfl
    rfl

/-- **Symbols are read off the text of their names, and off no other text.** -/
theorem readNames_eq_some_iff {text : String} {symbols : List Symbol} :
    readNames text = some symbols ↔ text = joinNames symbols := by
  unfold readNames
  split
  · rename_i hempty
    rw [hempty, eq_comm (a := ""), joinNames_eq_empty_iff, Option.some_inj, eq_comm]
  · rename_i hne
    rw [mapM_ofName?_eq_some_iff]
    constructor
    · intro hwords
      rw [← String.toList_inj, toList_joinNames, ← hwords, List.intercalate_splitOn]
    · rintro rfl
      exact splitOn_joinNames fun hnil => hne (joinNames_eq_empty_iff.mpr hnil)

theorem readNames_joinNames (symbols : List Symbol) :
    readNames (joinNames symbols) = some symbols :=
  readNames_eq_some_iff.mpr rfl

/-- **The names tell the symbols**, however many there are. -/
theorem joinNames_inj {left right : List Symbol} :
    joinNames left = joinNames right ↔ left = right := by
  rw [← readNames_eq_some_iff, readNames_joinNames, Option.some_inj]

theorem joinNames_beq (left right : List Symbol) :
    (joinNames left == joinNames right) = (left == right) := by
  rw [Bool.eq_iff_iff, beq_iff_eq, beq_iff_eq, joinNames_inj]

end Symbol

/-! ## 2. Tables under texts -/

/-- Productions that are kept under texts, one for each text. -/
structure NameTable where
  entries : List (String × Production) := []

namespace NameTable

/-- The production under a text. -/
def lookup (t : NameTable) (text : String) : Option Production :=
  (t.entries.find? (·.1 == text)).map (·.2)

/-- Puts a production under a text, in place of an earlier one. -/
def insert (t : NameTable) (text : String) (p : Production) : NameTable :=
  ⟨(text, p) :: t.entries.filter (·.1 != text)⟩

/-- Puts the production of a rule under the names of its frame. What is no rule is refused. -/
def addRule (t : NameTable) (frame : List Symbol) (p : Production) : Except Fault NameTable := do
  let rule ← Rule.make frame p
  return t.insert (Symbol.joinNames rule.frame) rule.production

/-- The table that additions make of the empty one. -/
def build (additions : List (List Symbol × Production)) : Except Fault NameTable :=
  additions.foldlM (fun t addition => t.addRule addition.1 addition.2) {}

end NameTable

namespace Grammar

/-- A grammar with its frames spelled out. -/
def named (g : Grammar) : NameTable :=
  ⟨g.rules.map fun rule => (Symbol.joinNames rule.frame, rule.production)⟩

/-- **A text finds what the symbols that it spells find.** A text that spells no symbols finds
nothing. -/
theorem lookup_named (g : Grammar) (text : String) :
    g.named.lookup text = (Symbol.readNames text).bind g.lookup := by
  unfold NameTable.lookup named
  rw [List.find?_map, Option.map_map]
  cases hread : Symbol.readNames text with
  | none =>
      -- every text in the table is one of names, and could be read
      have hnone : g.rules.find? (fun rule => Symbol.joinNames rule.frame == text) = none := by
        refine List.find?_eq_none.mpr fun rule _ htext => ?_
        rw [← eq_of_beq htext, Symbol.readNames_joinNames] at hread
        cases hread
      exact congrArg (Option.map _) hnone
  | some symbols =>
      rw [Symbol.readNames_eq_some_iff] at hread
      subst hread
      simp only [Function.comp_def, Symbol.joinNames_beq]
      rfl

/-- An addition replaces the same rule in both tables. -/
theorem named_insert (g : Grammar) (rule : Rule) :
    (g.insert rule).named = g.named.insert (Symbol.joinNames rule.frame) rule.production := by
  unfold insert named NameTable.insert
  simp only [List.map_cons, List.filter_map, Function.comp_def, bne, Symbol.joinNames_beq]

theorem addRule_named (g : Grammar) (frame : List Symbol) (p : Production) :
    g.named.addRule frame p = (g.addRule frame p).map named := by
  unfold NameTable.addRule addRule
  cases Rule.make frame p with
  | error e => rfl
  | ok rule => exact congrArg Except.ok (named_insert g rule).symm

theorem foldlM_named (additions : List (List Symbol × Production)) (g : Grammar) :
    additions.foldlM (fun t addition => NameTable.addRule t addition.1 addition.2) g.named
      = (additions.foldlM (fun g addition => addRule g addition.1 addition.2) g).map named := by
  induction additions generalizing g with
  | nil => rfl
  | cons addition additions ih =>
      rw [List.foldlM_cons, List.foldlM_cons, addRule_named]
      cases g.addRule addition.1 addition.2 with
      | error e => rfl
      | ok g' => exact ih g'

end Grammar

/-- **A table under texts that is filled by the additions of a grammar is this grammar**, with its
frames spelled out, and the same additions are refused. -/
theorem NameTable.build_eq (additions : List (List Symbol × Production)) :
    NameTable.build additions = (Grammar.build additions).map Grammar.named :=
  Grammar.foldlM_named additions {}

/-! ## 3. Rows of nodes -/

namespace Arena

variable {σ : Type} {arena : Arena}

theorem symbols_run (s : σ) {row : List Derivation} (h : ∀ d ∈ row, arena.Holds d) :
    (arena.symbols (row.map (·.id))).run s = .ok (row.map symbol) s :=
  mapM_fetch_run (fun _ node => node.symbol) s h

theorem names_run (s : σ) {row : List Derivation} (h : ∀ d ∈ row, arena.Holds d) :
    (arena.names (row.map (·.id))).run s = .ok (Symbol.joinNames (row.map symbol)) s := by
  unfold names
  rw [EStateM.run_bind, symbols_run s h]
  rfl

end Arena

namespace Workspace

/-- The slots for a row of nodes are there if all of the nodes exist, and otherwise there is a
fault. -/
theorem slots_meets (w : Workspace) (live : List NodeId) :
    Work.Meets w (slots live) (fun _ _ => ∀ id ∈ live, id < w.arena.size)
      (fun e _ => ∃ f, e = .fault f) := by
  suffices h : Work.Finds
      (live.mapM fun id => do return ⟨id, (← w.arena.fetch id).symbol⟩ : Work Workspace (List Slot))
      (fun _ => ∀ id ∈ live, id < w.arena.size) (fun e => ∃ f, e = .fault f) from
    (h w).mono (fun _ _ hlive => hlive.1) fun _ _ hfault => hfault.1
  induction live with
  | nil => exact .pure (by simp)
  | cons id live ih =>
      rw [List.mapM_cons, bind_assoc]
      cases hget : w.arena.get? id with
      | none =>
          rw [Arena.fetch_absent hget]
          exact .throw ⟨_, rfl⟩
      | some node =>
          rw [Arena.fetch_eq hget, pure_bind, pure_bind]
          have hid := Arena.get?_lt hget
          exact ih.bind fun _ hlive => .pure (List.forall_mem_cons.mpr ⟨hid, hlive⟩)

/-- The text of an irreducible row tells its symbols: they can be read off it, and no row with other
symbols is reported in the same words. -/
structure Tells (remaining : List Symbol) (row : List Slot) : Prop where
  read : Symbol.readNames (Symbol.joinNames remaining) = some (row.map (·.symbol))
  words : ∀ (other : List Symbol) (place place' : Span),
    (Problem.irreducible other).description place
        = (Problem.irreducible remaining).description place'
      ↔ other = row.map (·.symbol)

theorem tells_self (row : List Slot) : Tells (row.map (·.symbol)) row where
  read := Symbol.readNames_joinNames _
  words other place place' := by
    unfold Problem.description
    simp only [String.append_left_inj, String.append_right_inj, Symbol.joinNames_inj]

/-- A row that is reported as irreducible is what the passes of the reduction have come to. -/
theorem reduces_of_irreducible {g : Grammar} {mode : BindingMode} {w v : Workspace}
    {live : List NodeId} {remaining : List Symbol} {span : Option Span} {line : Nat}
    (h : (reduce g mode live).run w = .error (.diagnostic ⟨.irreducible remaining, span, line⟩) v) :
    ∃ steps row, ∃ last : List Derivation, (slots live).run w = .ok row w
      ∧ Reduces g mode steps w row v (last.map slot) ∧ g.find (last.map symbol) = none
      ∧ (∀ d ∈ last, v.arena.Holds d) ∧ remaining = last.map symbol := by
  -- the report is no fault, so the nodes of the row exist
  have hlive : ∀ id ∈ live, id < w.arena.size := by
    have hmeets := slots_meets w live
    cases hslots : (slots live).run w with
    | ok row t => exact hmeets.of_ok hslots
    | error e t =>
        obtain ⟨f, rfl⟩ := hmeets.of_error hslots
        unfold reduce at h
        split at h
        · cases h
        · rw [EStateM.run_bind, hslots] at h
          cases h
  obtain ⟨row, rfl, hrow⟩ := exists_leaves_of_lt hlive
  rcases @reduce_ends_or_endless w row g mode hrow with
    ⟨steps, w', last, hreduces, hnone, hholds, hend⟩ | ⟨-, w', hend⟩
  · rw [hend] at h
    -- only a row of several nodes is reported
    match last, hholds with
    | [], _ => cases h
    | [d], _ => cases h
    | d :: e :: rest, hholds =>
        rw [conclude_run hholds] at h
        cases h
        exact ⟨steps, row.map slot, d :: e :: rest, slots_run hrow, hreduces, hnone, hholds, rfl⟩
  · rw [hend] at h
    cases h

/-- **A table under the names of frames is as good as one under their symbols.** Sequences of
symbols of any length have the same names just if they are the same. So, whatever rules are added, a
table under texts comes out as the grammar does, with its frames spelled out; under the names of any
window of a row of nodes it has what the grammar has under their symbols; and the text of a row that
cannot be reduced tells the symbols that are left. -/
theorem lookup_by_names :
    (∀ left right : List Symbol, Symbol.joinNames left = Symbol.joinNames right ↔ left = right)
      ∧ (∀ additions : List (List Symbol × Production),
          NameTable.build additions = (Grammar.build additions).map Grammar.named)
      ∧ (∀ (g : Grammar) (w : Workspace) (live window : List NodeId),
          (∀ id ∈ live, id < w.arena.size) → window <:+: live →
          ∃ symbols text, (w.arena.symbols window).run w = .ok symbols w
            ∧ (w.arena.names window).run w = .ok text w
            ∧ g.named.lookup text = g.lookup symbols)
      ∧ ∀ (g : Grammar) (mode : BindingMode) (w v : Workspace) (live : List NodeId)
          (remaining : List Symbol) (span : Option Span) (line : Nat),
          (reduce g mode live).run w
            = .error (.diagnostic ⟨.irreducible remaining, span, line⟩) v →
          ∃ steps row row', (slots live).run w = .ok row w ∧ Reduces g mode steps w row v row'
            ∧ g.find (row'.map (·.symbol)) = none
            ∧ (v.arena.names (row'.map (·.id))).run v = .ok (Symbol.joinNames remaining) v
            ∧ Tells remaining row' := by
  refine ⟨fun left right => Symbol.joinNames_inj, NameTable.build_eq, ?_, ?_⟩
  · intro g w live window hlive hwindow
    obtain ⟨row, rfl, hrow⟩ := exists_leaves_of_lt fun id hid => hlive id (hwindow.subset hid)
    refine ⟨_, _, Arena.symbols_run w hrow, Arena.names_run w hrow, ?_⟩
    rw [Grammar.lookup_named, Symbol.readNames_joinNames]
    rfl
  · intro g mode w v live remaining span line h
    obtain ⟨steps, row, last, hslots, hreduces, hnone, hholds, rfl⟩ := reduces_of_irreducible h
    rw [← symbols_slots] at hnone ⊢
    refine ⟨steps, row, last.map slot, hslots, hreduces, hnone, ?_, tells_self _⟩
    rw [symbols_slots, List.map_map]
    exact Arena.names_run v hholds

/-- The leaves of `val T as`. -/
def alikeLeaves : List Node :=
  [.terminal .valWord "val" ⟨0, 3⟩ 1 .inert, .terminal .operand "T" ⟨4, 5⟩ 1 .makeTrue,
    .terminal .asWord "as" ⟨6, 8⟩ 1 .inert]

/-- Two names of this row begin alike. The second one finds its rule by its name, and what is left
of the row is reported in names that are read back as they were meant. -/
theorem lookup_by_names_alike :
    (∃ text, ((ofLeaves alikeLeaves {}).arena.names [1]).run (ofLeaves alikeLeaves {})
          = .ok text (ofLeaves alikeLeaves {})
        ∧ Grammar.standard.named.lookup text = some ⟨.expression, .left, 0, 0, false⟩)
      ∧ ∃ v : Workspace, (reduce .standard .bind [0, 1, 2]).run (ofLeaves alikeLeaves {})
          = .error (.diagnostic ⟨.irreducible [.valWord, .expression, .asWord], some ⟨0, 8⟩, 1⟩) v
        ∧ ∃ row : List Slot, (v.arena.names (row.map (·.id))).run v = .ok "VAL VAL-EXPR AS" v
          ∧ Tells [.valWord, .expression, .asWord] row := by
  constructor
  · obtain ⟨symbols, text, hsymbols, hnames, hlookup⟩ := lookup_by_names.2.2.1 .standard
      (ofLeaves alikeLeaves {}) [0, 1, 2] [1] (by decide) (by decide)
    refine ⟨text, hnames, hlookup.trans ?_⟩
    cases hsymbols
    rfl
  · have hcomputed : (Work.failed ((reduce .standard .bind [0, 1, 2]).run
        (ofLeaves alikeLeaves {}))).map (·.1)
        = some (.diagnostic ⟨.irreducible [.valWord, .expression, .asWord], some ⟨0, 8⟩, 1⟩) := by
      decide +kernel
    obtain ⟨⟨e, v⟩, hfailed, rfl⟩ := Option.map_eq_some_iff.mp hcomputed
    have herror := Work.eq_error_of_failed hfailed
    obtain ⟨steps, row, row', -, -, -, hnames, htells⟩ :=
      lookup_by_names.2.2.2 _ _ _ _ _ _ _ _ herror
    exact ⟨v, herror, row', hnames, htells⟩

end Workspace

end Trivalent
