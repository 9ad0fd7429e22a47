import Mathlib.Data.List.Nodup
import Mathlib.Data.List.Perm.Subperm
import Trivalent.Proofs.Parse.Completeness

/-!
# What a parse binds

A declaration is folded in the middle of a reduction that has other windows of the same width to
fold, and it covers every raw identifier with its name, also one that stands after another `val`.
Nevertheless the names that a parse has bound in the end can be told from the tokens alone, whether
it accepts them or not.

* `declaredNames` -- the names right after a `val`, in the order of the source;
* `Accounted` -- **the invariant between two rows**: the names that are declared in between and
  those still pending make up the pending ones of the first row, every declared name has used up one
  `val`, and no raw identifier has gone without a declaration;
* `Step.accounted`, `Run.accounted` -- the step lemma and the run lemma. The search takes the
  leftmost of equally wide windows, so declarations are folded in the order of the source;
* `Run.names_eq`, `Run.declared_once` -- what has been bound where a run cannot go on;
* `parse_bound` -- **the bound names are the declared ones**, each at its first occurrence; and an
  accepted program of two tokens or more declares every name exactly once.
-/

namespace Trivalent

open Trivalent.Derivation

/-! ## 1. Declared names -/

/-- The texts of the identifiers right after a `val`, in the order of the source. -/
def declaredNames (leaves : List Node) : List String :=
  (leaves.zip leaves.tail).filterMap fun (k, i) =>
    if k.symbol = .valWord ∧ i.symbol = .identifier then i.literal? else none

theorem declaredNames_cons_cons (k i : Node) (rest : List Node) :
    declaredNames (k :: i :: rest)
      = (if k.symbol = .valWord ∧ i.symbol = .identifier then i.literal?.toList else [])
        ++ declaredNames (i :: rest) := by
  unfold declaredNames
  simp only [List.tail_cons, List.zip_cons_cons, List.filterMap_cons]
  by_cases hdeclared : k.symbol = .valWord ∧ i.symbol = .identifier
  · rw [if_pos hdeclared, if_pos hdeclared]
    cases i.literal? <;> rfl
  · rw [if_neg hdeclared, if_neg hdeclared, List.nil_append]

/-- What is pending before the first step are the declared names. -/
theorem pending_leafRow (leaves : List Node) :
    pending .semicolon ((leafRow leaves).map mark) = declaredNames leaves := by
  rw [map_mark_leafRow]
  have hafter : ∀ (k : Node) (rest : List Node),
      pending k.symbol (rest.map fun n => (n.symbol, n.literal?)) = declaredNames (k :: rest) := by
    intro k rest
    induction rest generalizing k with
    | nil => rfl
    | cons i rest ih =>
        rw [List.map_cons, pending, ih i, declaredNames_cons_cons]
  cases leaves with
  | nil => rfl
  | cons n leaves =>
      rw [List.map_cons, pending, if_neg fun h => by cases h.1]
      exact hafter n leaves

/-- Every pending name has a `val` of its own. -/
theorem length_pending_le (prev : Symbol) (marks : List Mark) :
    (pending prev marks).length ≤ (prev :: marks.map Prod.fst).count .valWord := by
  induction marks generalizing prev with
  | nil => exact Nat.zero_le _
  | cons m rest ih =>
      have hrest := ih m.1
      rw [pending, List.length_append, List.map_cons, List.count_cons]
      split
      · rename_i hdeclared
        have htext : m.2.toList.length ≤ 1 := by cases m.2 <;> simp
        simp only [hdeclared.1, beq_self_eq_true, if_true]
        omega
      · simp only [List.length_nil]
        omega

/-- A `val` before something else has no pending name. -/
theorem length_pending_le_of_head {prev : Symbol} {marks : List Mark}
    (h : ∀ m ∈ marks.head?, m.1 ≠ .identifier) :
    (pending prev marks).length ≤ (marks.map Prod.fst).count .valWord := by
  cases marks with
  | nil => exact Nat.zero_le _
  | cons m rest =>
      rw [pending, if_neg fun hdeclared => h m rfl hdeclared.2, List.nil_append]
      exact length_pending_le m.1 rest

/-- If there are no more `val`s than declared names, each of them stands before an identifier. -/
theorem exists_identifier_of_count_le {before after : List Node} {k : Node}
    (hcount : ((before ++ k :: after).map Node.symbol).count .valWord
      ≤ (declaredNames (before ++ k :: after)).length)
    (hk : k.symbol = .valWord) : ∃ i rest, after = i :: rest ∧ i.symbol = .identifier := by
  by_contra hno
  have hsymbols : ∀ leaves : List Node,
      (leaves.map fun n => (n.symbol, n.literal?)).map Prod.fst = leaves.map Node.symbol := by
    intro leaves
    rw [List.map_map]
    rfl
  have hbefore := length_pending_le .semicolon (before.map fun n => (n.symbol, n.literal?))
  have hafter : (pending .valWord (after.map fun n => (n.symbol, n.literal?))).length
      ≤ (after.map Node.symbol).count .valWord := by
    rw [← hsymbols]
    refine length_pending_le_of_head fun m hm hs => hno ?_
    cases after with
    | nil => cases hm
    | cons i rest =>
        cases hm
        exact ⟨i, rest, rfl, hs⟩
  rw [hsymbols, List.count_cons_of_ne (by decide)] at hbefore
  rw [← pending_leafRow, map_mark_leafRow, List.map_append, List.map_append, pending_append,
    List.map_cons, List.map_cons, pending, hk, if_neg (fun h => by cases h.2), List.nil_append,
    List.length_append, List.count_append, List.count_cons_self] at hcount
  -- the names before and after leave one `val` without a name
  exact absurd (Nat.le_trans hcount (Nat.add_le_add hbefore hafter)) (by omega)

/-! ## 2. Names without repetition -/

theorem nodup_eraseDups (names : List String) : names.eraseDups.Nodup := by
  cases names with
  | nil => exact List.nodup_nil
  | cons name names =>
      rw [List.eraseDups_cons, List.nodup_cons]
      refine ⟨fun hmem => ?_, nodup_eraseDups (names.filter fun other => !other == name)⟩
      rw [List.mem_eraseDups, List.mem_filter] at hmem
      simp at hmem
termination_by names.length
decreasing_by exact Nat.lt_succ_of_le (List.length_filter_le _ _)

/-- Names of which none is dropped are all different. -/
theorem nodup_of_length_le_eraseDups {names : List String}
    (h : names.length ≤ names.eraseDups.length) : names.Nodup := by
  have hsub : names.eraseDups.Subperm names :=
    (nodup_eraseDups names).subperm fun name hname => List.mem_eraseDups.mp hname
  exact (hsub.perm_of_length_le h).nodup_iff.mp (nodup_eraseDups names)

/-! ## 3. What steps account for -/

/-- Between two rows, `names` are declared, and all that was pending or raw is accounted for. -/
structure Accounted (row : List Derivation) (names : List String) (row' : List Derivation) :
    Prop where
  order : (pending .semicolon (row.map mark)).eraseDups
    = names ++ (pending .semicolon (row'.map mark)).eraseDups
  words : (row.map symbol).count .valWord = names.length + (row'.map symbol).count .valWord
  raw : ∀ name, (.identifier, some name) ∈ row.map mark →
    name ∈ names ∨ (.identifier, some name) ∈ row'.map mark

theorem Accounted.refl (row : List Derivation) : Accounted row [] row where
  order := rfl
  words := (Nat.zero_add _).symm
  raw := fun _ h => .inr h

theorem Accounted.trans {row row' row'' : List Derivation} {names names' : List String}
    (h : Accounted row names row') (h' : Accounted row' names' row'') :
    Accounted row (names ++ names') row'' where
  order := by rw [h.order, h'.order, List.append_assoc]
  words := by rw [h.words, h'.words, List.length_append, Nat.add_assoc]
  raw := by
    intro name hraw
    rcases h.raw name hraw with hname | hraw
    · exact .inl (List.mem_append_left _ hname)
    · exact (h'.raw name hraw).imp_left (List.mem_append_right _)

/-- A fold keeps the `val`s outside its window and has none of its own. -/
theorem Folds.count_valWord {next : NodeId} {before window after : List Derivation}
    {new : Derivation} (h : Folds next window new) :
    ((before ++ window ++ after).map symbol).count .valWord
      = (window.map symbol).count .valWord
        + ((before ++ new :: after).map symbol).count .valWord := by
  have hnew : new.symbol ≠ .valWord := by
    intro hval
    have hfolded := h.isFolded
    rw [hval] at hfolded
    cases hfolded
  simp only [List.map_append, List.map_cons, List.count_append, List.count_cons_of_ne hnew]
  omega

/-- Covering touches no `val`. -/
theorem count_valWord_cover (name : String) (marks : List Mark) :
    ((marks.map (cover name)).map Prod.fst).count .valWord
      = (marks.map Prod.fst).count .valWord := by
  induction marks with
  | nil => rfl
  | cons m rest ih =>
      rw [List.map_cons, List.map_cons, List.map_cons, List.count_cons, List.count_cons, ih, cover]
      split
      · rename_i hm
        rw [hm]
        rfl
      · rfl

/-- A declaration that is folded is the first one pending: the windows as wide as a declaration are
searched from the left. -/
theorem pending_eq_nil_of_first {before window after : List Derivation}
    (hlen : window.length = 2)
    (hfirst : ∀ b frame a p,
      Grammar.standard.IsFrame ((before ++ window ++ after).map symbol) b frame a p →
        frame.length = window.length → before.length ≤ b.length) :
    pending .semicolon (before.map mark) = [] := by
  by_contra hne
  obtain ⟨name, hname⟩ := List.exists_mem_of_ne_nil _ hne
  obtain ⟨b, a, hsymbols⟩ := exists_declaration_of_mem_pending hname
  have hframe : Grammar.standard.IsFrame ((before ++ window ++ after).map symbol) b
      [.valWord, .identifier] (a ++ (window ++ after).map symbol) ⟨.valVar, .bind, 1, 1, true⟩ := by
    refine ⟨?_, Grammar.lookup_standard_iff.mpr .declare⟩
    rw [List.append_assoc, List.map_append, hsymbols, List.append_assoc]
  have hleft := hfirst _ _ _ _ hframe hlen.symm
  have hlength := congrArg List.length hsymbols
  simp only [List.length_append, List.length_map, List.length_cons, List.length_nil] at hlength
  omega

/-- **A step accounts for all that it takes away.** -/
theorem Step.accounted {next : NodeId} {row row' : List Derivation} {declared : Option String}
    (h : Step .standard .bind next row declared row') (hshaped : ∀ d ∈ row, Shaped d) :
    Accounted row declared.toList row' := by
  obtain ⟨before, window, after, new, p, rfl, hfolds, -, -, hfirst, rfl, rfl⟩ :=
    h.folds_first Grammar.lookup_standard_iff.mp
  obtain ⟨hpending, hpending'⟩ := @Folds.pending_eq _ before _ after _ hfolds
  have hwords := @Folds.count_valWord _ before _ after _ hfolds
  have hkept : ∀ name, (.identifier, some name) ∈ (before ++ window ++ after).map mark →
      (.identifier, some name) ∈ window.map mark
        ∨ (.identifier, some name) ∈ (before ++ new :: after).map mark := by
    intro name hraw
    simp only [List.map_append, List.mem_append, List.map_cons, List.mem_cons] at hraw ⊢
    rcases hraw with (hraw | hraw) | hraw
    · exact .inr (.inl hraw)
    · exact .inl hraw
    · exact .inr (.inr (.inr hraw))
  rcases hfolds.declares_cases with ⟨k, i, rfl, hk, hi, hdeclares⟩ | ⟨hdeclares, hnone⟩
  · -- the window is a declaration, and its identifier has a text
    obtain ⟨id, node, name, rfl, hlexeme⟩ := (hshaped i (by simp)).unparse_identifier hi
    have htext : node.literal? = some name := (Node.lexeme?_eq_some hlexeme).2.2
    have hname : new.declares? = some name := hdeclares.trans htext
    have hfront := @pending_eq_nil_of_first before [k, .leaf id node] after rfl
      fun b frame a p hframe => (hfirst b frame a p hframe).2
    rw [hfront, hname, List.nil_append] at hpending
    rw [hfront, List.nil_append] at hpending'
    rw [hname, bindAll_some]
    refine ⟨?_, ?_, fun other hraw => ?_⟩
    · rw [hpending, marks_coverAll, pending_cover Iff.rfl, hpending', Option.toList_some,
        List.singleton_append, List.eraseDups_cons]
      rfl
    · rw [hwords, ← map_fst_mark (coverAll ..), marks_coverAll, count_valWord_cover, map_fst_mark]
      simp [hk, show node.symbol = .identifier from hi]
    · rw [marks_coverAll, Option.toList_some, List.mem_singleton, List.mem_map]
      by_cases hother : other = name
      · exact .inl hother
      · have hne : cover name (.identifier, some other) = (.identifier, some other) :=
          if_neg fun heq => hother (Option.some.inj (congrArg Prod.snd heq))
        rcases hkept other hraw with hraw | hraw
        · simp only [List.map_cons, List.map_nil, List.mem_cons, List.not_mem_nil, or_false,
            Derivation.mark, hk, Derivation.node, htext, Prod.mk.injEq, Option.some.injEq,
            hother, and_false, reduceCtorEq, false_and] at hraw
        · exact .inr ⟨_, hraw, hne⟩
  · rw [hdeclares, Option.toList_none, List.append_nil] at hpending
    rw [hdeclares, bindAll_none]
    refine ⟨?_, ?_, fun name hraw => ?_⟩
    · rw [hpending, hpending']
      rfl
    · rw [hwords, List.count_eq_zero.mpr]
      · rfl
      · intro hval
        obtain ⟨d, hd, hs⟩ := List.mem_map.mp hval
        exact (hnone d hd).1 hs
    · rcases hkept name hraw with hraw | hraw
      · obtain ⟨d, hd, hmark⟩ := List.mem_map.mp hraw
        exact absurd (congrArg Prod.fst hmark) (hnone d hd).2
      · exact .inr hraw

/-- A run accounts for all that it takes away. -/
theorem Run.accounted {steps : Nat} {row row' : List Derivation} {names : List String}
    (h : Run .standard .bind steps row names row') (hshaped : ∀ d ∈ row, Shaped d) :
    Accounted row names row' := by
  induction h with
  | refl row => exact .refl row
  | step first rest ih => exact (first.accounted hshaped).trans (ih (first.shaped hshaped))

/-! ## 4. The bound names -/

/-- Where no window is a frame, nothing is pending. -/
theorem pending_eq_nil_of_find {row : List Derivation}
    (hnone : Grammar.standard.find (row.map symbol) = none) :
    pending .semicolon (row.map mark) = [] := by
  by_contra hne
  obtain ⟨name, hname⟩ := List.exists_mem_of_ne_nil _ hne
  obtain ⟨b, a, hsymbols⟩ := exists_declaration_of_mem_pending hname
  exact Grammar.find_eq_none hnone ⟨hsymbols, Grammar.lookup_standard_iff.mpr .declare⟩

/-- The root of a program of two tokens or more is no token. -/
theorem Run.isFolded {leaves : List Node} {steps : Nat} {names : List String} {d : Derivation}
    (hgenuine : GenuineLeaves leaves) (h : Run .standard .bind steps (leafRow leaves) names [d])
    (hlen : 2 ≤ leaves.length) : d.symbol.isFolded := by
  obtain ⟨hshaped, hspells⟩ := h.spells hgenuine
  by_contra hnot
  obtain ⟨id, node, l, rfl, hlexeme, -, -⟩ :=
    (hshaped d List.mem_cons_self).eq_leaf (Bool.eq_false_iff.mpr hnot)
  have hlength := congrArg List.length hspells
  simp [unparse, hlexeme] at hlength
  omega

/-- A run that cannot go on has bound what is declared. -/
theorem Run.names_eq {leaves : List Node} {steps : Nat} {names : List String}
    {row : List Derivation} (hgenuine : GenuineLeaves leaves)
    (h : Run .standard .bind steps (leafRow leaves) names row)
    (hnone : Grammar.standard.find (row.map symbol) = none) :
    (declaredNames leaves).eraseDups = names := by
  have horder := (h.accounted (shaped_leafRow hgenuine)).order
  rwa [pending_leafRow, pending_eq_nil_of_find hnone, List.eraseDups_nil, List.append_nil] at horder

/-- **In a program of two tokens or more every name is declared exactly once.** -/
theorem Run.declared_once {leaves : List Node} {steps : Nat} {names : List String} {d : Derivation}
    (hgenuine : GenuineLeaves leaves) (h : Run .standard .bind steps (leafRow leaves) names [d])
    (hnone : Grammar.standard.find ([d].map symbol) = none) (hlen : 2 ≤ leaves.length) :
    (∀ before k after, leaves = before ++ k :: after → k.symbol = .valWord →
        ∃ i rest, after = i :: rest ∧ i.symbol = .identifier)
      ∧ ∀ n ∈ leaves, n.symbol = .identifier →
        ∃ name, n.literal? = some name ∧ (declaredNames leaves).count name = 1 := by
  have haccounted := h.accounted (shaped_leafRow hgenuine)
  have hnames := h.names_eq hgenuine hnone
  -- the root is no `val` and no identifier, so all of them are accounted for by the names
  have hfolded := h.isFolded hgenuine hlen
  have hmarks : (leafRow leaves).map symbol = leaves.map Node.symbol := by
    rw [← map_fst_mark, map_mark_leafRow, List.map_map]
    rfl
  have hwords : (leaves.map Node.symbol).count .valWord = names.length := by
    rw [← hmarks, haccounted.words, List.map_singleton, List.count_eq_zero.mpr, Nat.add_zero]
    intro hval
    rw [← List.mem_singleton.mp hval] at hfolded
    cases hfolded
  have hsub : names.Subperm (declaredNames leaves) := by
    rw [← hnames]
    exact (nodup_eraseDups _).subperm fun name hname => List.mem_eraseDups.mp hname
  have hcount : (leaves.map Node.symbol).count .valWord ≤ (declaredNames leaves).length := by
    rw [hwords]
    exact hsub.length_le
  have hfresh : (declaredNames leaves).Nodup := by
    have hle := length_pending_le .semicolon ((leafRow leaves).map mark)
    rw [pending_leafRow, map_fst_mark, hmarks, List.count_cons_of_ne (by decide), hwords,
      ← hnames] at hle
    exact nodup_of_length_le_eraseDups hle
  refine ⟨fun before k after hsplit hk => ?_, fun n hn hs => ?_⟩
  · subst hsplit
    exact exists_identifier_of_count_le hcount hk
  · obtain ⟨l, hlexeme, -⟩ := hgenuine n hn
    have htext : n.literal? = some l.literal := (Node.lexeme?_eq_some hlexeme).2.2
    refine ⟨l.literal, htext, ?_⟩
    have hraw : (.identifier, some l.literal) ∈ (leafRow leaves).map mark := by
      rw [map_mark_leafRow, ← hs, ← htext]
      exact List.mem_map_of_mem hn
    rcases haccounted.raw _ hraw with hname | hroot
    · exact List.count_eq_one_of_mem hfresh (hsub.subset hname)
    · have hsymbol := congrArg Prod.fst (List.mem_singleton.mp hroot)
      rw [← show Symbol.identifier = d.symbol from hsymbol] at hfolded
      cases hfolded

/-- **The bound names are the declared ones**, each at its first occurrence, whether or not the
program is accepted. If it is, and has two tokens or more, then every `val` stands right before an
identifier, and every name that occurs is declared exactly once. -/
theorem parse_bound {source : String} {leaves : List Node} (htokens : tokenize source = .ok leaves)
    (journal : Journal) :
    ∃ w, ((∃ root, parse leaves journal = .ok root w) ∨ ∃ e, parse leaves journal = .error e w)
      ∧ w.bound = (declaredNames leaves).eraseDups ∧ w.bound.Nodup
      ∧ ∀ root, parse leaves journal = .ok root w → 2 ≤ leaves.length →
        (∀ before k after, leaves = before ++ k :: after → k.symbol = .valWord →
          ∃ i rest, after = i :: rest ∧ i.symbol = .identifier)
        ∧ ∀ n ∈ leaves, n.symbol = .identifier →
          ∃ name, n.literal? = some name ∧ (declaredNames leaves).count name = 1 := by
  by_cases hne : leaves = []
  · subst hne
    refine ⟨_, .inr ⟨_, parse_nil journal⟩, rfl, List.nodup_nil, fun root _ hlen => ?_⟩
    exact absurd hlen (by decide)
  have hgenuine := tokenize_genuine htokens
  obtain ⟨steps, names, row, w, hrun, hgrown, hnone, houtcome⟩ := parse_run hne journal
  have hbound : w.bound = (declaredNames leaves).eraseDups := by
    rw [hgrown.bound, hrun.names_eq hgenuine hnone]
    rfl
  refine ⟨w, ?_, hbound, hbound ▸ nodup_eraseDups _, fun root hok hlen => ?_⟩
  · rcases houtcome with ⟨d, -, hok⟩ | ⟨span, line, -, herror⟩
    · exact .inl ⟨_, hok⟩
    · exact .inr ⟨_, herror⟩
  · rcases houtcome with ⟨d, rfl, -⟩ | ⟨span, line, -, herror⟩
    · exact hrun.declared_once hgenuine hnone hlen
    · rw [hok] at herror
      cases herror

theorem parse_bound_nested :
    ∃ leaves root w, tokenize "def x as T; def val y as (x or val x);" = .ok leaves
      ∧ parse leaves {} = .ok root w ∧ w.bound = ["y", "x"]
      ∧ (∀ before k after, leaves = before ++ k :: after → k.symbol = .valWord →
          ∃ i rest, after = i :: rest ∧ i.symbol = .identifier)
      ∧ ∀ n ∈ leaves, n.symbol = .identifier →
          ∃ name, n.literal? = some name ∧ (declaredNames leaves).count name = 1 := by
  obtain ⟨leaves, root, w, htokens, hspells, hparse⟩ :=
    @exists_parse "def x as T; def val y as (x or val x);"
      (Program.lexemes ⟨[⟨⟨"x", false⟩, .operand (.constant (.certain true))⟩,
        ⟨⟨"y", true⟩, .operand (.pair .or (.var ⟨"x", false⟩) (.var ⟨"x", true⟩))⟩], by decide⟩)
      (by decide +kernel) (by decide +kernel)
  obtain ⟨w', houtcome, hbound, -, hdiscipline⟩ := parse_bound htokens {}
  have hw : w' = w := by
    rcases houtcome with ⟨root', hok⟩ | ⟨e, herror⟩
    · rw [hparse] at hok
      cases hok
      rfl
    · rw [hparse] at herror
      cases herror
  subst hw
  have hlen : 2 ≤ leaves.length := by
    have hlength := congrArg List.length hspells
    rw [List.length_map, List.length_map] at hlength
    rw [hlength]
    decide
  have hnames : (tokenize "def x as T; def val y as (x or val x);").toOption.map
      (fun leaves => (declaredNames leaves).eraseDups) = some ["y", "x"] := by decide +kernel
  rw [htokens] at hnames
  obtain ⟨hwords, hidentifiers⟩ := hdiscipline root hparse hlen
  exact ⟨leaves, root, w', htokens, hparse, hbound.trans (Option.some.inj hnames), hwords,
    hidentifiers⟩

end Trivalent
