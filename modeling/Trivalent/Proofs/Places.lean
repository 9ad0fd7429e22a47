import Trivalent.Program
import Trivalent.Proofs.Evaluation.Session
import Trivalent.Proofs.Parse.Shape
import Trivalent.Proofs.Reduction.Forest
import Trivalent.Proofs.Token.Concatenation

/-!
# Places in the source

Nodes and diagnostics carry a span and a line, and nothing but the code that makes them ties these
to the source: the scanner counts lines as it goes, and all other nodes take their places from their
children. Both are right for whatever a parse builds and for whatever a run reports.

* `Located` -- a span is a place in a source, and a line is where it starts; `located_of_split` -- a
  piece of a text is such a place, in bytes as in characters;
* `Token.scan_located` -- **whatever a scan finds is a place**, a leaf or what is no token;
* `Arena.Enclosed`, `Arena.Placed` -- a node covers what its children cover, and every node is at a
  place;
* `Graft.laid` -- what one new node keeps; `parse_placed` -- **whatever comes of a parse, its nodes
  are at their places**;
* `Context.run_points` -- **so are the diagnostics of a run**.
-/

namespace Trivalent

open Trivalent.Derivation

/-! ## 1. Places in a text -/

/-- The new lines of a text that start before a byte offset. -/
def newlinesBefore (source : String) (offset : Nat) : Nat :=
  (source.toByteArray.data.toList.take offset).count 10

/-- A span is a place in a source, and `line` is where it starts: the span is not empty, it lies in
the source, it cuts no character, and before it there are `line - 1` new lines. -/
structure Located (source : String) (span : Span) (line : Nat) : Prop where
  nonempty : span.start < span.stop
  inside : span.stop ≤ source.utf8ByteSize
  start_valid : String.Pos.Raw.IsValid source ⟨span.start⟩
  stop_valid : String.Pos.Raw.IsValid source ⟨span.stop⟩
  line_eq : line = 1 + newlinesBefore source span.start

theorem bytes_ofList (cs : List Char) :
    (String.ofList cs).toByteArray.data.toList = cs.flatMap String.utf8EncodeChar := by
  rw [String.toByteArray_ofList]
  unfold List.utf8Encode
  rw [List.data_toByteArray]

theorem length_bytes (cs : List Char) :
    (cs.flatMap String.utf8EncodeChar).length = byteLength cs := by
  induction cs with
  | nil => rfl
  | cons c cs ih =>
      rw [List.flatMap_cons, List.length_append, ih, String.length_utf8EncodeChar]
      rfl

theorem utf8ByteSize_eq (cs : List Char) : (String.ofList cs).utf8ByteSize = byteLength cs := by
  rw [← length_bytes, ← bytes_ofList]
  rfl

/-- No character but a new line has the byte of a new line. -/
theorem count_utf8EncodeChar (c : Char) :
    (String.utf8EncodeChar c).count 10 = if c = '\n' then 1 else 0 := by
  have hc : c = '\n' ↔ c.val.toNat = 10 := by
    rw [Char.ext_iff, ← UInt32.toNat_inj]
    rfl
  have hne : ∀ {n : Nat}, n % 256 ≠ 10 → ¬ (10 : UInt8) = UInt8.ofNat n := by
    intro n hn heq
    exact hn (congrArg UInt8.toNat heq).symm
  by_cases h : c = '\n'
  · rw [if_pos h, h]
    rfl
  · rw [if_neg h]
    rw [hc] at h
    refine List.count_eq_zero.mpr ?_
    -- a byte of a longer encoding is 128 or more
    unfold String.utf8EncodeChar
    dsimp only
    split
    · simp only [List.mem_singleton]
      exact hne (by omega)
    · split
      · simp only [List.mem_cons, List.not_mem_nil, or_false, not_or]
        exact ⟨hne (by omega), hne (by omega)⟩
      · split
        · simp only [List.mem_cons, List.not_mem_nil, or_false, not_or]
          exact ⟨hne (by omega), hne (by omega), hne (by omega)⟩
        · simp only [List.mem_cons, List.not_mem_nil, or_false, not_or]
          exact ⟨hne (by omega), hne (by omega), hne (by omega), hne (by omega)⟩

theorem count_bytes (cs : List Char) :
    (cs.flatMap String.utf8EncodeChar).count 10 = lineBreaks cs := by
  unfold lineBreaks
  induction cs with
  | nil => rfl
  | cons c cs ih =>
      rw [List.flatMap_cons, List.count_append, ih, count_utf8EncodeChar, List.count_cons,
        Nat.add_comm]
      simp only [beq_iff_eq]

section Split

variable {source : String} {before text after : List Char}

/-- Where a text is cut in two between characters, there is a place for a span to start or stop. -/
theorem isValid_of_split (h : source.toList = before ++ after) :
    String.Pos.Raw.IsValid source ⟨byteLength before⟩ := by
  refine String.Pos.Raw.isValid_iff_exists_append.mpr
    ⟨String.ofList before, String.ofList after, ?_, ?_⟩
  · rw [← String.ofList_append, ← h, String.ofList_toList]
  · rw [← utf8ByteSize_eq]
    rfl

theorem newlinesBefore_of_split (h : source.toList = before ++ after) :
    newlinesBefore source (byteLength before) = lineBreaks before := by
  unfold newlinesBefore
  rw [← String.ofList_toList (s := source), bytes_ofList, h, List.flatMap_append, ← length_bytes,
    List.take_left, count_bytes]

theorem byteLength_pos (h : text ≠ []) : 0 < byteLength text := by
  cases text with
  | nil => exact absurd rfl h
  | cons c cs => exact Nat.lt_of_lt_of_le c.utf8Size_pos (Nat.le_add_right _ _)

/-- **A piece of a text is a place in it.** -/
theorem located_of_split (h : source.toList = before ++ (text ++ after)) (hne : text ≠ []) :
    Located source ⟨byteLength before, byteLength before + byteLength text⟩
      (1 + lineBreaks before) where
  nonempty := Nat.lt_add_of_pos_right (byteLength_pos hne)
  inside := by
    show byteLength before + byteLength text ≤ source.utf8ByteSize
    rw [← String.ofList_toList (s := source), utf8ByteSize_eq, h, byteLength_append,
      byteLength_append]
    omega
  start_valid := isValid_of_split h
  stop_valid := by
    rw [← byteLength_append]
    exact isValid_of_split (h.trans (List.append_assoc _ _ _).symm)
  line_eq := by rw [newlinesBefore_of_split h]

end Split

/-! ## 2. Leaves -/

/-- A diagnostic points at a place in the source. -/
def Diagnostic.Points (source : String) (d : Diagnostic) : Prop :=
  ∃ span, d.span = some span ∧ Located source span d.line

theorem Token.strayText_append (c : Char) (rest : List Char) :
    ∃ after, c :: rest = strayText c rest ++ after ∧ strayText c rest ≠ [] := by
  unfold strayText
  split
  · exact ⟨[], (List.append_nil _).symm, by simp⟩
  · exact ⟨rest, rfl, by simp⟩

theorem Token.take_ne_nil {cs : List Char} {t : Token} {size : Nat}
    (h : longest cs = some (t, size)) : cs.take size ≠ [] := by
  have hpos := longest_pos h
  intro hnil
  rcases List.take_eq_nil_iff.mp hnil with hzero | rfl
  · omega
  · cases h

/-- **Whatever a scan finds is a place in the source.** `before` is what lies behind it. -/
theorem Token.scan_located {source : String} (start line : Nat) (cs before : List Char)
    (hsplit : source.toList = before ++ cs) (hstart : start = byteLength before)
    (hline : line = 1 + lineBreaks before) :
    match scan start line cs with
    | .ok leaves => ∀ n ∈ leaves, Located source n.span n.line
    | .error d => d.Points source := by
  revert before
  refine scan_cases (P := fun start line cs outcome => ∀ before, source.toList = before ++ cs →
    start = byteLength before → line = 1 + lineBreaks before → match outcome with
      | .ok leaves => ∀ n ∈ leaves, Located source n.span n.line
      | .error d => d.Points source) ?nil ?stray ?malformed ?skip ?token start line cs
  case nil => exact fun _ _ _ _ _ _ n hn => absurd hn List.not_mem_nil
  case stray =>
    intro start line c rest before hsplit hstart hline
    obtain ⟨after, hafter, hne⟩ := strayText_append c rest
    rw [hafter] at hsplit
    subst hstart hline
    exact ⟨_, rfl, located_of_split hsplit hne⟩
  case malformed =>
    intro start line cs size hlongest before hsplit hstart hline
    rw [← List.take_append_drop size cs] at hsplit
    subst hstart hline
    exact ⟨_, rfl, located_of_split hsplit (take_ne_nil hlongest)⟩
  case skip =>
    intro start line cs t size outcome hlongest _ _ ih before hsplit hstart hline
    refine ih (before ++ cs.take size) ?_ ?_ ?_
    · rw [List.append_assoc, List.take_append_drop, hsplit]
    · rw [byteLength_append, hstart]
    · rw [hline, Nat.add_assoc]
      unfold lineBreaks
      rw [List.count_append]
  case token =>
    intro start line cs t size symbol action outcome hlongest hentry ih before hsplit hstart hline
    have hmunch := longestOf_eq_munch hlongest
    -- a token that the grammar sees has no new line in it, so the line stays
    have hbreaks : lineBreaks (cs.take size) = 0 := by
      rw [hmunch]
      exact lineBreaks_take hentry (hmunch ▸ longest_pos hlongest)
    have hrest := ih (before ++ cs.take size)
      (by rw [List.append_assoc, List.take_append_drop, hsplit])
      (by rw [byteLength_append, hstart])
      (by rw [hline]; unfold lineBreaks at hbreaks ⊢; rw [List.count_append, hbreaks]; rfl)
    cases outcome with
    | error d => exact hrest
    | ok leaves =>
        intro n hn
        rcases List.mem_cons.mp hn with rfl | hn
        · rw [← List.take_append_drop size cs] at hsplit
          subst hstart hline
          exact located_of_split hsplit (take_ne_nil hlongest)
        · exact hrest n hn

theorem tokenize_located (source : String) :
    match tokenize source with
    | .ok leaves => ∀ n ∈ leaves, Located source n.span n.line
    | .error d => d.Points source :=
  Token.scan_located 0 1 source.toList [] rfl rfl rfl

/-! ## 3. Nodes -/

/-- Whatever a node covers, its children cover: it is a leaf, it has the span of its one child, or it
has the union of the spans of two children, the left one of which stops before the right one
starts. -/
inductive Arena.Enclosed (arena : Arena) (node : Node) : Prop
  | leaf {literal : String} (shape : node.shape = .leaf literal)
  | unary {id : NodeId} {child : Node} (shape : node.shape = .branch (some id) none)
      (get : arena.get? id = some child) (span : node.span = child.span)
  | binary {i j : NodeId} {left right : Node} (shape : node.shape = .branch (some i) (some j))
      (getLeft : arena.get? i = some left) (getRight : arena.get? j = some right)
      (order : left.span.stop ≤ right.span.start) (span : node.span = left.span.union right.span)

/-- Every node of the arena is at a place in the source, the one that its children cover. -/
def Arena.Placed (arena : Arena) (source : String) : Prop :=
  ∀ id node, arena.get? id = some node → Located source node.span node.line ∧ arena.Enclosed node

theorem Arena.Enclosed.mono {a b : Arena} (hab : a.Within b) {node : Node} (h : a.Enclosed node) :
    b.Enclosed node := by
  cases h with
  | leaf shape => exact .leaf shape
  | unary shape get span => exact .unary shape (hab _ _ get) span
  | binary shape getLeft getRight order span =>
      exact .binary shape (hab _ _ getLeft) (hab _ _ getRight) order span

section Located

variable {source : String} {a b : Span} {line line' : Nat}

/-- From the start of one place to the stop of a later one there is a place as well. -/
theorem Located.join (ha : Located source a line) (hb : Located source b line')
    (h : a.stop ≤ b.start) : Located source ⟨a.start, b.stop⟩ line where
  nonempty := Nat.lt_trans ha.nonempty (Nat.lt_of_le_of_lt h hb.nonempty)
  inside := hb.inside
  start_valid := ha.start_valid
  stop_valid := hb.stop_valid
  line_eq := ha.line_eq

theorem Located.union_eq (ha : Located source a line) (hb : Located source b line')
    (h : a.stop ≤ b.start) : a.union b = ⟨a.start, b.stop⟩ := by
  have hstart := ha.nonempty
  have hstop := hb.nonempty
  unfold Span.union
  rw [Nat.min_eq_left (by omega), Nat.max_eq_right (by omega)]

end Located

/-! ## 4. Reductions -/

/-- The parts of a row stand side by side, in the order of the source. -/
def SideBySide (row : List Derivation) : Prop :=
  row.Pairwise fun d e => d.node.span.stop ≤ e.node.span.start

/-- An arena and a row as they are at every point of a parse. -/
structure Laid (source : String) (s : Arena × List Derivation) : Prop where
  placed : s.1.Placed source
  order : SideBySide s.2
  holds : ∀ d ∈ s.2, s.1.Holds d

theorem Laid.located {source : String} {s : Arena × List Derivation} (h : Laid source s)
    {d : Derivation} (hd : d ∈ s.2) : Located source d.node.span d.node.line :=
  (h.placed _ _ (h.holds d hd).get?).1

theorem span_above (id : NodeId) (symbol : Symbol) (action : Action) (left : Derivation)
    (right : Option Derivation) :
    (above id symbol action left right).node.span
      = ⟨left.node.span.start, (right.getD left).node.span.stop⟩ := by
  cases right <;> rfl

section Graft

variable {source : String} {arena : Arena} {window : List Derivation} {p : Production}
  {left : Derivation} {right : Option Derivation}

/-- A second child stands to the right of the first one, where a production takes it from there. -/
theorem order_of_window {r : Derivation} (hp : p.left ≤ p.right)
    (hleft : window[p.left]? = some left)
    (hright : some r = if p.hasRight then window[p.right]? else none)
    (horder : SideBySide window) : r ∈ window ∧ left.node.span.stop ≤ r.node.span.start := by
  split at hright
  · rename_i hhas
    have hne : p.left ≠ p.right := bne_iff_ne.mp hhas
    obtain ⟨hl, rfl⟩ := List.getElem?_eq_some_iff.mp hleft
    obtain ⟨hr, rfl⟩ := List.getElem?_eq_some_iff.mp hright.symm
    refine ⟨List.getElem_mem hr, ?_⟩
    exact List.pairwise_iff_getElem.mp horder _ _ hl hr (Nat.lt_of_le_of_ne hp hne)
  · cases hright

/-- A new node over parts of a window is at a place, the one that its children cover; its last child
is in the window. -/
theorem Laid.above (h : Laid source (arena, window)) (hp : p.left ≤ p.right)
    (hleft : window[p.left]? = some left)
    (hright : right = if p.hasRight then window[p.right]? else none) (id : NodeId)
    (symbol : Symbol) (action : Action) :
    Located source (above id symbol action left right).node.span
        (above id symbol action left right).node.line
      ∧ arena.Enclosed (above id symbol action left right).node ∧ right.getD left ∈ window := by
  have hmem := List.mem_of_getElem? hleft
  have hlocated := h.located hmem
  have hget := (h.holds left hmem).get?
  cases right with
  | none => exact ⟨hlocated, .unary rfl hget rfl, hmem⟩
  | some r =>
      obtain ⟨hr, horder⟩ := order_of_window hp hleft hright h.order
      have hlocated' := h.located hr
      refine ⟨hlocated.join hlocated' horder, ?_, hr⟩
      exact .binary rfl hget (h.holds r hr).get? horder (hlocated.union_eq hlocated' horder).symm

/-- **A graft keeps every node at its place.** -/
theorem Graft.laid {s t : Arena × List Derivation} (h : Graft (fun p => p.left ≤ p.right) s t)
    (hs : Laid source s) : Laid source t := by
  have hholds := h.holds hs.holds
  have hwithin := h.within
  cases h with
  | @intro arena before window after left right p allowed leftChild rightChild =>
      obtain ⟨hplaced, horder, hheld⟩ := hs
      obtain ⟨hfirst, hafter, hacross⟩ := List.pairwise_append.mp horder
      obtain ⟨hbefore, hwindow, hinto⟩ := List.pairwise_append.mp hfirst
      have hlaid : Laid source (arena, window) :=
        ⟨hplaced, hwindow, fun d hd => hheld d (by simp [hd])⟩
      obtain ⟨hlocated, henclosed, hlast⟩ :=
        hlaid.above allowed leftChild rightChild arena.size p.result p.action
      refine ⟨fun id node hget => ?_, ?_, hholds⟩
      · rcases Arena.get?_push_cases hget with ⟨-, rfl⟩ | hget
        · exact ⟨hlocated, henclosed.mono hwithin⟩
        · obtain ⟨hnode, hchildren⟩ := hplaced id node hget
          exact ⟨hnode, hchildren.mono hwithin⟩
      -- the new node starts where its left child starts and stops where its last child stops
      · refine List.pairwise_append.mpr ⟨hbefore, List.pairwise_cons.mpr ⟨fun d hd => ?_, hafter⟩,
          fun d hd e he => ?_⟩
        · rw [span_above]
          exact hacross _ (List.mem_append_right _ hlast) d hd
        · rcases List.mem_cons.mp he with rfl | he
          · rw [span_above]
            exact hinto d hd left (List.mem_of_getElem? leftChild)
          · exact hacross d (List.mem_append_left _ hd) e he

end Graft

/-- The productions of the standard grammar take their children from left to right. -/
theorem Grammar.left_le_right_of_standard {frame : List Symbol} {p : Production}
    (h : standard.lookup frame = some p) : p.left ≤ p.right := by
  cases lookup_standard_iff.mp h <;> simp

theorem laid_leafRow {source : String} {leaves : List Node} (journal : Journal)
    (hlocated : ∀ n ∈ leaves, Located source n.span n.line)
    (hleaves : ∀ n ∈ leaves, n.literal?.isSome) (horder : Token.InOrder leaves) :
    Laid source ((Workspace.ofLeaves leaves journal).arena, leafRow leaves) where
  placed id node hget := by
    have hmem := @Workspace.get?_ofLeaves leaves journal id node hget
    refine ⟨hlocated node hmem, ?_⟩
    have hliteral := hleaves node hmem
    cases hshape : node.shape with
    | leaf literal => exact .leaf hshape
    | branch left right =>
        unfold Node.literal? at hliteral
        rw [hshape] at hliteral
        cases hliteral
  order := by
    refine List.pairwise_iff_getElem.mpr fun i j hi hj hij => ?_
    simp only [leafRow, List.getElem_mapIdx]
    exact List.pairwise_iff_getElem.mp horder i j _ _ hij
  holds := holds_leafRow leaves journal

/-- A row that cannot be reduced any further is reported at a place. -/
theorem Laid.conclude {source : String} {w : Workspace} {row : List Derivation}
    (h : Laid source (w.arena, row)) :
    Work.Meets w (Workspace.conclude (row.map slot)) (fun _ t => t = w)
      (fun e t => t = w ∧ ∀ d, e = .diagnostic d →
        (d.problem = .unexpectedEnd ∧ d.span = none) ∨ d.Points source) := by
  match row, h with
  | [], _ =>
      refine .throw ⟨rfl, fun d hd => ?_⟩
      cases hd
      exact .inl ⟨rfl, rfl⟩
  | [d], _ => exact rfl
  | d :: e :: rest, h =>
      unfold Work.Meets
      rw [Workspace.conclude_run h.holds]
      refine ⟨rfl, fun d' hd' => ?_⟩
      cases hd'
      have hlast := List.getLast_mem (l := e :: rest) (by simp)
      have hfirst := h.located (d := d) (by simp)
      have hend := h.located (List.mem_cons_of_mem d hlast)
      have horder := (List.pairwise_cons.mp h.order).1 _ hlast
      refine .inr ⟨_, rfl, ?_⟩
      rw [hfirst.union_eq hend horder]
      exact hfirst.join hend horder

/-- The arena that a parse leaves, whether it accepts the program or not. -/
def parseArena (leaves : List Node) (journal : Journal) : Arena :=
  match parse leaves journal with
  | .ok _ w => w.arena
  | .error _ w => w.arena

/-- **Whatever comes of a parse, every node is at its place**, and so is what it reports. -/
theorem parse_placed {source : String} {leaves : List Node} (htokens : tokenize source = .ok leaves)
    (journal : Journal) :
    (parseArena leaves journal).Placed source
      ∧ ∀ d w, parse leaves journal = .error (.diagnostic d) w →
        (d.problem = .unexpectedEnd ∧ d.span = none) ∨ d.Points source := by
  have hlocated := tokenize_located source
  rw [htokens] at hlocated
  have hleaves : ∀ n ∈ leaves, n.literal?.isSome := by
    intro n hn
    obtain ⟨l, hlexeme, -⟩ := tokenize_genuine htokens n hn
    rw [(Node.lexeme?_eq_some hlexeme).2.2]
    rfl
  have hlaid := laid_leafRow journal hlocated hleaves (tokenize_inOrder htokens)
  obtain ⟨steps, w, row, hreduces, hend⟩ := @Workspace.reduce_reduces .standard .bind _ _ hlaid.holds
  obtain ⟨last, rfl, hgrafts⟩ := hreduces.grafts (fun h => Grammar.left_le_right_of_standard h)
    (fun _ => Nat.le_refl 0) hlaid.holds
  have hlast : Laid source (w.arena, last) :=
    hgrafts.preserves (P := Laid source) (fun hgraft => hgraft.laid) hlaid
  rw [ids_leafRow] at hend
  unfold parseArena
  rcases hend with ⟨-, hend⟩ | hend
  · have hparse : parse leaves journal = (Workspace.conclude (last.map slot)).run w := hend
    have hconclude := hlast.conclude
    rw [hparse]
    cases hrun : (Workspace.conclude (last.map slot)).run w with
    | ok root t =>
        obtain rfl := hconclude.of_ok hrun
        refine ⟨hlast.placed, fun d w' h => ?_⟩
        cases h
    | error e t =>
        obtain ⟨rfl, hpoints⟩ := hconclude.of_error hrun
        refine ⟨hlast.placed, fun d w' h => ?_⟩
        cases h
        exact hpoints d rfl
  · have hparse : parse leaves journal = .error (.fault .endless) w := hend
    rw [hparse]
    refine ⟨hlast.placed, fun d w' h => ?_⟩
    injection h with h _
    cases h

/-! ## 5. Runs -/

namespace Context

/-- A run scans, parses and walks, and stops at the first of these that fails. -/
theorem run_eq (source : String) (c : Context) :
    (run source).run c
      = match tokenize source with
        | .error d => .error (.diagnostic d) c
        | .ok leaves =>
          match parse leaves c.journal with
          | .error e w => .error e { c with journal := w.journal }
          | .ok root w => (walk w.arena root).run { c with journal := w.journal } := by
  unfold run parseSource scanSource
  cases htokens : tokenize source with
  | error d => rfl
  | ok leaves =>
      unfold parseTree
      rw [EStateM.run_bind, pure_bind, EStateM.run_bind]
      unfold withJournal
      cases hparse : parse leaves c.journal with
      | error e w => simp only [EStateM.run, hparse]
      | ok root w => simp only [EStateM.run, hparse]; rfl

/-- **Diagnostics point at the right place.** Every node in the arena that a parse of a source
leaves, whether it accepts the source or not, is at a place in the source that its children cover,
and has the line of that place. Every diagnostic of a run points at a place in the source, with the
line of that place, except that of a source without tokens, which points at none. -/
theorem run_points {source : String} {limits : Limits} {journal : Journal}
    (hlimit : limits.maxUnsure ≤ 62) :
    (∀ leaves, tokenize source = .ok leaves → (parseArena leaves journal).Placed source)
      ∧ ∀ d c, (run source).run { limits, journal } = .error (.diagnostic d) c →
        (d.problem = .unexpectedEnd ∧ d.span = none) ∨ d.Points source := by
  refine ⟨fun leaves htokens => (parse_placed htokens journal).1, fun d c h => ?_⟩
  rw [run_eq] at h
  cases htokens : tokenize source with
  | error d' =>
      have hpoints := tokenize_located source
      rw [htokens] at h hpoints
      cases h
      exact .inr hpoints
  | ok leaves =>
      obtain ⟨hplaced, hpoints⟩ := parse_placed htokens journal
      unfold parseArena at hplaced
      rw [htokens] at h
      simp only at h
      cases hparse : parse leaves journal with
      | error e w =>
          rw [hparse] at h
          cases h
          exact hpoints d w hparse
      | ok root w =>
          rw [hparse] at h hplaced
          have hsound : Sound limits { limits, journal := w.journal } := ⟨rfl, Nat.zero_le _, nofun⟩
          obtain ⟨id, node, hget, hspan, hline⟩ :=
            ((walk_walks hlimit hsound w.arena root).of_error h).2
          refine .inr ⟨node.span, hspan, ?_⟩
          rw [hline]
          exact (hplaced id node hget).1

/-- The comment ends two lines before the statement starts, and the variable is read one line below
its start. -/
theorem run_points_below :
    ∃ d c, (run "\x60é\n\x60\n\ndef val x as\n  val y;").run {} = .error (.diagnostic d) c
      ∧ d = ⟨.unknownVariable "y", some ⟨26, 27⟩, 5⟩
      ∧ d.Points "\x60é\n\x60\n\ndef val x as\n  val y;" := by
  have hrun : (match (run "\x60é\n\x60\n\ndef val x as\n  val y;").run {} with
      | .ok _ _ => none
      | .error e _ => some e)
        = some (.diagnostic ⟨.unknownVariable "y", some ⟨26, 27⟩, 5⟩) := by
    decide +kernel
  split at hrun
  · cases hrun
  · rename_i e c herror
    cases hrun
    rcases (run_points (by decide)).2 _ c herror with hnone | hpoints
    · cases hnone.2
    · exact ⟨_, c, herror, rfl, hpoints⟩

end Context

end Trivalent
