import Trivalent.Proofs.Token.Lexeme

/-!
# Scanning two sources as one

No token but a comment reaches over the end of a line, and a comment that does not end where it
should is no token. So a source that can be scanned is scanned in the same way if a new line and
more text follow it, and what follows is scanned as if it stood alone, further on.

* `Node.moved` -- a node as it is found some bytes and lines further on, without the numbers of its
  children;
* `Token.munch_append` -- what a kind of token takes does not depend on what comes after the line;
* `Token.scan_append`, `Token.scan_moved` -- the two halves of a scan;
* `tokenize_append` -- **the leaves of two sources one below the other**: those of the first, then
  those of the second further on.
-/

namespace Trivalent

/-! ## 1. Further on -/

/-- A span some bytes further on. -/
def Span.moved (bytes : Nat) (s : Span) : Span := ⟨s.start + bytes, s.stop + bytes⟩

/-- The text of a leaf, or just that there are children. -/
def Shape.unnumbered : Shape → Shape
  | .leaf text => .leaf text
  | .branch _ _ => .branch none none

/-- A node some bytes and lines further on, without the numbers of its children. -/
def Node.moved (bytes lines : Nat) (n : Node) : Node :=
  { n with span := n.span.moved bytes, line := n.line + lines, shape := n.shape.unnumbered }

@[simp] theorem Node.symbol_moved (bytes lines : Nat) (n : Node) :
    (n.moved bytes lines).symbol = n.symbol := rfl

@[simp] theorem Node.action_moved (bytes lines : Nat) (n : Node) :
    (n.moved bytes lines).action = n.action := rfl

@[simp] theorem Node.literal?_moved (bytes lines : Nat) (n : Node) :
    (n.moved bytes lines).literal? = n.literal? := by
  obtain ⟨symbol, action, span, line, shape⟩ := n
  cases shape <;> rfl

/-! ## 2. What a token takes -/

namespace Token

theorem takeWhile_append_of_neg {p : Char → Bool} {stop : Char} (hstop : p stop = false)
    (cs ds : List Char) : (cs ++ stop :: ds).takeWhile p = cs.takeWhile p := by
  induction cs with
  | nil => simp [hstop]
  | cons c cs ih => rw [List.cons_append, List.takeWhile_cons, List.takeWhile_cons, ih]

theorem isPrefixOf_append {spelling : List Char} {stop : Char} (hstop : stop ∉ spelling)
    (cs ds : List Char) : spelling.isPrefixOf (cs ++ stop :: ds) = spelling.isPrefixOf cs := by
  induction spelling generalizing cs with
  | nil => simp
  | cons a spelling ih =>
      obtain ⟨hne, hrest⟩ := List.ne_and_not_mem_of_not_mem_cons hstop
      cases cs with
      | nil => simp [List.isPrefixOf, Ne.symm hne]
      | cons c cs => simp [List.isPrefixOf, ih hrest]

/-- A comment that is closed ends at the first back-tick. -/
theorem munchComment_closed (before after : List Char) :
    munchComment (backTick :: (before ++ backTick :: after))
      = (before.takeWhile (· != backTick)).length + 2 := by
  have hbody := @takeWhile_append_of_neg (· != backTick) backTick (by decide) before after
  have hle := (List.takeWhile_prefix (l := before) (· != backTick)).length_le
  unfold munchComment
  simp only [hbody, beq_self_eq_true, Bool.true_and, List.length_append, List.length_cons,
    decide_eq_true_eq]
  exact if_pos (by omega)

/-- An open comment is the only thing that text on a later line can change. -/
theorem munch_append {c : Char} {rest : List Char} (hclosed : c = backTick → backTick ∈ rest)
    (t : Token) (ds : List Char) : t.munch (c :: rest ++ '\n' :: ds) = t.munch (c :: rest) := by
  have hspelled : ∀ s : String, '\n' ∉ s.toList →
      munchSpelling s (c :: rest ++ '\n' :: ds) = munchSpelling s (c :: rest) := by
    intro s hs
    unfold munchSpelling
    rw [isPrefixOf_append hs]
  cases t with
  | identifier =>
      show munchIdentifier (c :: (rest ++ '\n' :: ds)) = munchIdentifier (c :: rest)
      unfold munchIdentifier
      dsimp only
      rw [takeWhile_append_of_neg (by decide)]
  | malformed =>
      show ((c :: rest ++ '\n' :: ds).takeWhile isWordChar).length = _
      rw [takeWhile_append_of_neg (by decide)]
      rfl
  | blank =>
      show ((c :: rest ++ '\n' :: ds).takeWhile isBlank).length = _
      rw [takeWhile_append_of_neg (by decide)]
      rfl
  | newline =>
      show munchSpelling "\n" (c :: (rest ++ '\n' :: ds)) = munchSpelling "\n" (c :: rest)
      unfold munchSpelling
      simp
  | comment =>
      show munchComment (c :: (rest ++ '\n' :: ds)) = munchComment (c :: rest)
      by_cases hc : c = backTick
      · obtain ⟨before, after, rfl⟩ := List.append_of_mem (hclosed hc)
        rw [hc, List.append_assoc, List.cons_append, munchComment_closed, munchComment_closed]
      · unfold munchComment
        simp [hc]
  | _ => exact hspelled _ (by decide)

/-- At a back-tick there is a token only if there is another back-tick. -/
theorem backTick_mem_of_longest {c : Char} {rest : List Char} {t : Token} {size : Nat}
    (h : longest (c :: rest) = some (t, size)) (hc : c = backTick) : backTick ∈ rest := by
  have hpos := longest_pos h
  rw [longestOf_eq_munch h, hc] at hpos
  cases t with
  | comment =>
      have hpos : 0 < munchComment (backTick :: rest) := hpos
      unfold munchComment at hpos
      dsimp only at hpos
      split at hpos
      · rename_i hbody
        rw [beq_self_eq_true, Bool.true_and, decide_eq_true_eq] at hbody
        apply Decidable.byContradiction
        intro hnot
        have hopen : ∀ d ∈ rest, (d != backTick) = true := by
          intro d hd
          rw [bne_iff_ne]
          rintro rfl
          exact hnot hd
        have hall := @List.takeWhile_append_of_pos _ (· != backTick) rest [] hopen
        rw [List.takeWhile_nil, List.append_nil] at hall
        rw [hall] at hbody
        exact Nat.lt_irrefl _ hbody
      · cases hpos
  | _ => cases hpos

theorem longestOf_congr {cs cs' : List Char} (h : ∀ t : Token, t.munch cs = t.munch cs')
    (ts : List Token) : longestOf ts cs = longestOf ts cs' := by
  induction ts with
  | nil => rfl
  | cons t ts ih => simp only [longestOf, h t, ih]

theorem longest_append {cs : List Char} {t : Token} {size : Nat}
    (h : longest cs = some (t, size)) (ds : List Char) :
    longest (cs ++ '\n' :: ds) = some (t, size) := by
  cases cs with
  | nil => cases h
  | cons c rest =>
      rw [← h]
      exact longestOf_congr (fun u => munch_append (backTick_mem_of_longest h) u ds) all

theorem munchSpelling_le (spelling : String) (cs : List Char) :
    munchSpelling spelling cs ≤ cs.length := by
  unfold munchSpelling
  split
  · rename_i hprefix
    rw [← String.length_toList]
    exact (List.isPrefixOf_iff_prefix.mp hprefix).length_le
  · exact Nat.zero_le _

/-- No token takes more than there is. -/
theorem munch_le (t : Token) (cs : List Char) : t.munch cs ≤ cs.length := by
  cases t with
  | identifier =>
      show munchIdentifier cs ≤ cs.length
      unfold munchIdentifier
      split
      · exact Nat.zero_le _
      · rename_i c rest
        have hle := (List.takeWhile_prefix (l := rest) Char.isAlphanum).length_le
        rw [List.length_cons]
        split <;> omega
  | malformed => exact (List.takeWhile_prefix _).length_le
  | blank => exact (List.takeWhile_prefix _).length_le
  | comment =>
      show munchComment cs ≤ cs.length
      unfold munchComment
      split
      · exact Nat.zero_le _
      · dsimp only
        split
        · rename_i hbody
          rw [Bool.and_eq_true, decide_eq_true_eq] at hbody
          rw [List.length_cons]
          omega
        · exact Nat.zero_le _
  | _ => exact munchSpelling_le _ cs

/-- A token that the grammar sees lies on one line. -/
theorem lineBreaks_take {t : Token} {cs : List Char} {entry : Symbol × Action}
    (hentry : t.entry = some entry) (hpos : 0 < t.munch cs) :
    lineBreaks (cs.take (t.munch cs)) = 0 := by
  have hspelled : ∀ {s : String}, t.munch cs = munchSpelling s cs → '\n' ∉ s.toList →
      lineBreaks (cs.take (t.munch cs)) = 0 := by
    intro s hmunch hs
    rw [hmunch] at hpos ⊢
    unfold lineBreaks
    rw [List.count_eq_zero, ← String.toList_ofList (l := cs.take (munchSpelling s cs)),
      take_munchSpelling hpos]
    exact hs
  cases t with
  | identifier =>
      cases cs with
      | nil => cases hpos
      | cons c rest =>
          show lineBreaks ((c :: rest).take (munchIdentifier (c :: rest))) = 0
          unfold munchIdentifier
          dsimp only
          split
          · rename_i hlower
            rw [Nat.add_comm, List.take_succ_cons,
              ← List.prefix_iff_eq_take.mp (List.takeWhile_prefix (l := rest) Char.isAlphanum)]
            refine List.count_eq_zero.mpr fun hmem => ?_
            rcases List.mem_cons.mp hmem with rfl | hmem
            · cases hlower
            · have hall := List.all_takeWhile (l := rest) (p := Char.isAlphanum)
              cases List.all_eq_true.mp hall _ hmem
          · rfl
  | malformed => cases hentry
  | comment => cases hentry
  | newline => cases hentry
  | blank => cases hentry
  | _ => exact hspelled rfl (by decide)

theorem longest_newline (ds : List Char) : longest ('\n' :: ds) = some (.newline, 1) := by
  have hmunch : ∀ t : Token, t.munch ('\n' :: ds) = if t = .newline then 1 else 0 := by
    intro t
    cases t <;> rfl
  unfold longest all
  simp only [longestOf, hmunch]
  rfl

/-! ## 3. Scanning -/

/-- **A source that can be scanned keeps its tokens** if more text follows on a new line, and that
is scanned by itself. -/
theorem scan_append (start line : Nat) (cs : List Char) {leaves : List Node}
    (h : scan start line cs = .ok leaves) (ds : List Char) :
    scan start line (cs ++ '\n' :: ds)
      = (scan (start + byteLength cs + 1) (line + lineBreaks cs + 1) ds).map (leaves ++ ·) := by
  have hcut : ∀ {cs : List Char} {t : Token} {size : Nat}, longest cs = some (t, size) →
      (cs ++ '\n' :: ds).take size = cs.take size
        ∧ (cs ++ '\n' :: ds).drop size = cs.drop size ++ '\n' :: ds := by
    intro cs t size hlongest
    have hle : size ≤ cs.length := longestOf_eq_munch hlongest ▸ munch_le t cs
    exact ⟨List.take_append_of_le_length hle, List.drop_append_of_le_length hle⟩
  -- what is taken and what is left make up the text
  have hbytes : ∀ (cs : List Char) (size : Nat),
      byteLength (cs.take size) + byteLength (cs.drop size) = byteLength cs := by
    intro cs size
    rw [← byteLength_append, List.take_append_drop]
  have hbreaks : ∀ (cs : List Char) (size : Nat),
      lineBreaks (cs.take size) + lineBreaks (cs.drop size) = lineBreaks cs := by
    intro cs size
    unfold lineBreaks
    rw [← List.count_append, List.take_append_drop]
  refine scan_induction (P := fun start line cs leaves => scan start line (cs ++ '\n' :: ds)
    = (scan (start + byteLength cs + 1) (line + lineBreaks cs + 1) ds).map (leaves ++ ·))
    ?_ ?_ ?_ start line cs h
  · intro start line
    have hnone : ∀ scanned : Except Diagnostic (List Node), scanned = scanned.map ([] ++ ·) := by
      intro scanned
      cases scanned <;> rfl
    rw [List.nil_append, scan_skip (longest_newline ds) rfl (by decide)]
    exact hnone _
  · intro start line cs t size leaves hlongest hentry hword ih
    obtain ⟨htake, hdrop⟩ := hcut hlongest
    rw [scan_skip (longest_append hlongest ds) hentry hword, htake, hdrop, ih, Nat.add_assoc start,
      Nat.add_assoc line, hbytes, hbreaks]
  · intro start line cs t size symbol action leaves hlongest hentry ih
    obtain ⟨htake, hdrop⟩ := hcut hlongest
    have hline := lineBreaks_take hentry (longestOf_eq_munch hlongest ▸ longest_pos hlongest)
    rw [← longestOf_eq_munch hlongest] at hline
    have hrest : lineBreaks (cs.drop size) = lineBreaks cs := by
      rw [← hbreaks cs size, hline, Nat.zero_add]
    rw [scan_token (longest_append hlongest ds) hentry, htake, hdrop, ih, Nat.add_assoc start,
      hbytes, hrest]
    cases scan (start + byteLength cs + 1) (line + lineBreaks cs + 1) ds <;> rfl

/-- **A source is scanned further on as it is at the start.** -/
theorem scan_moved (bytes lines start line : Nat) (cs : List Char) {leaves : List Node}
    (h : scan start line cs = .ok leaves) :
    scan (start + bytes) (line + lines) cs = .ok (leaves.map (Node.moved bytes lines)) := by
  refine scan_induction (P := fun start line cs leaves =>
    scan (start + bytes) (line + lines) cs = .ok (leaves.map (Node.moved bytes lines)))
    ?_ ?_ ?_ start line cs h
  · intro start line
    unfold scan
    rfl
  · intro start line cs t size leaves hlongest hentry hword ih
    rw [scan_skip hlongest hentry hword, Nat.add_right_comm start, Nat.add_right_comm line, ih]
  · intro start line cs t size symbol action leaves hlongest hentry ih
    rw [scan_token hlongest hentry, Nat.add_right_comm start, ih]
    rfl

end Token

theorem toList_below (source source' : String) :
    (source ++ "\n" ++ source').toList = source.toList ++ '\n' :: source'.toList := by
  rw [String.toList_append, String.toList_append, List.append_assoc]
  rfl

/-- **The leaves of two sources, one below the other.** -/
theorem tokenize_append {source source' : String} {leaves leaves' : List Node}
    (h : tokenize source = .ok leaves) (h' : tokenize source' = .ok leaves') :
    tokenize (source ++ "\n" ++ source') = .ok (leaves ++ leaves'.map
      (Node.moved (byteLength source.toList + 1) (lineBreaks source.toList + 1))) := by
  unfold tokenize at h h' ⊢
  rw [toList_below, Token.scan_append 0 1 source.toList h source'.toList, Nat.add_assoc, Nat.add_assoc,
    Token.scan_moved _ _ 0 1 source'.toList h']
  rfl

end Trivalent
