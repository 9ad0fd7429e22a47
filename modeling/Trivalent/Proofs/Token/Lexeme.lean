import Trivalent.Token.Scan

/-!
# Lexemes

A token as the grammar sees it, without its place in the source: symbol, action and text.

* `Lexeme` -- the three together; `Node.lexeme?` reads them off a leaf, and `Spells` says that a
  row of leaves has given lexemes, wherever the leaves stand in a source;
* `Constant` -- the three truth values that can be written;
* `Lexeme.Genuine` -- what the scanner can give: a word or delimiter in its one spelling, a truth
  value, or an identifier;
* `Token.scan_token`, `Token.scan_skip`, `Token.scan_malformed`, `Token.scan_stray` -- the four
  things a scan does at a character; `Token.scan_cases` -- all that a scan does, and
  `Token.scan_induction` -- all that one which succeeds does;
* `tokenize_genuine` -- **every leaf of a source has a genuine lexeme**;
* `tokenize_inOrder` -- leaves come in the order of the source.
-/

namespace Trivalent

/-! ## 1. Lexemes -/

/-- A token without its place. -/
structure Lexeme where
  symbol : Symbol
  action : Action
  literal : String
  deriving DecidableEq, Repr

/-- The lexeme of a leaf. -/
def Node.lexeme? (n : Node) : Option Lexeme :=
  n.literal?.map fun literal => ⟨n.symbol, n.action, literal⟩

theorem Node.lexeme?_eq_some {n : Node} {l : Lexeme} (h : n.lexeme? = some l) :
    n.symbol = l.symbol ∧ n.action = l.action ∧ n.literal? = some l.literal := by
  obtain ⟨text, htext, rfl⟩ := Option.map_eq_some_iff.mp h
  exact ⟨rfl, rfl, htext⟩

/-- The leaves have these lexemes, in this order. -/
def Spells (leaves : List Node) (lexemes : List Lexeme) : Prop :=
  leaves.map Node.lexeme? = lexemes.map some

/-- A row of leaves has one sequence of lexemes. -/
theorem Spells.unique {leaves : List Node} {a b : List Lexeme} (ha : Spells leaves a)
    (hb : Spells leaves b) : a = b := by
  have h : a.map some = b.map some := ha.symm.trans hb
  exact (List.map_inj_right fun _ _ => Option.some.inj).mp h

/-- The one spelling of a word or delimiter. -/
def Symbol.spelling? : Symbol → Option String
  | .defWord => some "def"
  | .asWord => some "as"
  | .andWord => some "and"
  | .orWord => some "or"
  | .notWord => some "not"
  | .valWord => some "val"
  | .openParen => some "("
  | .closeParen => some ")"
  | .semicolon => some ";"
  | _ => none

/-- A truth value as it is written: `T`, `F` or `U`. -/
inductive Constant where
  | certain (b : Bool)
  | unsure
  deriving DecidableEq, Repr

/-- The lexeme of a truth value. -/
def Constant.lexeme : Constant → Lexeme
  | certain true => ⟨.operand, .makeTrue, "T"⟩
  | certain false => ⟨.operand, .makeFalse, "F"⟩
  | unsure => ⟨.operand, .makeUnsure, "U"⟩

namespace Lexeme

/-- The lexeme of a word or delimiter; a symbol without a spelling has none. -/
def ofWord (s : Symbol) : Lexeme := ⟨s, .inert, s.spelling?.getD ""⟩

/-- The lexeme of an identifier. -/
def ofName (name : String) : Lexeme := ⟨.identifier, .inert, name⟩

/-- What the scanner can give. -/
inductive Genuine : Lexeme → Prop
  | word {s : Symbol} (h : s.spelling?.isSome) : Genuine (ofWord s)
  | name (text : String) : Genuine (ofName text)
  | constant (c : Constant) : Genuine c.lexeme

/-- A word is spelled in one way. -/
theorem Genuine.eq_ofWord {l : Lexeme} (h : l.Genuine) (hs : l.symbol.spelling?.isSome) :
    l = ofWord l.symbol := by
  cases h with
  | word => rfl
  | name text => cases hs
  | constant c => cases c with
    | certain b => cases b <;> cases hs
    | unsure => cases hs

end Lexeme

/-- The symbols that arise by reduction. -/
def Symbol.isFolded : Symbol → Bool
  | .codeBlock | .statement | .valVar | .operand | .expression => true
  | _ => false

theorem Symbol.isFolded_of_spelling {s : Symbol} (h : s.spelling?.isSome) : s.isFolded = false := by
  cases s <;> first | rfl | cases h

theorem Constant.symbol_lexeme (c : Constant) : c.lexeme.symbol = .operand := by
  cases c with
  | certain b => cases b <;> rfl
  | unsure => rfl

/-- Of the symbols that arise by reduction, only operands are scanned as well. -/
theorem Lexeme.Genuine.symbol_eq_operand {l : Lexeme} (h : l.Genuine) (hs : l.symbol.isFolded) :
    l.symbol = .operand := by
  cases h with
  | @word s hword =>
      have hs : s.isFolded = true := hs
      rw [Symbol.isFolded_of_spelling hword] at hs
      cases hs
  | name => cases hs
  | constant c => exact c.symbol_lexeme

/-! ## 2. What a scan does at a character -/

namespace Token

section Scan

variable {start line size : Nat} {c : Char} {rest : List Char} {token : Token}

theorem scan_stray (h : longest (c :: rest) = none) :
    scan start line (c :: rest)
      = .error ⟨.invalidLiteral (String.ofList (strayText c rest)),
          some ⟨start, start + byteLength (strayText c rest)⟩, line⟩ := by
  unfold scan
  dsimp only
  split
  · rfl
  · rename_i hsome
    rw [h] at hsome
    cases hsome

theorem scan_malformed (h : longest (c :: rest) = some (.malformed, size)) :
    scan start line (c :: rest)
      = .error ⟨malformedProblem ((c :: rest).take size),
          some ⟨start, start + byteLength ((c :: rest).take size)⟩, line⟩ := by
  unfold scan
  dsimp only
  split
  · rename_i hnone
    rw [h] at hnone
    cases hnone
  · rename_i hsome
    rw [h] at hsome
    cases hsome
    rfl

theorem scan_skip {cs : List Char} (h : longest cs = some (token, size))
    (hentry : token.entry = none) (hword : token ≠ .malformed) :
    scan start line cs
      = scan (start + byteLength (cs.take size)) (line + lineBreaks (cs.take size))
          (cs.drop size) := by
  cases cs with
  | nil => cases h
  | cons c rest =>
      conv => lhs; unfold scan
      dsimp only
      split
      · rename_i hnone
        rw [h] at hnone
        cases hnone
      · rename_i hsome
        rw [h] at hsome
        cases hsome
        split
        · exact absurd rfl hword
        · rename_i he
          rw [hentry] at he
          cases he
        · rfl

theorem scan_token {cs : List Char} {symbol : Symbol} {action : Action}
    (h : longest cs = some (token, size)) (hentry : token.entry = some (symbol, action)) :
    scan start line cs
      = (scan (start + byteLength (cs.take size)) line (cs.drop size)).map
          (.terminal symbol (String.ofList (cs.take size))
            ⟨start, start + byteLength (cs.take size)⟩ line action :: ·) := by
  cases cs with
  | nil => cases h
  | cons c rest =>
      conv => lhs; unfold scan
      dsimp only
      split
      · rename_i hnone
        rw [h] at hnone
        cases hnone
      · rename_i hsome
        rw [h] at hsome
        cases hsome
        split
        · cases hentry
        · rename_i he
          rw [hentry] at he
          cases he
          cases scan (start + byteLength ((c :: rest).take size)) line ((c :: rest).drop size) <;>
            rfl
        · rename_i he
          rw [hentry] at he
          cases he

end Scan

/-- What holds of a scan, whatever comes of it, is shown by going through what it can do. -/
theorem scan_cases {P : Nat → Nat → List Char → Except Diagnostic (List Node) → Prop}
    (nil : ∀ start line, P start line [] (.ok []))
    (stray : ∀ start line c rest, P start line (c :: rest)
      (.error ⟨.invalidLiteral (String.ofList (strayText c rest)),
        some ⟨start, start + byteLength (strayText c rest)⟩, line⟩))
    (malformed : ∀ start line cs size, longest cs = some (.malformed, size) → P start line cs
      (.error ⟨malformedProblem (cs.take size),
        some ⟨start, start + byteLength (cs.take size)⟩, line⟩))
    (skip : ∀ start line cs token size outcome, longest cs = some (token, size) →
      token.entry = none → token ≠ .malformed → P (start + byteLength (cs.take size))
        (line + lineBreaks (cs.take size)) (cs.drop size) outcome → P start line cs outcome)
    (token : ∀ start line cs token size symbol action outcome, longest cs = some (token, size) →
      token.entry = some (symbol, action) → P (start + byteLength (cs.take size)) line
        (cs.drop size) outcome → P start line cs (outcome.map (.terminal symbol
          (String.ofList (cs.take size)) ⟨start, start + byteLength (cs.take size)⟩ line action :: ·)))
    (start line : Nat) (cs : List Char) : P start line cs (scan start line cs) := by
  induction hlen : cs.length using Nat.strongRecOn generalizing start line cs with
  | ind n ih =>
      subst hlen
      match cs with
      | [] =>
          unfold scan
          exact nil start line
      | c :: rest =>
          cases hlongest : longest (c :: rest) with
          | none =>
              rw [scan_stray hlongest]
              exact stray start line c rest
          | some best =>
              obtain ⟨t, size⟩ := best
              have hpos := longest_pos hlongest
              have hshorter : ((c :: rest).drop size).length < (c :: rest).length := by
                rw [List.length_drop, List.length_cons]
                omega
              by_cases hword : t = .malformed
              · subst hword
                rw [scan_malformed hlongest]
                exact malformed start line _ size hlongest
              · cases hentry : t.entry with
                | none =>
                    rw [scan_skip hlongest hentry hword]
                    exact skip _ _ _ t size _ hlongest hentry hword (ih _ hshorter _ _ _ rfl)
                | some entry =>
                    obtain ⟨symbol, action⟩ := entry
                    rw [scan_token hlongest hentry]
                    exact token _ _ _ t size symbol action _ hlongest hentry
                      (ih _ hshorter _ _ _ rfl)

/-- What holds of a scan that succeeds is shown by going through what such a scan can do. -/
theorem scan_induction {P : Nat → Nat → List Char → List Node → Prop}
    (nil : ∀ start line, P start line [] [])
    (skip : ∀ start line cs token size leaves, longest cs = some (token, size) →
      token.entry = none → token ≠ .malformed → P (start + byteLength (cs.take size))
        (line + lineBreaks (cs.take size)) (cs.drop size) leaves → P start line cs leaves)
    (token : ∀ start line cs token size symbol action leaves, longest cs = some (token, size) →
      token.entry = some (symbol, action) → P (start + byteLength (cs.take size)) line
        (cs.drop size) leaves → P start line cs (.terminal symbol (String.ofList (cs.take size))
          ⟨start, start + byteLength (cs.take size)⟩ line action :: leaves))
    (start line : Nat) (cs : List Char) {leaves : List Node}
    (h : scan start line cs = .ok leaves) : P start line cs leaves := by
  refine scan_cases (P := fun start line cs outcome => ∀ leaves, outcome = .ok leaves →
    P start line cs leaves) ?nil ?stray ?malformed ?skip ?token start line cs leaves h
  case nil =>
    intro start line leaves h
    cases h
    exact nil start line
  case stray => exact fun _ _ _ _ _ h => nomatch h
  case malformed => exact fun _ _ _ _ _ _ h => nomatch h
  case skip =>
    intro start line cs t size outcome hlongest hentry hword ih leaves h
    exact skip start line cs t size leaves hlongest hentry hword (ih leaves h)
  case token =>
    intro start line cs t size symbol action outcome hlongest hentry ih leaves h
    cases outcome with
    | error d => cases h
    | ok nodes =>
        cases h
        exact token start line cs t size symbol action nodes hlongest hentry (ih nodes rfl)

/-! ## 3. Scanned leaves are genuine and in order -/

/-- The match that is taken is as long as its kind can make it. -/
theorem longestOf_eq_munch {ts : List Token} {cs : List Char} {t : Token} {size : Nat}
    (h : longestOf ts cs = some (t, size)) : size = t.munch cs := by
  induction ts generalizing t size with
  | nil => cases h
  | cons u ts ih =>
      simp only [longestOf] at h
      cases hrest : longestOf ts cs with
      | none =>
          rw [hrest] at h
          simp only at h
          split at h
          · cases h
            rfl
          · cases h
      | some best =>
          obtain ⟨v, most⟩ := best
          rw [hrest] at h
          simp only at h
          split at h
          · cases h
            rfl
          · cases h
            exact ih hrest

theorem take_munchSpelling {spelling : String} {cs : List Char}
    (h : 0 < munchSpelling spelling cs) :
    String.ofList (cs.take (munchSpelling spelling cs)) = spelling := by
  unfold munchSpelling at h ⊢
  split at h
  · rename_i hprefix
    rw [if_pos hprefix]
    obtain ⟨rest, rfl⟩ := List.isPrefixOf_iff_prefix.mp hprefix
    rw [← String.length_toList, List.take_left, String.ofList_toList]
  · exact absurd h (Nat.lt_irrefl 0)

/-- Whatever a kind of token matches, its lexeme is genuine. -/
theorem genuine_of_entry {t : Token} {cs : List Char} {symbol : Symbol} {action : Action}
    (hentry : t.entry = some (symbol, action)) (hpos : 0 < t.munch cs) :
    Lexeme.Genuine ⟨symbol, action, String.ofList (cs.take (t.munch cs))⟩ := by
  have hspelled : ∀ {s : String}, t.munch cs = munchSpelling s cs →
      String.ofList (cs.take (t.munch cs)) = s := by
    intro s hmunch
    rw [hmunch] at hpos ⊢
    exact take_munchSpelling hpos
  cases t with
  | defWord => cases hentry; rw [hspelled (s := "def") rfl]; exact .word (s := .defWord) rfl
  | asWord => cases hentry; rw [hspelled (s := "as") rfl]; exact .word (s := .asWord) rfl
  | valWord => cases hentry; rw [hspelled (s := "val") rfl]; exact .word (s := .valWord) rfl
  | andWord => cases hentry; rw [hspelled (s := "and") rfl]; exact .word (s := .andWord) rfl
  | orWord => cases hentry; rw [hspelled (s := "or") rfl]; exact .word (s := .orWord) rfl
  | notWord => cases hentry; rw [hspelled (s := "not") rfl]; exact .word (s := .notWord) rfl
  | openParen => cases hentry; rw [hspelled (s := "(") rfl]; exact .word (s := .openParen) rfl
  | closeParen => cases hentry; rw [hspelled (s := ")") rfl]; exact .word (s := .closeParen) rfl
  | semicolon => cases hentry; rw [hspelled (s := ";") rfl]; exact .word (s := .semicolon) rfl
  | trueWord => cases hentry; rw [hspelled (s := "T") rfl]; exact .constant (.certain true)
  | falseWord => cases hentry; rw [hspelled (s := "F") rfl]; exact .constant (.certain false)
  | unsureWord => cases hentry; rw [hspelled (s := "U") rfl]; exact .constant .unsure
  | identifier => cases hentry; exact .name _
  | malformed => cases hentry
  | comment => cases hentry
  | newline => cases hentry
  | blank => cases hentry

theorem scan_genuine (start line : Nat) (cs : List Char) {leaves : List Node}
    (h : scan start line cs = .ok leaves) :
    ∀ n ∈ leaves, ∃ l : Lexeme, n.lexeme? = some l ∧ l.Genuine := by
  refine scan_induction (P := fun _ _ _ leaves => ∀ n ∈ leaves, ∃ l : Lexeme, n.lexeme? = some l
    ∧ l.Genuine) ?_ ?_ ?_ start line cs h
  · exact fun _ _ n hn => absurd hn List.not_mem_nil
  · exact fun _ _ _ _ _ _ _ _ _ ih => ih
  · intro start line cs t size symbol action leaves hlongest hentry ih n hn
    rcases List.mem_cons.mp hn with rfl | hn
    · have hpos := longest_pos hlongest
      have hmunch := longestOf_eq_munch hlongest
      refine ⟨_, rfl, ?_⟩
      rw [hmunch] at hpos ⊢
      exact genuine_of_entry hentry hpos
    · exact ih n hn

/-- A leaf starts where the one before it has ended, or later. -/
def InOrder (leaves : List Node) : Prop := leaves.Pairwise fun a b => a.span.stop ≤ b.span.start

theorem scan_inOrder (start line : Nat) (cs : List Char) {leaves : List Node}
    (h : scan start line cs = .ok leaves) : InOrder leaves := by
  suffices hboth : (∀ n ∈ leaves, start ≤ n.span.start) ∧ InOrder leaves from hboth.2
  refine scan_induction (P := fun start _ _ leaves => (∀ n ∈ leaves, start ≤ n.span.start)
    ∧ InOrder leaves) ?_ ?_ ?_ start line cs h
  · exact fun _ _ => ⟨fun n hn => absurd hn List.not_mem_nil, .nil⟩
  · intro start _ cs _ size _ _ _ _ ⟨hafter, horder⟩
    exact ⟨fun n hn => Nat.le_trans (Nat.le_add_right _ _) (hafter n hn), horder⟩
  · intro start _ cs _ size _ _ _ _ _ ⟨hafter, horder⟩
    refine ⟨fun n hn => ?_, .cons hafter horder⟩
    rcases List.mem_cons.mp hn with rfl | hn
    · exact Nat.le_refl _
    · exact Nat.le_trans (Nat.le_add_right _ _) (hafter n hn)

end Token

/-- **Every leaf of a source has a genuine lexeme.** -/
theorem tokenize_genuine {source : String} {leaves : List Node} (h : tokenize source = .ok leaves) :
    ∀ n ∈ leaves, ∃ l : Lexeme, n.lexeme? = some l ∧ l.Genuine :=
  Token.scan_genuine 0 1 source.toList h

/-- **Leaves come in the order of the source.** -/
theorem tokenize_inOrder {source : String} {leaves : List Node} (h : tokenize source = .ok leaves) :
    Token.InOrder leaves :=
  Token.scan_inOrder 0 1 source.toList h

end Trivalent
