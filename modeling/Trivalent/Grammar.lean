import Trivalent.Failure

/-!
# Grammar tables

A grammar maps frames, sequences of one to five symbols, to what they reduce to. This file fixes

* `Production` -- the result of a reduction: symbol, action, which symbols of the frame become the
  children, and whether the reduction declares a variable;
* `Rule` -- a frame with its production. That the frame has an admissible length and that the
  children lie inside it are part of the type, so every grammar has them;
* `Grammar.insert`, `Grammar.lookup` -- the table; a rule replaces an earlier one for its frame;
* `Grammar.find` -- where a sequence of symbols can be reduced: the widest frame, and among those
  the leftmost;
* `Grammar.standard` -- the grammar of the language.
-/

namespace Trivalent

/-! ## 1. Productions and rules -/

/-- What a frame reduces to. -/
structure Production where
  result : Symbol
  action : Action
  /-- Position of the left child in the frame. -/
  left : Nat
  /-- Position of the right child; the same position as the left one means that there is none. -/
  right : Nat
  /-- Whether the reduction declares a variable, so that its other occurrences are to be bound. -/
  declares : Bool := false
  deriving DecidableEq, Repr

/-- Whether the reduced node has a right child. -/
def Production.hasRight (p : Production) : Bool := p.left != p.right

/-- The longest frame a rule may have. -/
def maxFrame : Nat := 5

/-- A frame and its production. -/
structure Rule where
  frame : List Symbol
  production : Production
  frame_pos : 0 < frame.length := by simp
  frame_le : frame.length ≤ maxFrame := by simp [maxFrame]
  left_lt : production.left < frame.length := by simp
  right_lt : production.right < frame.length := by simp
  deriving DecidableEq

namespace Rule

/-- The rule with the given frame and production. The length of the frame is looked at first. -/
def make (frame : List Symbol) (production : Production) : Except Fault Rule :=
  if hlen : 0 < frame.length ∧ frame.length ≤ maxFrame then
    if hpos : production.left < frame.length ∧ production.right < frame.length then
      .ok ⟨frame, production, hlen.1, hlen.2, hpos.1, hpos.2⟩
    else .error (.childrenOutside production.left production.right frame)
  else .error (.frameLength frame)

end Rule

/-! ## 2. The table -/

/-- A table of rules, one for each frame. -/
structure Grammar where
  rules : List Rule := []

namespace Grammar

/-- Number of frames in the table. -/
def size (g : Grammar) : Nat := g.rules.length

/-- The production of a frame. -/
def lookup (g : Grammar) (frame : List Symbol) : Option Production :=
  (g.rules.find? (·.frame == frame)).map (·.production)

/-- Adds a rule in place of an earlier one for the same frame. -/
def insert (g : Grammar) (rule : Rule) : Grammar :=
  ⟨rule :: g.rules.filter (·.frame != rule.frame)⟩

/-- Adds the rule with the given frame and production. -/
def addRule (g : Grammar) (frame : List Symbol) (production : Production) :
    Except Fault Grammar := do
  return g.insert (← Rule.make frame production)

/-- The last rule inserted for a frame is the one that is found. -/
theorem lookup_insert (g : Grammar) (rule : Rule) (frame : List Symbol) :
    (g.insert rule).lookup frame
      = if rule.frame = frame then some rule.production else g.lookup frame := by
  unfold lookup insert
  by_cases h : rule.frame = frame
  · simp [h]
  · simp only [List.find?_cons, beq_eq_false_iff_ne.mpr h, h, if_false, List.find?_filter]
    congr 2
    funext r
    by_cases hr : r.frame = frame
    · have : r.frame ≠ rule.frame := fun e => h (e ▸ hr)
      simp [hr, Ne.symm h]
    · simp [hr]

/-! ## 3. Searching a sequence of symbols -/

/-- A window of a sequence that is a frame of the grammar. -/
structure Window where
  position : Nat
  width : Nat
  production : Production
  deriving DecidableEq, Repr

/-- The leftmost window of the given width that is a frame. -/
def findWidth (g : Grammar) (width : Nat) : List Symbol → Option (Nat × Production)
  | [] => none
  | s :: rest =>
    let frame := (s :: rest).take width
    match if frame.length = width then g.lookup frame else none with
    | some production => some (0, production)
    | none => (g.findWidth width rest).map fun (position, production) => (position + 1, production)

/-- The leftmost window of the greatest width at most `width` that is a frame. -/
def findUpTo (g : Grammar) (symbols : List Symbol) : Nat → Option Window
  | 0 => none
  | width + 1 =>
    match g.findWidth (width + 1) symbols with
    | some (position, production) => some ⟨position, width + 1, production⟩
    | none => g.findUpTo symbols width

/-- The widest window that is a frame, and among equally wide ones the leftmost. -/
def find (g : Grammar) (symbols : List Symbol) : Option Window := g.findUpTo symbols maxFrame

/-! ## 4. The grammar of the language -/

/-- The two symbols that can stand beside a connective. -/
def operands : List Symbol := [.operand, .valVar]

/-- A connective between two operands: an operand in parentheses, an expression without. -/
def connectiveRules (word : Symbol) (action : Action) (a b : Symbol) : List Rule :=
  [{ frame := [.openParen, a, word, b, .closeParen], production := ⟨.operand, action, 1, 3, false⟩ },
   { frame := [a, word, b], production := ⟨.expression, action, 0, 2, false⟩ }]

/-- The connectives with their actions. -/
def connectives : List (Symbol × Action) := [(.orWord, .disjoin), (.andWord, .conjoin)]

/-- The grammar of the language: blocks of statements, assignments, declarations, negation, the
connectives and parentheses. -/
def standard : Grammar where
  rules :=
    [{ frame := [.codeBlock, .codeBlock], production := ⟨.codeBlock, .both, 0, 1, false⟩ },
     { frame := [.statement], production := ⟨.codeBlock, .left, 0, 0, false⟩ },
     { frame := [.defWord, .valVar, .asWord, .expression, .semicolon],
       production := ⟨.statement, .assign, 1, 3, false⟩ },
     { frame := [.defWord, .valVar, .asWord, .valVar, .semicolon],
       production := ⟨.statement, .assign, 1, 3, false⟩ },
     { frame := [.valWord, .identifier], production := ⟨.valVar, .bind, 1, 1, true⟩ },
     { frame := [.notWord, .operand], production := ⟨.operand, .negate, 1, 1, false⟩ },
     { frame := [.notWord, .valVar], production := ⟨.operand, .negate, 1, 1, false⟩ },
     { frame := [.openParen, .valVar, .closeParen], production := ⟨.operand, .left, 1, 1, false⟩ },
     { frame := [.openParen, .operand, .closeParen], production := ⟨.operand, .left, 1, 1, false⟩ },
     { frame := [.operand], production := ⟨.expression, .left, 0, 0, false⟩ }]
    ++ connectives.flatMap fun (word, action) =>
         operands.flatMap fun a => operands.flatMap fun b => connectiveRules word action a b

end Grammar

end Trivalent
