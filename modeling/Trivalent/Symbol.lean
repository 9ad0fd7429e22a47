/-!
# Grammar symbols and actions

The two closed vocabularies of the language:

* `Symbol` -- what a node is, for the grammar. Words and delimiters come from the lexer, the first
  five symbols arise by reduction. `operand` is both: the truth values enter as operands;
* `Action` -- what a node does, for the evaluator, which looks at nothing else once a tree is
  built.

Each has the name that tree dumps and diagnostics print (`name`, `tag`) and a `plainName` of
letters only, which faults about the grammar table print.
-/

namespace Trivalent

/-! ## 1. Symbols -/

/-- A grammar symbol. -/
inductive Symbol where
  /-- A sequence of statements. -/
  | codeBlock
  /-- One assignment. -/
  | statement
  /-- A declared or bound variable. -/
  | valVar
  /-- What may stand beside a connective. -/
  | operand
  /-- A right-hand side. -/
  | expression
  | defWord
  | asWord
  | andWord
  | orWord
  | notWord
  | valWord
  /-- A raw identifier that no declaration has bound yet. -/
  | identifier
  | openParen
  | closeParen
  | semicolon
  deriving DecidableEq, Repr, Inhabited

namespace Symbol

/-- Every symbol, in the order of declaration. -/
def all : List Symbol :=
  [codeBlock, statement, valVar, operand, expression, defWord, asWord, andWord, orWord, notWord,
    valWord, identifier, openParen, closeParen, semicolon]

/-- The list of symbols is complete. -/
theorem mem_all (s : Symbol) : s ∈ all := by cases s <;> decide

/-- The name written in the grammar table. -/
def name : Symbol → String
  | codeBlock => "CODE-BLOCK"
  | statement => "ASGN-STMT"
  | valVar => "VAL-VAR"
  | operand => "VAL-SUBEXPR"
  | expression => "VAL-EXPR"
  | defWord => "DEF"
  | asWord => "AS"
  | andWord => "AND"
  | orWord => "OR"
  | notWord => "NOT"
  | valWord => "VAL"
  | identifier => "ID"
  | openParen => "("
  | closeParen => ")"
  | semicolon => ";"

/-- The name spelled with letters only. -/
def plainName : Symbol → String
  | codeBlock => "CodeBlock"
  | statement => "AsgnStmt"
  | valVar => "ValVar"
  | operand => "ValSubexpr"
  | expression => "ValExpr"
  | defWord => "Def"
  | asWord => "As"
  | andWord => "And"
  | orWord => "Or"
  | notWord => "Not"
  | valWord => "Val"
  | identifier => "Id"
  | openParen => "LParen"
  | closeParen => "RParen"
  | semicolon => "Semicolon"

/-- The names of a sequence of symbols, one blank between neighbours. -/
def joinNames (symbols : List Symbol) : String := " ".intercalate (symbols.map name)

end Symbol

/-! ## 2. Actions -/

/-- What evaluation does at a node. -/
inductive Action where
  /-- Nothing: words and delimiters. -/
  | inert
  /-- Walk the left child, then the right one. -/
  | both
  /-- Walk or evaluate the left child only. -/
  | left
  /-- Walk the right child only. -/
  | right
  /-- Evaluate the right child and bind it to the variable on the left. -/
  | assign
  /-- Declare a variable. -/
  | bind
  /-- The truth value `T`. -/
  | makeTrue
  /-- The truth value `F`. -/
  | makeFalse
  /-- The truth value `U`: a fresh unsure atom. -/
  | makeUnsure
  /-- Negation of the left child. -/
  | negate
  /-- Disjunction of both children. -/
  | disjoin
  /-- Conjunction of both children. -/
  | conjoin
  deriving DecidableEq, Repr

namespace Action

/-- A node does nothing unless it is told to. -/
instance : Inhabited Action := ⟨inert⟩

/-- Every action, in the order of declaration. -/
def all : List Action :=
  [inert, both, left, right, assign, bind, makeTrue, makeFalse, makeUnsure, negate, disjoin,
    conjoin]

/-- The short tag that tree dumps and diagnostics show; inert nodes show none. -/
def tag : Action → String
  | inert => ""
  | both => "BOTH"
  | left => "LEFT"
  | right => "RIGHT"
  | assign => "assign"
  | bind => "bind"
  | makeTrue => "true"
  | makeFalse => "false"
  | makeUnsure => "unsure"
  | negate => "not"
  | disjoin => "or"
  | conjoin => "and"

/-- The name spelled with letters only. -/
def plainName : Action → String
  | inert => "None"
  | both => "Both"
  | left => "Left"
  | right => "Right"
  | assign => "Assign"
  | bind => "BindIdentifier"
  | makeTrue => "BuildTrue"
  | makeFalse => "BuildFalse"
  | makeUnsure => "BuildUnsure"
  | negate => "BuildNot"
  | disjoin => "BuildOr"
  | conjoin => "BuildAnd"

end Action

end Trivalent
