import Trivalent.Span
import Trivalent.Symbol

/-!
# Failures

Two kinds of thing can go wrong, and they are kept apart.

* A `Diagnostic` is about the program text: what is wrong (`Problem`), on which line, and where.
  It has a message, a code, sometimes a piece of advice, and a label for the place it points at.
* A `Fault` is about the request: a node that does not exist, a rule that is no rule, a number
  that outgrows the machine word. It says nothing about the program text.

`Failure` is either, and `Work σ α` is a computation over a state `σ` that may fail. The state
reached so far is kept on failure as well: what was done before stays done.
-/

namespace Trivalent

/-! ## 1. Diagnostics -/

/-- One of the two children of a node. -/
inductive Side where
  | left
  | right
  deriving DecidableEq, Repr

/-- The word for a side. -/
def Side.word : Side → String
  | .left => "left"
  | .right => "right"

/-- What is wrong with a program. -/
inductive Problem where
  /-- A word that starts like an identifier has characters that identifiers may not have. -/
  | invalidIdentifier (text : String)
  /-- Characters that form no token at all. -/
  | invalidLiteral (text : String)
  /-- Reduction stopped with more than one symbol left. -/
  | irreducible (remaining : List Symbol)
  /-- There are no tokens. -/
  | unexpectedEnd
  /-- A variable is read before it has a value. -/
  | unknownVariable (name : String)
  /-- The left side of an assignment is not a variable. -/
  | notAssignable (symbol : Symbol)
  /-- A variable node has no identifier below it. -/
  | nameless (symbol : Symbol)
  /-- Evaluation reached a node whose action has no meaning there. -/
  | unexpectedAction (symbol : Symbol) (action : Action)
  /-- An action needs a child that the node does not have. -/
  | missingChild (symbol : Symbol) (side : Side)
  /-- Nesting goes deeper than allowed. -/
  | depthLimit (limit : Nat)
  /-- One more unsure atom than allowed. -/
  | unsureLimit (limit : Nat)
  deriving DecidableEq, Repr

/-- A problem with the line and the place it is reported at. An empty program has no place. -/
structure Diagnostic where
  problem : Problem
  span : Option Span
  line : Nat
  deriving DecidableEq, Repr

namespace Problem

/-- What is wrong, in words. Only problems found in the text itself name the place. -/
def description (span : Span) : Problem → String
  | invalidIdentifier text =>
    "The characters \"" ++ text ++ "\" from position " ++ toString span.start ++ " to "
      ++ toString span.stop ++ " do not form a valid identifier."
  | invalidLiteral text =>
    "The characters \"" ++ text ++ "\" from position " ++ toString span.start ++ " to "
      ++ toString span.stop ++ " do not form a valid keyword, identifier, or literal."
  | irreducible remaining =>
    "This collection of tokens cannot be parsed: " ++ Symbol.joinNames remaining ++ "."
  | unexpectedEnd => "Unexpected end of input."
  | unknownVariable name => "'" ++ name ++ "' is not a valid val variable."
  | notAssignable symbol => "Type mismatch: cannot assign a val to " ++ symbol.name ++ "."
  | nameless symbol => "Type mismatch: " ++ symbol.name ++ " does not name a variable."
  | unexpectedAction symbol action =>
    symbol.name ++ " cannot perform action '" ++ action.tag ++ "' here."
  | missingChild symbol side => symbol.name ++ " is missing its " ++ side.word ++ " child."
  | depthLimit limit => "Expression nesting exceeds the limit of " ++ toString limit ++ "."
  | unsureLimit limit => "More than " ++ toString limit ++ " unsure values in one program."

/-- The stable code of a problem. -/
def code : Problem → String
  | invalidIdentifier _ => "lej::lex::invalid_identifier"
  | invalidLiteral _ => "lej::lex::invalid_literal"
  | irreducible _ => "lej::parse::irreducible"
  | unexpectedEnd => "lej::parse::empty"
  | unknownVariable _ => "lej::eval::unknown_variable"
  | notAssignable _ => "lej::eval::type_mismatch"
  | nameless _ => "lej::eval::type_mismatch"
  | unexpectedAction _ _ => "lej::eval::unexpected_action"
  | missingChild _ _ => "lej::eval::missing_child"
  | depthLimit _ => "lej::eval::depth_limit"
  | unsureLimit _ => "lej::eval::unsure_limit"

/-- A piece of advice, where there is one to give. -/
def help : Problem → Option String
  | invalidIdentifier _ =>
    some ("An identifier starts with a lowercase ASCII letter and continues with ASCII letters "
      ++ "or digits.")
  | invalidLiteral _ => some "Truth values are written `T`, `U` and `F`."
  | unknownVariable _ => some "Declare it first with `def val <name> as ...;`."
  | depthLimit _ => some "Raise the limit with `--max-depth`."
  | unsureLimit _ => some "Every `U` doubles the size of the next one's truth table."
  | _ => none

/-- The words set beside the place a problem points at. -/
def label : Problem → String
  | invalidIdentifier _ => "not an identifier"
  | invalidLiteral _ => "unrecognized"
  | irreducible _ => "could not be reduced"
  | unexpectedEnd => ""
  | unknownVariable _ => "used here"
  | notAssignable _ => "here"
  | nameless _ => "here"
  | unexpectedAction _ _ => "this node"
  | missingChild _ _ => "this node"
  | depthLimit _ => "too deep"
  | unsureLimit _ => "one too many"

end Problem

namespace Diagnostic

/-- The full message: the line first, then what is wrong. -/
def message (d : Diagnostic) : String :=
  "Error on line " ++ toString d.line ++ ": " ++ d.problem.description (d.span.getD {})

/-- The labelled places: a label, its offset and its length. A diagnostic without a place has
none. -/
def labels (d : Diagnostic) : List (String × Nat × Nat) :=
  match d.span with
  | some span => [(d.problem.label, span.start, span.length)]
  | none => []

end Diagnostic

/-! ## 2. Faults -/

/-- A request that cannot be carried out. -/
inductive Fault where
  /-- A position beyond the end of a sequence. -/
  | outOfRange (size index : Nat)
  /-- The number of an unsure atom is larger than the machine word is wide. -/
  | shiftOverflow
  /-- A truth table is larger than any memory. -/
  | tableOverflow
  /-- The nesting depth outgrows the machine word. -/
  | depthOverflow
  /-- A rule whose frame is empty or too long. -/
  | frameLength (frame : List Symbol)
  /-- A rule that takes its children from outside its frame. -/
  | childrenOutside (left right : Nat) (frame : List Symbol)
  /-- The request would run forever. -/
  | endless
  deriving DecidableEq, Repr

namespace Fault

/-- A frame as faults print it. -/
def frameText (frame : List Symbol) : String :=
  "[" ++ ", ".intercalate (frame.map Symbol.plainName) ++ "]"

/-- The fault in words. -/
def message : Fault → String
  | outOfRange size index =>
    "index out of bounds: the len is " ++ toString size ++ " but the index is " ++ toString index
  | shiftOverflow => "attempt to shift left with overflow"
  | tableOverflow => "capacity overflow"
  | depthOverflow => "attempt to add with overflow"
  | frameLength frame => "frame " ++ frameText frame ++ " must hold between 1 and 5 symbols"
  | childrenOutside left right frame =>
    "children (" ++ toString left ++ ", " ++ toString right ++ ") fall outside frame "
      ++ frameText frame
  | endless => "the request has no end"

end Fault

/-! ## 3. Computations that may fail -/

/-- Either kind of failure. -/
inductive Failure where
  | diagnostic (d : Diagnostic)
  | fault (f : Fault)
  deriving DecidableEq, Repr

/-- A computation over a state `σ` that may fail; the state it reached is kept either way. -/
abbrev Work (σ : Type) := EStateM Failure σ

/-- Fails with a diagnostic that points at a place. -/
def Work.report {σ α : Type} (problem : Problem) (span : Span) (line : Nat) : Work σ α :=
  throw (.diagnostic ⟨problem, some span, line⟩)

/-- Fails with a fault. -/
def Work.refuse {σ α : Type} (fault : Fault) : Work σ α :=
  throw (.fault fault)

/-- The largest number a machine word of 64 bits holds. Depths and limits never exceed it. -/
def maxWord : Nat := 18446744073709551615

end Trivalent
