import Trivalent.Evaluation

/-!
# Command-line arguments

The arguments are read from left to right. Flags may stand before or after the program text, short
flags may be written together, and after `--` everything is text. The first thing that is wrong
ends the reading, and so does a question for the version or for help.

* `Arguments` -- what a run needs to know;
* `Flag`, `Setting` -- what can be written, with and without a value;
* `Draft` -- what has been read so far;
* `Arguments.read` -- the arguments of a command line, or why there are none.
-/

namespace Trivalent

/-- What a run needs to know. -/
structure Arguments where
  /-- The program is in a file, and the text is its path. -/
  file : Bool := false
  /-- Print every binding after the run. -/
  printStore : Bool := false
  /-- Print the leaves of the program. -/
  tokens : Bool := false
  /-- Print the tree of the program. -/
  tree : Bool := false
  limits : Limits := {}
  /-- How often more detail was asked for. -/
  verbosity : Nat := 0
  contents : String
  deriving DecidableEq, Repr

/-- Why a command line asks for no run. -/
inductive Arguments.Stop where
  /-- It cannot be read. -/
  | usage
  /-- It asks for the version. -/
  | version
  /-- It asks for help. -/
  | help
  deriving DecidableEq, Repr

/-! ## 1. What can be written -/

/-- An option without a value. -/
inductive Flag where
  | file
  | printStore
  | tokens
  | tree
  | verbose
  | version
  | help
  deriving DecidableEq, Repr

/-- The flag with a long name. -/
def Flag.ofName? : String → Option Flag
  | "file" => some .file
  | "print-store" => some .printStore
  | "tokens" => some .tokens
  | "tree" => some .tree
  | "verbose" => some .verbose
  | "version" => some .version
  | "help" => some .help
  | _ => none

/-- The flag with a short name. -/
def Flag.ofLetter? : Char → Option Flag
  | 'f' => some .file
  | 'p' => some .printStore
  | 'v' => some .verbose
  | 'V' => some .version
  | 'h' => some .help
  | _ => none

/-- An option with a number for its value. -/
inductive Setting where
  | maxDepth
  | maxUnsure
  deriving DecidableEq, Repr

/-- The setting with a long name; settings have no short ones. -/
def Setting.ofName? : String → Option Setting
  | "max-depth" => some .maxDepth
  | "max-unsure" => some .maxUnsure
  | _ => none

/-- A decimal number that fits a machine word. A plus sign may stand before it. -/
def readWord? (text : String) : Option Nat :=
  let digits := match text.toList with
    | '+' :: digits => digits
    | digits => digits
  if !digits.isEmpty && digits.all Char.isDigit then
    let value := digits.foldl (fun value c => 10 * value + (c.toNat - '0'.toNat)) 0
    if value ≤ maxWord then some value else none
  else none

/-- How an argument is to be understood. -/
inductive Written where
  /-- Two dashes and a name, and what follows an equals sign. -/
  | long (name : String) (value : Option String)
  /-- One dash and letters. -/
  | short (letters : List Char)
  /-- Anything else; a lone dash is text as well. -/
  | text
  deriving DecidableEq, Repr

/-- Understands an argument by its dashes. -/
def Written.ofArgument (argument : String) : Written :=
  match argument.toList with
  | '-' :: '-' :: rest =>
    let name := rest.takeWhile (· != '=')
    match rest.drop name.length with
    | [] => .long (String.ofList name) none
    | _ :: value => .long (String.ofList name) (some (String.ofList value))
  | '-' :: c :: rest => .short (c :: rest)
  | _ => .text

/-! ## 2. Reading -/

/-- What has been read so far. -/
structure Draft where
  file : Bool := false
  printStore : Bool := false
  tokens : Bool := false
  tree : Bool := false
  maxDepth : Option Nat := none
  maxUnsure : Option Nat := none
  verbosity : Nat := 0
  contents : Option String := none
  deriving DecidableEq, Repr

namespace Draft

open Arguments (Stop)

/-- Reads a flag. All but one may be written once only. -/
def flag (d : Draft) : Flag → Except Stop Draft
  | .file => if d.file then .error .usage else .ok { d with file := true }
  | .printStore => if d.printStore then .error .usage else .ok { d with printStore := true }
  | .tokens => if d.tokens then .error .usage else .ok { d with tokens := true }
  | .tree => if d.tree then .error .usage else .ok { d with tree := true }
  | .verbose => .ok { d with verbosity := d.verbosity + 1 }
  | .version => .error .version
  | .help => .error .help

/-- Reads a short flag. -/
def letter (d : Draft) (c : Char) : Except Stop Draft :=
  match Flag.ofLetter? c with
  | some flag => d.flag flag
  | none => .error .usage

/-- Reads a setting, which may be written once only. -/
def setting (d : Draft) (setting : Setting) (text : String) : Except Stop Draft :=
  match readWord? text, setting with
  | none, _ => .error .usage
  | some value, .maxDepth =>
    if d.maxDepth.isSome then .error .usage else .ok { d with maxDepth := some value }
  | some value, .maxUnsure =>
    if d.maxUnsure.isSome then .error .usage else .ok { d with maxUnsure := some value }

/-- Reads the program text, of which there is one. -/
def text (d : Draft) (contents : String) : Except Stop Draft :=
  if d.contents.isSome then .error .usage else .ok { d with contents := some contents }

/-- Reads a long name without a setting's value. -/
def longFlag (d : Draft) (name : String) (value : Option String) : Except Stop Draft :=
  match Flag.ofName? name, value with
  | some flag, none => d.flag flag
  | _, _ => .error .usage

/-- Reads all arguments. A setting takes the argument after it for its value, unless that argument
looks like an option. -/
def arguments : Draft → List String → Except Stop Draft
  | d, [] => .ok d
  | d, "--" :: rest => rest.foldlM text d
  | d, argument :: rest =>
    match Written.ofArgument argument with
    | .text => do arguments (← d.text argument) rest
    | .short letters => do arguments (← letters.foldlM letter d) rest
    | .long name value =>
      match Setting.ofName? name, value, rest with
      | none, value, rest => do arguments (← d.longFlag name value) rest
      | some setting, some value, rest => do arguments (← d.setting setting value) rest
      | some _, none, [] => .error .usage
      | some setting, none, value :: rest =>
        match Written.ofArgument value with
        | .text => do arguments (← d.setting setting value) rest
        | _ => .error .usage

end Draft

/-- The arguments of a command line. The program text is required. -/
def Arguments.read (args : List String) : Except Stop Arguments := do
  let d ← Draft.arguments {} args
  let defaults : Limits := {}
  match d.contents with
  | none => .error .usage
  | some contents =>
    return { file := d.file, printStore := d.printStore, tokens := d.tokens, tree := d.tree,
             limits := ⟨d.maxDepth.getD defaults.maxDepth, d.maxUnsure.getD defaults.maxUnsure⟩,
             verbosity := d.verbosity, contents }

end Trivalent
