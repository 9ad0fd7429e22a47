import Trivalent.Arena.Render
import Trivalent.Command.Arguments
import Trivalent.Command.Verbosity
import Trivalent.Program

/-!
# The command

What the command-line program does, as a function of its arguments, the log specification and the
files it can read.

* `Console` -- a context together with what has been printed so far;
* `Console.execute` -- scans, parses and runs a script, and prints the leaves, the tree and the
  bindings where they are asked for, each as soon as it is known. What is printed before a failure
  stays printed;
* `Report` -- exit status, output, log, and how the run failed if it did;
* `Command.run` -- the whole command.
-/

namespace Trivalent

/-! ## 1. Printing -/

/-- One line of the list of leaves. -/
def Node.tokenLine (n : Node) : String :=
  n.symbol.name ++ " \"" ++ n.literal?.getD "" ++ "\" @" ++ n.span.text ++ "\n"

/-- One line of the list of bindings. -/
def Bindings.line : String × Value → String
  | (name, value) => name ++ " = " ++ value.text ++ "\n"

/-- A context and what has been printed so far. -/
structure Console where
  context : Context := {}
  output : String := ""
  deriving DecidableEq, Repr

namespace Console

/-- Prints a text. -/
def print (text : String) : Work Console Unit :=
  modify fun c => { c with output := c.output ++ text }

/-- Prints a text if it is asked for. -/
def printIf (asked : Bool) (text : Unit → String) : Work Console Unit :=
  if asked then print (text ()) else pure ()

/-- Works in the context. -/
def inContext {α : Type} (work : Work Context α) : Work Console α := fun c =>
  match work.run c.context with
  | .ok a context => .ok a { c with context }
  | .error e context => .error e { c with context }

/-- The dump of a tree. -/
def dump {σ : Type} (tree : Tree) : Work σ String :=
  match tree.arena.render tree.root with
  | .ok text => pure text
  | .error fault => Work.refuse fault

/-- Runs a script. -/
def execute (a : Arguments) (script : String) : Work Console Unit := do
  let leaves ← Context.scanSource script
  printIf a.tokens fun _ => String.join (leaves.map Node.tokenLine)
  let tree ← inContext (Context.parseTree leaves)
  if a.tree then print (← dump tree)
  inContext (Context.walk tree.arena tree.root)
  let bindings := (← get).context.store.bindings
  printIf a.printStore fun _ => String.join (bindings.map Bindings.line)

end Console

/-! ## 2. Reports -/

/-- What a command did. -/
structure Report where
  /-- Exit status. -/
  status : Nat
  /-- Standard output. -/
  output : String := ""
  events : Array Event := #[]
  /-- What was wrong with the program. -/
  diagnostic : Option Diagnostic := none
  /-- The last line on standard error. -/
  closing : Option String := none
  deriving DecidableEq, Repr

/-- Why a file cannot be read. -/
inductive ReadError where
  | notFound
  | isDirectory
  /-- A part of the path that would have to be a directory is a file. -/
  | notDirectory
  | nameTooLong
  /-- The file is not valid UTF-8. -/
  | notText
  | other (reason : String)
  deriving DecidableEq, Repr

/-- The reason in words. -/
def ReadError.message : ReadError → String
  | notFound => "No such file or directory (os error 2)"
  | isDirectory => "Is a directory (os error 21)"
  | notDirectory => "Not a directory (os error 20)"
  | nameTooLong => "File name too long (os error 36)"
  | notText => "stream did not contain valid UTF-8"
  | other reason => reason

namespace Command

/-- Name and version of the program. -/
def versionLine : String := "lej 0.1.0\n"

/-- How the program is used. -/
def helpText : String :=
  "lej evaluates the three-valued logic subset of the Lej language\n\n"
    ++ "Usage: lej [OPTIONS] <CONTENTS>\n\n"
    ++ "Options:\n"
    ++ "  -f, --file                     Read <CONTENTS> as the path of a program\n"
    ++ "  -p, --print-store              Print every binding once the program has run\n"
    ++ "      --tokens                   Print the leaves of the program\n"
    ++ "      --tree                     Print the tree of the program\n"
    ++ "      --max-depth <MAX_DEPTH>    Deepest nesting that is evaluated [default: 256]\n"
    ++ "      --max-unsure <MAX_UNSURE>  Most unsure atoms of a program [default: 20]\n"
    ++ "  -v, --verbose...               Show more of what happens\n"
    ++ "  -h, --help                     Print help\n"
    ++ "  -V, --version                  Print version\n"

/-- The script that the arguments name: the text itself, or what the file with that path holds. -/
def script (a : Arguments) (read : String → Except ReadError ByteArray) :
    Except ReadError String :=
  if a.file then do
    match String.fromUTF8? (← read a.contents) with
    | some text => .ok text
    | none => .error .notText
  else .ok a.contents

/-- The report on a finished run. -/
def reportOn : EStateM.Result Failure Console Unit → Report
  | .ok _ c => { status := 0, output := c.output, events := c.context.journal.events }
  | .error (.diagnostic d) c =>
    { status := 1, output := c.output, events := c.context.journal.events, diagnostic := some d,
      closing := some "This Lej program has terminated." }
  | .error (.fault _) c =>
    { status := 101, output := c.output, events := c.context.journal.events }

/-- Which events are shown. -/
def filter (a : Arguments) (spec : Option String) : Filter :=
  (Filter.ofVerbosity a.verbosity).followSpec (spec.getD "")

/-- Runs a script as the arguments ask for it. -/
def runScript (a : Arguments) (spec : Option String) (text : String) : Report :=
  reportOn ((Console.execute a text).run
    { context := { limits := a.limits, journal := { filter := filter a spec } } })

/-- The whole command, given its arguments, the log specification and the files it can read. -/
def run (args : List String) (spec : Option String)
    (read : String → Except ReadError ByteArray) : Report :=
  match Arguments.read args with
  | .error .usage => { status := 2 }
  | .error .version => { status := 0, output := versionLine }
  | .error .help => { status := 0, output := helpText }
  | .ok a =>
    match script a read with
    | .ok text => runScript a spec text
    | .error e =>
      { status := 1,
        closing := some ("Failed to read the input file '" ++ a.contents ++ "': " ++ e.message) }

end Command

end Trivalent
