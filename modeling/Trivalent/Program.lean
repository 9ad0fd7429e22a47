import Trivalent.Execution
import Trivalent.Reduction
import Trivalent.Token.Scan

/-!
# Programs

A source text is scanned, parsed and run.

* `Context.parseSource` -- the tree of a source text; the events of the parse go to the journal of
  the context;
* `Context.run` -- scans, parses and walks a source text in a context.
-/

namespace Trivalent

namespace Context

/-- Does a parse of its own, of which only the journal stays. -/
def withJournal {α : Type} (parse : Journal → EStateM.Result Failure Workspace α) :
    Work Context (α × Arena) := fun c =>
  match parse c.journal with
  | .ok a w => .ok (a, w.arena) { c with journal := w.journal }
  | .error e w => .error e { c with journal := w.journal }

/-- The leaves of a source text. -/
def scanSource {σ : Type} (source : String) : Work σ (List Node) :=
  match tokenize source with
  | .ok leaves => pure leaves
  | .error d => throw (.diagnostic d)

/-- The tree over the leaves of a program. -/
def parseTree (leaves : List Node) : Work Context Tree := do
  let (root, arena) ← withJournal (parse leaves)
  return ⟨arena, root⟩

/-- The tree of a source text. -/
def parseSource (source : String) : Work Context Tree := do
  parseTree (← scanSource source)

/-- Runs a source text. -/
def run (source : String) : Work Context Unit := do
  let tree ← parseSource source
  walk tree.arena tree.root

end Context

end Trivalent
