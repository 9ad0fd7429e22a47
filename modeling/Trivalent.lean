import Trivalent.Arena
import Trivalent.Arena.Render
import Trivalent.Binding
import Trivalent.Command
import Trivalent.Command.Arguments
import Trivalent.Command.Verbosity
import Trivalent.Evaluation
import Trivalent.Execution
import Trivalent.Failure
import Trivalent.Grammar
import Trivalent.Journal
import Trivalent.Main
import Trivalent.Pattern
import Trivalent.Pattern.Bracket
import Trivalent.Pattern.Bytes
import Trivalent.Pattern.CharSet
import Trivalent.Pattern.Cursor
import Trivalent.Pattern.Escape
import Trivalent.Pattern.Needles
import Trivalent.Pattern.Reader
import Trivalent.Pattern.Size
import Trivalent.Pattern.States
import Trivalent.Program
import Trivalent.Reduction
import Trivalent.Span
import Trivalent.Store
import Trivalent.Symbol
import Trivalent.Text
import Trivalent.Text.Alphabetic
import Trivalent.Token
import Trivalent.Token.Scan
import Trivalent.Value
import Trivalent.Proofs.Derivation
import Trivalent.Proofs.Grammar.Search
import Trivalent.Proofs.Value.Reading
import Trivalent.Proofs.Reduction.Run
import Trivalent.Proofs.Reduction.Termination
import Trivalent.Proofs.Grammar.Standard
import Trivalent.Proofs.Parse.Shape
import Trivalent.Proofs.Parse.Reading
import Trivalent.Proofs.Parse.Cut
import Trivalent.Proofs.Parse.Surroundings
import Trivalent.Proofs.Parse.Completeness
import Trivalent.Proofs.Evaluation.Tree
import Trivalent.Proofs.Evaluation.Meaning
import Trivalent.Proofs.Reduction.Acyclic
import Trivalent.Proofs.Evaluation.Success
import Trivalent.Proofs.Parse.Declarations
import Trivalent.Proofs.Token.Concatenation
import Trivalent.Proofs.Reduction.Determinism
import Trivalent.Proofs.Parse.Concatenation
import Trivalent.Proofs.Evaluation.Concatenation
import Trivalent.Proofs.Reduction.Growth
import Trivalent.Proofs.Evaluation.Session
import Trivalent.Proofs.Reduction.Forest
import Trivalent.Proofs.Places
import Trivalent.Proofs.Evaluation.Safety
import Trivalent.Proofs.Value.Algebra
import Trivalent.Proofs.Evaluation.Interruption
import Trivalent.Proofs.Store.Order
import Trivalent.Proofs.Work.Parallel
import Trivalent.Proofs.Parse.Renaming
import Trivalent.Proofs.Evaluation.Renaming
import Trivalent.Proofs.Text.Order
import Trivalent.Proofs.Command.Agreement
import Trivalent.Proofs.Value.Padding
import Trivalent.Proofs.Evaluation.Kleene
import Trivalent.Proofs.Evaluation.Recursion
import Trivalent.Proofs.Parse.Spine
import Trivalent.Proofs.Token.Piece
import Trivalent.Proofs.Token.Tiling
import Trivalent.Proofs.Token.Spacing
import Trivalent.Proofs.Reduction.Covering
import Trivalent.Proofs.Arena.Preorder
import Trivalent.Proofs.Value.Normal
import Trivalent.Proofs.Reduction.Binding
import Trivalent.Proofs.Grammar.History
import Trivalent.Proofs.Reduction.Endless
import Trivalent.Proofs.Reduction.Outcome
import Trivalent.Proofs.Grammar.Spelling
