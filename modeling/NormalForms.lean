import NormalForms.Symbol
import NormalForms.Error
import NormalForms.Reach
import NormalForms.Ordered.Set
import NormalForms.Text.Pieces
import NormalForms.Json.Basic
import NormalForms.Json.Literal
import NormalForms.Json.Printer
import NormalForms.Json.Reader
import NormalForms.Grammar.Basic
import NormalForms.Grammar.WellFormed
import NormalForms.Grammar.Declared
import NormalForms.Grammar.Lines
import NormalForms.Grammar.Listing
import NormalForms.Grammar.Latex
import NormalForms.Grammar.Derivation
import NormalForms.Grammar.Saturation
import NormalForms.Grammar.Eliminations
import NormalForms.Grammar.Chomsky
import NormalForms.Grammar.Shaping
import NormalForms.Automaton.Basic
import NormalForms.Automaton.Description
import NormalForms.Automaton.Json
import NormalForms.Automaton.Run
import NormalForms.Automaton.Subset
import NormalForms.RightLinear
import NormalForms.Service
import NormalForms.Proofs.Reach
import NormalForms.Proofs.Pieces
import NormalForms.Proofs.LineBreaks
import NormalForms.Proofs.Literal
import NormalForms.Proofs.Reader
import NormalForms.Proofs.Productions
import NormalForms.Proofs.Checks
import NormalForms.Proofs.Updates
import NormalForms.Proofs.Fresh
import NormalForms.Proofs.FreshSearch
import NormalForms.Proofs.Guarantees
import NormalForms.Proofs.Derivation
import NormalForms.Proofs.Simulation
import NormalForms.Proofs.Saturation
import NormalForms.Proofs.EpsilonFree
import NormalForms.Proofs.FreshStart
import NormalForms.Proofs.Expansion
import NormalForms.Proofs.Deletions
import NormalForms.Proofs.RenamingFree
import NormalForms.Proofs.Useful
import NormalForms.Proofs.Trimmed
import NormalForms.Proofs.Naming
import NormalForms.Proofs.Shape
import NormalForms.Proofs.Shaping
import NormalForms.Proofs.ShapedWords
import NormalForms.Proofs.ChomskyForm
import NormalForms.Proofs.Fixpoint
import NormalForms.Proofs.Run
import NormalForms.Proofs.Path
import NormalForms.Proofs.Description
import NormalForms.Proofs.Assembly
import NormalForms.Proofs.Rearranged
import NormalForms.Proofs.StateKey
import NormalForms.Proofs.Subsets
import NormalForms.Proofs.Determinize
import NormalForms.Proofs.Worklist
import NormalForms.Proofs.RightLinear
import NormalForms.Proofs.StateGrammar
import NormalForms.Proofs.MoveAutomaton
import NormalForms.Proofs.StateAutomaton
import NormalForms.Proofs.ReachablePart
import NormalForms.Proofs.Built
import NormalForms.Proofs.Chomsky
import NormalForms.Proofs.DerivationLength
import NormalForms.Proofs.WordsKept
import NormalForms.Proofs.FormsKept
import NormalForms.Proofs.Idempotence
import NormalForms.Proofs.Rounds
import NormalForms.Proofs.SameAs
import NormalForms.Proofs.RenamingSearch
import NormalForms.Proofs.Renamed
import NormalForms.Proofs.ShapedForm
import NormalForms.Proofs.Links
import NormalForms.Proofs.Unfolding
import NormalForms.Proofs.ShapingRun
import NormalForms.Proofs.Lossless
import NormalForms.Proofs.Deterministic
import NormalForms.Proofs.Registry
import NormalForms.Proofs.Separation
import NormalForms.Proofs.Conversions
import NormalForms.Proofs.Eliminations
import NormalForms.Proofs.ClosureSearch
import NormalForms.Proofs.Acceptance
import NormalForms.Proofs.Redeterminize
import NormalForms.Proofs.Format
import NormalForms.Proofs.Listing
import NormalForms.Proofs.Lines
import NormalForms.Proofs.Reading
import NormalForms.Proofs.Plaintext
import NormalForms.Proofs.Redeclared
import NormalForms.Proofs.Table
import NormalForms.Proofs.Collecting
import NormalForms.Proofs.Blocks
import NormalForms.Proofs.Rereading
import NormalForms.Proofs.Relaid
import NormalForms.Proofs.DescriptionText
import NormalForms.Proofs.ListingText
import NormalForms.Proofs.Marks
import NormalForms.Proofs.Rows
import NormalForms.Proofs.EpsilonMacro
