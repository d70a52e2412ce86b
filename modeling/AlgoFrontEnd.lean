import AlgoFrontEnd.Main
import AlgoFrontEnd.Proofs.Command.Atomicity
import AlgoFrontEnd.Proofs.Compilation.Blanks
import AlgoFrontEnd.Proofs.Compilation.Diagnostics
import AlgoFrontEnd.Proofs.Compilation.Lines
import AlgoFrontEnd.Proofs.Compilation.Phases
import AlgoFrontEnd.Proofs.Compilation.Reading
import AlgoFrontEnd.Proofs.Frame.Tiling
import AlgoFrontEnd.Proofs.Grammar.Census
import AlgoFrontEnd.Proofs.Grammar.Completeness
import AlgoFrontEnd.Proofs.Grammar.Layout
import AlgoFrontEnd.Proofs.Grammar.Nesting
import AlgoFrontEnd.Proofs.Grammar.Soundness
import AlgoFrontEnd.Proofs.Grammar.Tally
import AlgoFrontEnd.Proofs.Report.Frames
import AlgoFrontEnd.Proofs.Resolution.Annotations
import AlgoFrontEnd.Proofs.Resolution.Arguments
import AlgoFrontEnd.Proofs.Resolution.Bodies
import AlgoFrontEnd.Proofs.Resolution.Definitions
import AlgoFrontEnd.Proofs.Resolution.Erasure
import AlgoFrontEnd.Proofs.Resolution.Insertion
import AlgoFrontEnd.Proofs.Resolution.Literals
import AlgoFrontEnd.Proofs.Resolution.Locals
import AlgoFrontEnd.Proofs.Resolution.Naming
import AlgoFrontEnd.Proofs.Resolution.Redeclaration
import AlgoFrontEnd.Proofs.Resolution.Stores
import AlgoFrontEnd.Proofs.Resolution.Typing
import AlgoFrontEnd.Proofs.Resolution.Uses
import AlgoFrontEnd.Proofs.Resolution.Variables
import AlgoFrontEnd.Proofs.Scope.Isolation
import AlgoFrontEnd.Proofs.Token.Refusals
import AlgoFrontEnd.Proofs.Token.Respelling
import AlgoFrontEnd.Proofs.Tree.Identity
import AlgoFrontEnd.Proofs.Tree.Printing
import AlgoFrontEnd.Proofs.Types.Knowledge
import AlgoFrontEnd.Scope.Forest
import AlgoFrontEnd.Tree.Preorder
