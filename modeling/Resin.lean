import Resin.Main
import Resin.Tree.Equality
import Resin.Proofs.Grammar.Program
import Resin.Proofs.Print.RoundTrip
import Resin.Proofs.Script.WellFormed
import Resin.Proofs.Scan.Stmt
import Resin.Proofs.Script.Layout
import Resin.Proofs.Script.Concat
import Resin.Proofs.Grammar.Slices
import Resin.Proofs.JavaScript.Structure
import Resin.Proofs.Grammar.Nesting
import Resin.Proofs.Script.Features
import Resin.Proofs.Script.Bindings
import Resin.Proofs.Script.RegionSources
import Resin.Proofs.Token.Lexing
import Resin.Proofs.Script.Interpolation
import Resin.Proofs.Parse.ErrorSpans
import Resin.Proofs.Script.ErrorSpans
import Resin.Proofs.Parse.Fork
import Resin.Proofs.Parse.ForkExpr
import Resin.Proofs.Parse.ForkStmt
import Resin.Proofs.Parse.ViablePrefix
import Resin.Proofs.Token.Tiling
import Resin.Proofs.Grammar.Precedence
import Resin.Proofs.JavaScript.Literal
import Resin.Proofs.JavaScript.Quoting
import Resin.Proofs.Script.Partition
import Resin.Proofs.Script.BareCalls
import Resin.Proofs.Scan.Operand
import Resin.Proofs.JavaScript.Progression
import Resin.Proofs.Script.RangeLoop
import Resin.Proofs.Script.Filling
import Resin.Proofs.Script.SliceNotation
import Resin.Proofs.Number.Overflow
import Resin.Proofs.Scan.Words
import Resin.Proofs.Script.Capture
import Resin.Proofs.Script.Frames
import Resin.Proofs.Script.Vocabulary
import Resin.Proofs.Parse.Coherence
