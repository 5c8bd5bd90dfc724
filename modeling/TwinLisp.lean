import TwinLisp.Arena
import TwinLisp.Interner
import TwinLisp.Main
import TwinLisp.Proofs.Agreement.StraightLine
import TwinLisp.Proofs.Arena.Reading
import TwinLisp.Proofs.Environment.Redefinition
import TwinLisp.Proofs.Environment.Snapshot
import TwinLisp.Proofs.Eval.Arithmetic
import TwinLisp.Proofs.Eval.CallerFrames
import TwinLisp.Proofs.Eval.Independence
import TwinLisp.Proofs.Eval.LoopLimit
import TwinLisp.Proofs.Eval.Rounds
import TwinLisp.Proofs.Graph.Denotation
import TwinLisp.Proofs.Graph.Draft
import TwinLisp.Proofs.Graph.Symbols
import TwinLisp.Proofs.Interner
import TwinLisp.Proofs.Lowering.Connected
import TwinLisp.Proofs.Lowering.Constants
import TwinLisp.Proofs.Lowering.Plan
import TwinLisp.Proofs.Lowering.Presolve
import TwinLisp.Proofs.Lowering.Stores
import TwinLisp.Proofs.Reader.Concatenation
import TwinLisp.Proofs.Reader.EndOfInput
import TwinLisp.Proofs.Reader.Exact
import TwinLisp.Proofs.Reader.Extension
import TwinLisp.Proofs.Reader.Quoting
import TwinLisp.Proofs.Reader.Spans
import TwinLisp.Proofs.Report.Location
import TwinLisp.Proofs.Verify.Definedness
import TwinLisp.Proofs.Verify.Typing
