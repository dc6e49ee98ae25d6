import ShaderExpr.Main
import ShaderExpr.Proofs.Binary32.Significant
import ShaderExpr.Proofs.Block.Legality
import ShaderExpr.Proofs.Description.Evaluation
import ShaderExpr.Proofs.Description.Rendering
import ShaderExpr.Proofs.Description.Stepwise
import ShaderExpr.Proofs.Description.Transparency
import ShaderExpr.Proofs.Evaluator.Lanewise
import ShaderExpr.Proofs.Evaluator.Products
import ShaderExpr.Proofs.Evaluator.Reuse
import ShaderExpr.Proofs.Evaluator.UnusedLanes
import ShaderExpr.Proofs.Golden.Extraction
import ShaderExpr.Proofs.Grammar.Decrement
import ShaderExpr.Proofs.Literal.Orientation
import ShaderExpr.Proofs.Program.Hygiene
import ShaderExpr.Proofs.Program.Splitting
import ShaderExpr.Proofs.Render.Pointwise
import ShaderExpr.Proofs.Session.Transcript
