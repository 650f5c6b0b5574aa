import Shader.ValueType
import Shader.Scopes
import Shader.Token.Stream
import Shader.Tree.Outline
import Shader.Tree.Document
import Shader.Tree.Walk
import Shader.Grammar.Program
import Shader.Ir.Builder
import Shader.Lowering.Program
import Shader.Main
import Shader.Proofs.Ir.Growth
import Shader.Proofs.Ir.Typing
import Shader.Proofs.Ir.WellFormed
import Shader.Proofs.Grammar.Names
import Shader.Proofs.Ir.Dominance
import Shader.Proofs.Ir.Pruning
import Shader.Proofs.Lowering.Bodies
import Shader.Proofs.Lowering.Programs
import Shader.Proofs.Lowering.Soundness
import Shader.Proofs.Semantics.Statements
import Shader.Proofs.Grammar.Acceptance
import Shader.Proofs.Grammar.Backtracking
import Shader.Proofs.Grammar.Completeness
import Shader.Proofs.Ir.Dumping
import Shader.Proofs.Lowering.Dumps
import Shader.Proofs.Lowering.Failures
import Shader.Proofs.Semantics.Control
import Shader.Proofs.Semantics.Functions
import Shader.Proofs.Lowering.Frames
import Shader.Proofs.Lowering.Naming
import Shader.Proofs.Lowering.Rounds
import Shader.Proofs.Lowering.Recovery
import Shader.Proofs.Grammar.Occurrences
import Shader.Proofs.Lowering.Notes
import Shader.Proofs.Lowering.ExprTypes
import Shader.Proofs.Lowering.Parts
import Shader.Proofs.Text.Decoding
import Shader.Proofs.Grammar.Relexing
import Shader.Proofs.Grammar.Renderings
import Shader.Proofs.Grammar.Legibility
import Shader.Proofs.Grammar.Reparsing
import Shader.Proofs.Lowering.Strictness
import Shader.Proofs.Lowering.Independence
import Shader.Proofs.Command.Output
import Shader.Proofs.Grammar.Rejection
import Shader.Proofs.Ir.Remainder
import Shader.Proofs.Text.Places
import Shader.Proofs.Token.Gaps
import Shader.Proofs.Token.Pieces
import Shader.Proofs.Token.Tiling
import Shader.Proofs.Grammar.Composition
import Shader.Proofs.Grammar.FrontEnd
import Shader.Proofs.Scopes.Tables
import Shader.Proofs.Lowering.Prologue
import Shader.Proofs.Rooms.Constants
import Shader.Proofs.Grammar.Precedence
import Shader.Proofs.Execution.Construction
import Shader.Proofs.Execution.Matrices
import Shader.Proofs.Execution.Regions
import Shader.Proofs.Execution.Components
import Shader.Proofs.Execution.Booleans
import Shader.Proofs.DataType.Blocks
import Shader.Proofs.Token.Numerals
import Shader.Proofs.Lowering.Numerals
import Shader.Proofs.Token.Rescanning
import Shader.Proofs.Grammar.Traversal
import Shader.Proofs.Lowering.Layouts
import Shader.Proofs.Lowering.Guarded
import Shader.Proofs.Lowering.Locals
import Shader.Proofs.Lowering.Returns
import Shader.Proofs.Ir.Placement
