import Unjump.Block
import Unjump.Construct.Arm
import Unjump.Construct.Composite
import Unjump.Construct.If
import Unjump.Construct.Jump
import Unjump.Construct.Loop
import Unjump.Construct.Plain
import Unjump.Construct.Switch
import Unjump.Construct.Test
import Unjump.Construct.Try
import Unjump.Descriptor
import Unjump.Dominators
import Unjump.Expr.Basic
import Unjump.Expr.Printer
import Unjump.Expr.Typing
import Unjump.Floating.Format
import Unjump.Floating.Printer
import Unjump.Floating.Reader
import Unjump.Flow
import Unjump.Graph.Basic
import Unjump.Graph.Build
import Unjump.Graph.Outline
import Unjump.Graph.Reach
import Unjump.Graph.Verify
import Unjump.IdSet
import Unjump.Listing
import Unjump.Marks
import Unjump.Method
import Unjump.Opcode
import Unjump.Operator
import Unjump.Options.Toml
import Unjump.Pool
import Unjump.Proofs.Acceptance
import Unjump.Proofs.Arm
import Unjump.Proofs.Assembly
import Unjump.Proofs.BackEdges
import Unjump.Proofs.Build
import Unjump.Proofs.Catching
import Unjump.Proofs.Chain
import Unjump.Proofs.Change
import Unjump.Proofs.Choosing
import Unjump.Proofs.Conservation
import Unjump.Proofs.ControlFlow
import Unjump.Proofs.Decision
import Unjump.Proofs.Descriptor
import Unjump.Proofs.Dispatch
import Unjump.Proofs.Dominance
import Unjump.Proofs.Dominators
import Unjump.Proofs.Duplication
import Unjump.Proofs.Edge
import Unjump.Proofs.Editing
import Unjump.Proofs.Ending
import Unjump.Proofs.Entrances
import Unjump.Proofs.Evaluation
import Unjump.Proofs.Exits
import Unjump.Proofs.Flow
import Unjump.Proofs.Grammar
import Unjump.Proofs.Grouping
import Unjump.Proofs.Handling
import Unjump.Proofs.Interning
import Unjump.Proofs.Kept
import Unjump.Proofs.Layout
import Unjump.Proofs.Links
import Unjump.Proofs.Literal
import Unjump.Proofs.Looping
import Unjump.Proofs.NaturalLoop
import Unjump.Proofs.Nesting
import Unjump.Proofs.Occurrence
import Unjump.Proofs.Outline
import Unjump.Proofs.Path
import Unjump.Proofs.Pending
import Unjump.Proofs.Placement
import Unjump.Proofs.Precedence
import Unjump.Proofs.Prepare
import Unjump.Proofs.Progress
import Unjump.Proofs.Reading
import Unjump.Proofs.Rewrite
import Unjump.Proofs.Rewrite.Choice
import Unjump.Proofs.Rewrite.Entry
import Unjump.Proofs.Rewrite.Loop
import Unjump.Proofs.Rewrite.LoopBody
import Unjump.Proofs.Rewrite.Nest
import Unjump.Proofs.Rewrite.Plain
import Unjump.Proofs.Rewrite.Switch
import Unjump.Proofs.Rewrite.Test
import Unjump.Proofs.Rewrite.Try
import Unjump.Proofs.Scope
import Unjump.Proofs.Shape
import Unjump.Proofs.SharedEntry
import Unjump.Proofs.Shuffling
import Unjump.Proofs.Validity
import Unjump.Proofs.Width
import Unjump.Rule
import Unjump.Run
import Unjump.Simulation
import Unjump.Structuring
import Unjump.Text.Lines
import Unjump.Text.Word
import Unjump.Validity
