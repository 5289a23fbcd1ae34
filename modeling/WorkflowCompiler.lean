import WorkflowCompiler.Block.Basic
import WorkflowCompiler.Block.Describe
import WorkflowCompiler.Catalogue.Describe
import WorkflowCompiler.Catalogue.Field
import WorkflowCompiler.Catalogue.Port
import WorkflowCompiler.Code.Basic
import WorkflowCompiler.CommandLine.Arguments
import WorkflowCompiler.CommandLine.Options
import WorkflowCompiler.CommandLine.Run
import WorkflowCompiler.Compilation
import WorkflowCompiler.Decimal.Binary64
import WorkflowCompiler.Decimal.Shortest
import WorkflowCompiler.Diagnostic
import WorkflowCompiler.Document.Load
import WorkflowCompiler.Document.Schema
import WorkflowCompiler.Emission.Basic
import WorkflowCompiler.Emission.Progress
import WorkflowCompiler.Emission.Reference
import WorkflowCompiler.Fault
import WorkflowCompiler.Graph.Basic
import WorkflowCompiler.Graph.Components
import WorkflowCompiler.Identifier.Basic
import WorkflowCompiler.Json.Reader
import WorkflowCompiler.Json.Writer
import WorkflowCompiler.Log
import WorkflowCompiler.Main
import WorkflowCompiler.NodeKind
import WorkflowCompiler.Profile.Basic
import WorkflowCompiler.Profile.Read
import WorkflowCompiler.Profile.Target
import WorkflowCompiler.Proofs.Block.Canonical
import WorkflowCompiler.Proofs.Block.Form
import WorkflowCompiler.Proofs.Block.Occurrence
import WorkflowCompiler.Proofs.Block.Outline
import WorkflowCompiler.Proofs.Block.Placement
import WorkflowCompiler.Proofs.Block.Preorder
import WorkflowCompiler.Proofs.Block.Subject
import WorkflowCompiler.Proofs.Block.Unfolding
import WorkflowCompiler.Proofs.Block.Within
import WorkflowCompiler.Proofs.Code.Binding
import WorkflowCompiler.Proofs.Code.Body
import WorkflowCompiler.Proofs.Code.Grammar
import WorkflowCompiler.Proofs.CommandLine.Effect
import WorkflowCompiler.Proofs.Compilation.Code
import WorkflowCompiler.Proofs.Compilation.Complete
import WorkflowCompiler.Proofs.Compilation.Pruned
import WorkflowCompiler.Proofs.Compilation.Rearranged
import WorkflowCompiler.Proofs.Compilation.Relabelled
import WorkflowCompiler.Proofs.Compilation.Target
import WorkflowCompiler.Proofs.Compilation.Upstream
import WorkflowCompiler.Proofs.Decimal.Range
import WorkflowCompiler.Proofs.Decimal.Shortest
import WorkflowCompiler.Proofs.Document.Grammar
import WorkflowCompiler.Proofs.Document.Reload
import WorkflowCompiler.Proofs.Emission.Action
import WorkflowCompiler.Proofs.Emission.Alike
import WorkflowCompiler.Proofs.Emission.Binding
import WorkflowCompiler.Proofs.Emission.Emits
import WorkflowCompiler.Proofs.Emission.Grammatical
import WorkflowCompiler.Proofs.Emission.Keywords
import WorkflowCompiler.Proofs.Emission.Outline
import WorkflowCompiler.Proofs.Emission.Predecessor
import WorkflowCompiler.Proofs.Emission.Reference
import WorkflowCompiler.Proofs.Emission.Render
import WorkflowCompiler.Proofs.Emission.Rooted
import WorkflowCompiler.Proofs.Emission.Run
import WorkflowCompiler.Proofs.Fault
import WorkflowCompiler.Proofs.Graph.Acyclic
import WorkflowCompiler.Proofs.Graph.Around
import WorkflowCompiler.Proofs.Graph.Canonical
import WorkflowCompiler.Proofs.Graph.Condensation
import WorkflowCompiler.Proofs.Graph.Keep
import WorkflowCompiler.Proofs.Graph.Paths
import WorkflowCompiler.Proofs.Graph.Reach
import WorkflowCompiler.Proofs.Graph.Region
import WorkflowCompiler.Proofs.Graph.Relabelled
import WorkflowCompiler.Proofs.Graph.Reordered
import WorkflowCompiler.Proofs.Graph.Tarjan
import WorkflowCompiler.Proofs.Identifier.Allocation
import WorkflowCompiler.Proofs.Identifier.Fresh
import WorkflowCompiler.Proofs.Identifier.Normal
import WorkflowCompiler.Proofs.Identifier.Stem
import WorkflowCompiler.Proofs.Identifier.Valid
import WorkflowCompiler.Proofs.Plan.Basic
import WorkflowCompiler.Proofs.Plan.Encoded
import WorkflowCompiler.Proofs.Plan.Graph
import WorkflowCompiler.Proofs.Plan.Limbs
import WorkflowCompiler.Proofs.Plan.Loops
import WorkflowCompiler.Proofs.Plan.Placed
import WorkflowCompiler.Proofs.Plan.Resolved
import WorkflowCompiler.Proofs.Resolution.Account
import WorkflowCompiler.Proofs.Resolution.Alike
import WorkflowCompiler.Proofs.Resolution.Arms
import WorkflowCompiler.Proofs.Resolution.Assembly
import WorkflowCompiler.Proofs.Resolution.Context
import WorkflowCompiler.Proofs.Resolution.Entered
import WorkflowCompiler.Proofs.Resolution.Filled
import WorkflowCompiler.Proofs.Resolution.Follow
import WorkflowCompiler.Proofs.Resolution.Formed
import WorkflowCompiler.Proofs.Resolution.Guards
import WorkflowCompiler.Proofs.Resolution.JoinForm
import WorkflowCompiler.Proofs.Resolution.Level
import WorkflowCompiler.Proofs.Resolution.Linear
import WorkflowCompiler.Proofs.Resolution.Log
import WorkflowCompiler.Proofs.Resolution.LoopParameters
import WorkflowCompiler.Proofs.Resolution.Nested
import WorkflowCompiler.Proofs.Resolution.Once
import WorkflowCompiler.Proofs.Resolution.Order
import WorkflowCompiler.Proofs.Resolution.Outline
import WorkflowCompiler.Proofs.Resolution.Outlined
import WorkflowCompiler.Proofs.Resolution.Reentry
import WorkflowCompiler.Proofs.Resolution.Run
import WorkflowCompiler.Proofs.Resolution.Shared
import WorkflowCompiler.Proofs.Resolution.Splice
import WorkflowCompiler.Proofs.Resolution.Strands
import WorkflowCompiler.Proofs.Resolution.Total
import WorkflowCompiler.Proofs.Resolution.Unguarded
import WorkflowCompiler.Proofs.Resolution.Walked
import WorkflowCompiler.Proofs.Storage.FileSystem
import WorkflowCompiler.Proofs.Template.Arguments
import WorkflowCompiler.Proofs.Template.Canonical
import WorkflowCompiler.Proofs.Template.Held
import WorkflowCompiler.Proofs.Text.Line
import WorkflowCompiler.Proofs.Text.Order
import WorkflowCompiler.Proofs.Text.Quoted
import WorkflowCompiler.Proofs.Validation.Branches
import WorkflowCompiler.Proofs.Validation.Canonical
import WorkflowCompiler.Proofs.Validation.Cycles
import WorkflowCompiler.Proofs.Validation.Fields
import WorkflowCompiler.Proofs.Validation.Findings
import WorkflowCompiler.Proofs.Validation.Owned
import WorkflowCompiler.Proofs.Validation.Pruned
import WorkflowCompiler.Proofs.Validation.Reordered
import WorkflowCompiler.Proofs.Validation.Settings
import WorkflowCompiler.Proofs.Validation.Snares
import WorkflowCompiler.Proofs.Validation.Sound
import WorkflowCompiler.Proofs.Validation.Unterminated
import WorkflowCompiler.Proofs.Validation.Warnings
import WorkflowCompiler.Proofs.Value.Canonical
import WorkflowCompiler.Proofs.Value.Equal
import WorkflowCompiler.Proofs.Value.Literal
import WorkflowCompiler.Proofs.Value.Members
import WorkflowCompiler.Proofs.Value.Rearranged
import WorkflowCompiler.Resolution.Basic
import WorkflowCompiler.Resolution.Facts
import WorkflowCompiler.Server.Api
import WorkflowCompiler.Server.Settings
import WorkflowCompiler.Storage.FileSystem
import WorkflowCompiler.Storage.FileTree
import WorkflowCompiler.Storage.Path
import WorkflowCompiler.Template.Basic
import WorkflowCompiler.Text.Basic
import WorkflowCompiler.Text.Character
import WorkflowCompiler.Text.Printable
import WorkflowCompiler.Text.Quoted
import WorkflowCompiler.Text.WordCharacter
import WorkflowCompiler.Validation.Basic
import WorkflowCompiler.Validation.Branches
import WorkflowCompiler.Validation.Config
import WorkflowCompiler.Validation.Cycles
import WorkflowCompiler.Validation.Structure
import WorkflowCompiler.Value.Basic
import WorkflowCompiler.Value.Text
