import BuildGraph.Cli.Args
import BuildGraph.Cli.Machine
import BuildGraph.Cli.Report
import BuildGraph.Cli.Run
import BuildGraph.Decimal.Layout
import BuildGraph.Decimal.Shortest
import BuildGraph.Definition.Basic
import BuildGraph.Definition.Dag
import BuildGraph.Definition.Marshal
import BuildGraph.Digest
import BuildGraph.Export.Compile
import BuildGraph.Export.Merged
import BuildGraph.FileTree
import BuildGraph.FileTree.Edit
import BuildGraph.Files
import BuildGraph.Graph.Basic
import BuildGraph.Graph.Layer
import BuildGraph.Graph.Run
import BuildGraph.ImageRef
import BuildGraph.Json.Codec
import BuildGraph.Json.Decoder
import BuildGraph.Json.Error
import BuildGraph.Json.Number
import BuildGraph.Json.Quoted
import BuildGraph.Json.Token
import BuildGraph.Json.Tree
import BuildGraph.Json.Value
import BuildGraph.Main
import BuildGraph.Op.Basic
import BuildGraph.Op.Validate
import BuildGraph.Op.Wire
import BuildGraph.Path
import BuildGraph.Pipeline.Assemble
import BuildGraph.Pipeline.Builtin
import BuildGraph.Pipeline.Config
import BuildGraph.Pipeline.Error
import BuildGraph.Pipeline.Load
import BuildGraph.Pipeline.Wire
import BuildGraph.Plan
import BuildGraph.Platform
import BuildGraph.Proofs.Check
import BuildGraph.Proofs.Cli.Agreement
import BuildGraph.Proofs.Cli.Plans
import BuildGraph.Proofs.Cli.PrintedConfig
import BuildGraph.Proofs.Cli.Printing
import BuildGraph.Proofs.Definition.Acceptance
import BuildGraph.Proofs.Definition.Commitment
import BuildGraph.Proofs.Definition.Contents
import BuildGraph.Proofs.Definition.Emission
import BuildGraph.Proofs.Definition.Encoding
import BuildGraph.Proofs.Definition.Lasting
import BuildGraph.Proofs.Definition.Levels
import BuildGraph.Proofs.Definition.Marshalable
import BuildGraph.Proofs.Definition.Meaning
import BuildGraph.Proofs.Definition.Mistaken
import BuildGraph.Proofs.Definition.Needed
import BuildGraph.Proofs.Definition.Offence
import BuildGraph.Proofs.Definition.Order
import BuildGraph.Proofs.Definition.Outputs
import BuildGraph.Proofs.Definition.Root
import BuildGraph.Proofs.Definition.Search
import BuildGraph.Proofs.Definition.Semantics
import BuildGraph.Proofs.Definition.Unfolding
import BuildGraph.Proofs.Definition.Walk
import BuildGraph.Proofs.Definition.Waves
import BuildGraph.Proofs.Definition.WellFormed
import BuildGraph.Proofs.Definition.WireFormat
import BuildGraph.Proofs.Digest
import BuildGraph.Proofs.Export.Complete
import BuildGraph.Proofs.Export.Confined
import BuildGraph.Proofs.Export.DefaultPaths
import BuildGraph.Proofs.Export.Indices
import BuildGraph.Proofs.Export.Layers
import BuildGraph.Proofs.Export.Merge
import BuildGraph.Proofs.Export.Ownership
import BuildGraph.Proofs.Export.Provenance
import BuildGraph.Proofs.Export.Success
import BuildGraph.Proofs.Graph.Answer
import BuildGraph.Proofs.Graph.Apart
import BuildGraph.Proofs.Graph.Arguments
import BuildGraph.Proofs.Graph.Call
import BuildGraph.Proofs.Graph.Consistency
import BuildGraph.Proofs.Graph.Environment
import BuildGraph.Proofs.Graph.Follows
import BuildGraph.Proofs.Graph.Growth
import BuildGraph.Proofs.Graph.Inputs
import BuildGraph.Proofs.Graph.Mounts
import BuildGraph.Proofs.Graph.Recorded
import BuildGraph.Proofs.Graph.Repeats
import BuildGraph.Proofs.Graph.Settings
import BuildGraph.Proofs.Graph.Sound
import BuildGraph.Proofs.Graph.Standing
import BuildGraph.Proofs.Graph.Variables
import BuildGraph.Proofs.ImageRef
import BuildGraph.Proofs.Json.Extent
import BuildGraph.Proofs.Json.Faithful
import BuildGraph.Proofs.Json.ReadBack
import BuildGraph.Proofs.Json.RoundTrip
import BuildGraph.Proofs.Json.Text
import BuildGraph.Proofs.Json.Tokens
import BuildGraph.Proofs.Json.Trees
import BuildGraph.Proofs.Json.Unambiguous
import BuildGraph.Proofs.Lists
import BuildGraph.Proofs.Op.Checks
import BuildGraph.Proofs.Op.Mistakes
import BuildGraph.Proofs.Op.Valid
import BuildGraph.Proofs.Path.Characters
import BuildGraph.Proofs.Path.Climb
import BuildGraph.Proofs.Path.Containment
import BuildGraph.Proofs.Path.Host
import BuildGraph.Proofs.Path.Join
import BuildGraph.Proofs.Path.Normal
import BuildGraph.Proofs.Path.Remainder
import BuildGraph.Proofs.Path.Sequence
import BuildGraph.Proofs.Path.Walk
import BuildGraph.Proofs.Path.Within
import BuildGraph.Proofs.Pipeline.Assembly
import BuildGraph.Proofs.Pipeline.ConfigFormat
import BuildGraph.Proofs.Pipeline.Encodable
import BuildGraph.Proofs.Pipeline.History
import BuildGraph.Proofs.Pipeline.Isolation
import BuildGraph.Proofs.Pipeline.Manifest
import BuildGraph.Proofs.Pipeline.Outcome
import BuildGraph.Proofs.Pipeline.Prefixes
import BuildGraph.Proofs.Pipeline.Recipe
import BuildGraph.Proofs.Pipeline.Replay
import BuildGraph.Proofs.Pipeline.Sharing
import BuildGraph.Proofs.Pipeline.StepRun
import BuildGraph.Proofs.Pipeline.Trace
import BuildGraph.Proofs.Pipeline.Valid
import BuildGraph.Proofs.Pipeline.Workspace
import BuildGraph.Proofs.Plan
import BuildGraph.Proofs.StringMap
import BuildGraph.Sha256
import BuildGraph.Shell
import BuildGraph.State
import BuildGraph.StringMap
import BuildGraph.Text.Blank
import BuildGraph.Text.Cut
import BuildGraph.Text.Lines
import BuildGraph.Text.Quoted
import BuildGraph.Text.Visible
import BuildGraph.Workspace
