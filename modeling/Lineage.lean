import Lineage.Clock
import Lineage.Command.Arguments
import Lineage.Command.Console
import Lineage.Command.Display
import Lineage.Command.Explore
import Lineage.Command.Override
import Lineage.Command.Printing
import Lineage.Config.Layers
import Lineage.Config.Policy
import Lineage.Config.Settings
import Lineage.Config.Variables
import Lineage.Directory
import Lineage.Failure
import Lineage.Files.Basic
import Lineage.Files.Path
import Lineage.Files.Records
import Lineage.Group.Acl
import Lineage.Group.Attach
import Lineage.Group.Basic
import Lineage.Hierarchy.Collection
import Lineage.Hierarchy.Fault
import Lineage.Hierarchy.Layout
import Lineage.Hierarchy.Tree
import Lineage.Hierarchy.View
import Lineage.Journal.Basic
import Lineage.Journal.Template
import Lineage.Json.Printer
import Lineage.Json.Reader
import Lineage.Keyed
import Lineage.Main
import Lineage.Number.Decimals
import Lineage.Number.Double
import Lineage.Number.Shortest
import Lineage.Platform
import Lineage.Proofs.Command.Configuring
import Lineage.Proofs.Command.Endings
import Lineage.Proofs.Command.Outputs
import Lineage.Proofs.Command.Overrides
import Lineage.Proofs.Command.Parsing
import Lineage.Proofs.Config.Agreement
import Lineage.Proofs.Config.Astray
import Lineage.Proofs.Config.Checks
import Lineage.Proofs.Config.Environment
import Lineage.Proofs.Config.Policies
import Lineage.Proofs.Config.Precedence
import Lineage.Proofs.Config.Sources
import Lineage.Proofs.Config.Unreported
import Lineage.Proofs.Config.Unshared
import Lineage.Proofs.Config.Variables
import Lineage.Proofs.Directory.Ancestry
import Lineage.Proofs.Directory.Building
import Lineage.Proofs.Directory.Cache
import Lineage.Proofs.Directory.Changes
import Lineage.Proofs.Directory.Deactivation
import Lineage.Proofs.Directory.Depth
import Lineage.Proofs.Directory.Display
import Lineage.Proofs.Directory.Effects
import Lineage.Proofs.Directory.Expiry
import Lineage.Proofs.Directory.Failures
import Lineage.Proofs.Directory.History
import Lineage.Proofs.Directory.Index
import Lineage.Proofs.Directory.Isolation
import Lineage.Proofs.Directory.Layered
import Lineage.Proofs.Directory.Leaf
import Lineage.Proofs.Directory.Orderly
import Lineage.Proofs.Directory.Recency
import Lineage.Proofs.Directory.Runs
import Lineage.Proofs.Directory.Shown
import Lineage.Proofs.Directory.Undated
import Lineage.Proofs.Files.Annotations
import Lineage.Proofs.Files.Canonical
import Lineage.Proofs.Files.Documents
import Lineage.Proofs.Files.Loaded
import Lineage.Proofs.Files.Loading
import Lineage.Proofs.Files.Stages
import Lineage.Proofs.Files.Turns
import Lineage.Proofs.Files.Writing
import Lineage.Proofs.Group.Ids
import Lineage.Proofs.Group.Misfits
import Lineage.Proofs.Group.Normal
import Lineage.Proofs.Group.RoundTrip
import Lineage.Proofs.Hierarchy.Annotation
import Lineage.Proofs.Hierarchy.Covering
import Lineage.Proofs.Hierarchy.Gaps
import Lineage.Proofs.Hierarchy.Growth
import Lineage.Proofs.Hierarchy.Hiding
import Lineage.Proofs.Hierarchy.Level
import Lineage.Proofs.Hierarchy.Mutual
import Lineage.Proofs.Hierarchy.Payload
import Lineage.Proofs.Hierarchy.Projection
import Lineage.Proofs.Hierarchy.Pruning
import Lineage.Proofs.Hierarchy.Reheading
import Lineage.Proofs.Hierarchy.Reordering
import Lineage.Proofs.Hierarchy.Routes
import Lineage.Proofs.Hierarchy.Selection
import Lineage.Proofs.Hierarchy.Shape
import Lineage.Proofs.Hierarchy.Sprout
import Lineage.Proofs.Hierarchy.Visibility
import Lineage.Proofs.Hierarchy.Walk
import Lineage.Proofs.Hierarchy.WellPlaced
import Lineage.Proofs.Json.Alike
import Lineage.Proofs.Json.Decimal
import Lineage.Proofs.Json.Grammar
import Lineage.Proofs.Json.Layout
import Lineage.Proofs.Json.Limits
import Lineage.Proofs.Json.LineEnds
import Lineage.Proofs.Json.Quoted
import Lineage.Proofs.Json.Reading
import Lineage.Proofs.Json.RoundTrip
import Lineage.Proofs.Json.Texts
import Lineage.Proofs.Outcome
import Lineage.Proofs.Text.Lines
import Lineage.Proofs.Text.Lowered
import Lineage.Proofs.Text.Utf8
import Lineage.Proofs.Value.Crossing
import Lineage.Proofs.Value.Entering
import Lineage.Proofs.Value.Following
import Lineage.Proofs.Value.Growing
import Lineage.Proofs.Value.InPlace
import Lineage.Proofs.Value.Merging
import Lineage.Proofs.Value.Mirroring
import Lineage.Proofs.Value.Overlapping
import Lineage.Proofs.Value.Overlay
import Lineage.Proofs.Value.Proper
import Lineage.Proofs.Value.Viewing
import Lineage.Proofs.Workspace.Attaching
import Lineage.Proofs.Workspace.Normal
import Lineage.Schema.Fault
import Lineage.Schema.Field
import Lineage.Text.Basic
import Lineage.Text.Blank
import Lineage.Text.CaseTable
import Lineage.Text.Digits
import Lineage.Text.Lines
import Lineage.Text.Lowercase
import Lineage.Text.Parts
import Lineage.Text.PrintableTable
import Lineage.Text.Quoted
import Lineage.Text.Utf8
import Lineage.Usual
import Lineage.Value.Basic
import Lineage.Value.Format
import Lineage.Value.Graph
import Lineage.Value.Laying
import Lineage.Value.Literal
import Lineage.Value.Merge
import Lineage.Value.Places
import Lineage.Value.Scalar
import Lineage.Workspace.Basic
import Lineage.Workspace.Run
import Lineage.Workspace.Step
import Lineage.Yaml.Fault
import Lineage.Yaml.Node
import Lineage.Yaml.Number
import Lineage.Yaml.Reader
import Lineage.Yaml.Scalar
import Lineage.Yaml.Timestamp
import Lineage.Yaml.Token
