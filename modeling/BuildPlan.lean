import BuildPlan.Assoc
import BuildPlan.CommandLine
import BuildPlan.Digest.Sha256
import BuildPlan.Disk
import BuildPlan.Environment
import BuildPlan.Error
import BuildPlan.Flag
import BuildPlan.Graph.NamedCycle
import BuildPlan.Graph.Order
import BuildPlan.Graph.Traversal
import BuildPlan.Host
import BuildPlan.Json
import BuildPlan.Main
import BuildPlan.Manifest
import BuildPlan.Manifest.Reader
import BuildPlan.Manifest.Scalar
import BuildPlan.Ninja
import BuildPlan.Ninja.Edge
import BuildPlan.Ninja.Rule
import BuildPlan.Ninja.Text
import BuildPlan.Node
import BuildPlan.NodeGraph
import BuildPlan.Path
import BuildPlan.Project
import BuildPlan.Project.Dependencies
import BuildPlan.Project.Location
import BuildPlan.Project.Usage
import BuildPlan.Project.Validation
import BuildPlan.Proofs.Build
import BuildPlan.Proofs.Build.Leads
import BuildPlan.Proofs.Build.Outcome
import BuildPlan.Proofs.Environment
import BuildPlan.Proofs.Environment.Lookup
import BuildPlan.Proofs.Flag
import BuildPlan.Proofs.Graph.NamedCycle
import BuildPlan.Proofs.Graph.Order
import BuildPlan.Proofs.Graph.Postorder
import BuildPlan.Proofs.Graph.Reachability
import BuildPlan.Proofs.Graph.Traversal
import BuildPlan.Proofs.Graph.Walk
import BuildPlan.Proofs.Manifest
import BuildPlan.Proofs.Manifest.Acceptance
import BuildPlan.Proofs.Ninja
import BuildPlan.Proofs.Ninja.BuildLine
import BuildPlan.Proofs.Ninja.Evaluation
import BuildPlan.Proofs.Ninja.Fallback
import BuildPlan.Proofs.Ninja.SharedRules
import BuildPlan.Proofs.Ninja.ShellWords
import BuildPlan.Proofs.NodeGraph
import BuildPlan.Proofs.NodeGraph.Coherence
import BuildPlan.Proofs.NodeGraph.Cycle
import BuildPlan.Proofs.Path
import BuildPlan.Proofs.Project.Alike
import BuildPlan.Proofs.Project.Declared
import BuildPlan.Proofs.Project.Dependencies
import BuildPlan.Proofs.Project.History
import BuildPlan.Proofs.Project.Location
import BuildPlan.Proofs.Project.Outline
import BuildPlan.Proofs.Project.Reached
import BuildPlan.Proofs.Project.Usage
import BuildPlan.Proofs.Requirements
import BuildPlan.Proofs.Requirements.Encoding
import BuildPlan.Proofs.Resolve.Advance
import BuildPlan.Proofs.Resolve.BareTools
import BuildPlan.Proofs.Resolve.Change
import BuildPlan.Proofs.Resolve.Collision
import BuildPlan.Proofs.Resolve.CommandErrors
import BuildPlan.Proofs.Resolve.Commands
import BuildPlan.Proofs.Resolve.CompileSteps
import BuildPlan.Proofs.Resolve.CompiledSources
import BuildPlan.Proofs.Resolve.CompilerCommands
import BuildPlan.Proofs.Resolve.CompilerTemplate
import BuildPlan.Proofs.Resolve.Expansion
import BuildPlan.Proofs.Resolve.Failure
import BuildPlan.Proofs.Resolve.InstallDepth
import BuildPlan.Proofs.Resolve.InstalledCopies
import BuildPlan.Proofs.Resolve.Installs
import BuildPlan.Proofs.Resolve.LinkDriver
import BuildPlan.Proofs.Resolve.LinkLanguage
import BuildPlan.Proofs.Resolve.LinkLine
import BuildPlan.Proofs.Resolve.ListTemplates
import BuildPlan.Proofs.Resolve.Lockstep
import BuildPlan.Proofs.Resolve.ObjectCache
import BuildPlan.Proofs.Resolve.OrderingEdges
import BuildPlan.Proofs.Resolve.Placement
import BuildPlan.Proofs.Resolve.Producers
import BuildPlan.Proofs.Resolve.Repeat
import BuildPlan.Proofs.Resolve.Retry
import BuildPlan.Proofs.Resolve.Run
import BuildPlan.Proofs.Resolve.Scopes
import BuildPlan.Proofs.Resolve.SharedObjects
import BuildPlan.Proofs.Resolve.Stability
import BuildPlan.Proofs.Resolve.StrictInputs
import BuildPlan.Proofs.Resolve.ToolIsolation
import BuildPlan.Proofs.Resolve.Turn
import BuildPlan.Proofs.Resolve.Uniform
import BuildPlan.Proofs.Template.Errors
import BuildPlan.Proofs.Template.Escape
import BuildPlan.Proofs.Template.Insertion
import BuildPlan.Proofs.Template.Literal
import BuildPlan.Proofs.Template.Locality
import BuildPlan.Proofs.Template.Namespace
import BuildPlan.Proofs.Template.Pieces
import BuildPlan.Proofs.Template.Positions
import BuildPlan.Proofs.Template.References
import BuildPlan.Proofs.Template.Rendering
import BuildPlan.Proofs.Template.Stack
import BuildPlan.Proofs.Template.Token
import BuildPlan.Proofs.Template.Words
import BuildPlan.Proofs.Text.Replace
import BuildPlan.Proofs.Text.Words
import BuildPlan.Report
import BuildPlan.Requirements
import BuildPlan.Resolve
import BuildPlan.Resolve.Commands
import BuildPlan.Resolve.Installs
import BuildPlan.Resolve.Objects
import BuildPlan.Resolve.Outputs
import BuildPlan.Run
import BuildPlan.StepContext
import BuildPlan.Target
import BuildPlan.TargetType
import BuildPlan.Template.Expand
import BuildPlan.Template.Reference
import BuildPlan.Template.Token
import BuildPlan.Template.Value
import BuildPlan.Text.Blank
import BuildPlan.Text.Numeral
import BuildPlan.Text.Replace
import BuildPlan.Text.Shell
import BuildPlan.Toolchain
import BuildPlan.Toolchain.Gcc
import BuildPlan.Toolchain.Kind
import BuildPlan.Toolchain.Msvc
import BuildPlan.Version
import BuildPlan.Yaml
import BuildPlan.Yaml.Block
import BuildPlan.Yaml.Cursor
import BuildPlan.Yaml.Node
import BuildPlan.Yaml.Node.Reader
import BuildPlan.Yaml.Plain
import BuildPlan.Yaml.Problem
import BuildPlan.Yaml.Property
import BuildPlan.Yaml.Quoted
import BuildPlan.Yaml.Suspect
import BuildPlan.Yaml.Token
import BuildPlan.Yaml.Token.Scan
import BuildPlan.Yaml.Token.State
