import WitCaller.Identifier
import WitCaller.TypeExpr.Parser
import WitCaller.Log
import WitCaller.Text.Lines
import WitCaller.Text.Digit
import WitCaller.TypeExpr.Rust
import WitCaller.Interface.Basic
import WitCaller.Interface.Parser
import WitCaller.World
import WitCaller.Assoc
import WitCaller.Rust.Library
import WitCaller.Decimal
import WitCaller.Toml.Literal
import WitCaller.Toml.Value
import WitCaller.Toml.Decoder
import WitCaller.Failure
import WitCaller.Session
import WitCaller.Manifest.ArrayText
import WitCaller.Manifest.Edit
import WitCaller.Manifest.Update
import WitCaller.Yaml.BlockText
import WitCaller.Yaml.Lexing
import WitCaller.Decimal.Notation
import WitCaller.Decimal.Shortest
import WitCaller.Yaml.Kind
import WitCaller.Yaml.Node
import WitCaller.Yaml.Value
import WitCaller.Config.Load
import WitCaller.Crate
import WitCaller.Generation
import WitCaller.CommandLine.Flag
import WitCaller.CommandLine.Options
import WitCaller.CommandLine.Execute
import WitCaller.Main
import WitCaller.Proofs.Naming
import WitCaller.Proofs.TypeText
import WitCaller.Proofs.Steps
import WitCaller.Proofs.Translation
import WitCaller.Proofs.Places
import WitCaller.Proofs.Effects
import WitCaller.Proofs.Changes
import WitCaller.Proofs.Registration
import WitCaller.Proofs.InterfaceFiles
import WitCaller.Proofs.Drafting
import WitCaller.Proofs.Staging
import WitCaller.Proofs.Toml.Outcomes
import WitCaller.Proofs.Toml.Strings
import WitCaller.Proofs.Toml.Words
import WitCaller.Proofs.Toml.Values
import WitCaller.Proofs.Toml.Statements
import WitCaller.Proofs.Toml.Construction
import WitCaller.Proofs.Toml.Updates
import WitCaller.Proofs.Toml.Sections
import WitCaller.Proofs.Toml.Plain
import WitCaller.Proofs.Toml.StringForms
import WitCaller.Proofs.Toml.Cuts
import WitCaller.Proofs.Toml.Differences
import WitCaller.Proofs.Utf8
import WitCaller.Proofs.Manifest.Rewriting
import WitCaller.Proofs.Manifest.Dependency
import WitCaller.Proofs.Manifest.Sections
import WitCaller.Proofs.Manifest.DependencyPlace
import WitCaller.Proofs.Manifest.MembersPlace
import WitCaller.Proofs.Toml.Items
import WitCaller.Proofs.Associations
import WitCaller.Proofs.Concatenation
import WitCaller.Proofs.Gathering
import WitCaller.Proofs.Legibility
import WitCaller.Proofs.Observing
import WitCaller.Proofs.DraftOutcome
import WitCaller.Proofs.Independence
import WitCaller.Proofs.ModuleNames
import WitCaller.Proofs.Manifest.Members
import WitCaller.Proofs.Manifest.Registering
import WitCaller.Proofs.Manifest.Idempotence
import WitCaller.Proofs.Calls
import WitCaller.Proofs.Lines
import WitCaller.Proofs.StubOutcome
import WitCaller.Proofs.StubText
import WitCaller.Proofs.LibraryLines
import WitCaller.Proofs.LibraryReading
import WitCaller.Proofs.HashMapUse
import WitCaller.Proofs.StubReading
import WitCaller.Proofs.Strictness
import WitCaller.Proofs.Derivations
import WitCaller.Proofs.Filling
import WitCaller.Proofs.DryRun
import WitCaller.Proofs.Confinement
import WitCaller.Proofs.Rereading
import WitCaller.Proofs.Repeating
import WitCaller.Proofs.SecondRun
import WitCaller.Proofs.Repeatability
import WitCaller.Proofs.IdleLines
import WitCaller.Proofs.Printing
import WitCaller.Proofs.Manifest.StringEnds
import WitCaller.Proofs.Manifest.LineStrings
import WitCaller.Proofs.Manifest.StringArrays
import WitCaller.Proofs.Footprint
import WitCaller.Proofs.WorldChoice
import WitCaller.Proofs.CommentedStubs
import WitCaller.Proofs.PassedOn
import WitCaller.Proofs.Answering
import WitCaller.Proofs.TrailingComments
import WitCaller.Proofs.RecordLayouts
import WitCaller.Proofs.ParameterNames
import WitCaller.Proofs.EscapedNames
import WitCaller.Proofs.Manifest.Splices
import WitCaller.Proofs.Manifest.KeptLines
import WitCaller.Proofs.OperationNames
import WitCaller.Proofs.UserTypes
import WitCaller.Proofs.ShownNames
import WitCaller.Proofs.SettingsValues
import WitCaller.Proofs.RelativePaths
import WitCaller.Proofs.DependencyPaths
