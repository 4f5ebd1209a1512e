import WireSchema.Artifact.Align
import WireSchema.Artifact.Batch
import WireSchema.Artifact.Casing
import WireSchema.Artifact.Check
import WireSchema.Artifact.Class
import WireSchema.Artifact.ClassText
import WireSchema.Artifact.Constant
import WireSchema.Artifact.Enum
import WireSchema.Artifact.Error
import WireSchema.Artifact.Exchange
import WireSchema.Artifact.Generate
import WireSchema.Artifact.Json
import WireSchema.Artifact.Number
import WireSchema.Artifact.Opening
import WireSchema.Artifact.Output
import WireSchema.Artifact.Prose
import WireSchema.Artifact.Usual
import WireSchema.Command.Basic
import WireSchema.Command.Codegen
import WireSchema.Command.Line
import WireSchema.Command.Report
import WireSchema.Command.Run
import WireSchema.Document.Basic
import WireSchema.Document.Error
import WireSchema.Document.Parser
import WireSchema.Files.Basic
import WireSchema.Files.Disk
import WireSchema.Job.Load
import WireSchema.Job.Run
import WireSchema.Json.Basic
import WireSchema.Json.Parser
import WireSchema.Log.Basic
import WireSchema.Log.Lines
import WireSchema.Main
import WireSchema.Message.Identity
import WireSchema.Message.Payload
import WireSchema.Message.Tag
import WireSchema.Plan.Class
import WireSchema.Plan.Enum
import WireSchema.Plan.Value
import WireSchema.Plugin.Frame
import WireSchema.Plugin.Host
import WireSchema.Plugin.Locate
import WireSchema.Proofs.Artifact.Closed
import WireSchema.Proofs.Artifact.Declared
import WireSchema.Proofs.Artifact.Distinct
import WireSchema.Proofs.Artifact.Idents
import WireSchema.Proofs.Artifact.Imported
import WireSchema.Proofs.Artifact.Literal
import WireSchema.Proofs.Artifact.Meaning
import WireSchema.Proofs.Artifact.Mentions
import WireSchema.Proofs.Artifact.Numeral
import WireSchema.Proofs.Artifact.Output
import WireSchema.Proofs.Artifact.Parts
import WireSchema.Proofs.Artifact.Reading
import WireSchema.Proofs.Artifact.Tag
import WireSchema.Proofs.Artifact.Walk
import WireSchema.Proofs.Basic
import WireSchema.Proofs.Command.Codegen
import WireSchema.Proofs.Document.Bare
import WireSchema.Proofs.Document.Derivation
import WireSchema.Proofs.Document.Grammar
import WireSchema.Proofs.Document.Moved
import WireSchema.Proofs.Document.Reading
import WireSchema.Proofs.Document.Spelled
import WireSchema.Proofs.Files.Agreeing
import WireSchema.Proofs.Files.Confined
import WireSchema.Proofs.Job.Imports
import WireSchema.Proofs.Job.Met
import WireSchema.Proofs.Job.Run
import WireSchema.Proofs.Message.Identity
import WireSchema.Proofs.Message.Payload
import WireSchema.Proofs.Plan.Calls
import WireSchema.Proofs.Plan.Containment
import WireSchema.Proofs.Plan.Declared
import WireSchema.Proofs.Plan.Known
import WireSchema.Proofs.Plan.Layout
import WireSchema.Proofs.Plan.Lineage
import WireSchema.Proofs.Plan.Number
import WireSchema.Proofs.Plan.WellFormed
import WireSchema.Proofs.Plugin.Frame
import WireSchema.Proofs.Plugin.Host
import WireSchema.Proofs.Record.Adapters
import WireSchema.Proofs.Record.Bits
import WireSchema.Proofs.Record.Codec
import WireSchema.Proofs.Record.Fields
import WireSchema.Proofs.Record.Flags
import WireSchema.Proofs.Record.Headerless
import WireSchema.Proofs.Record.Measured
import WireSchema.Proofs.Record.PrefixFree
import WireSchema.Proofs.Record.Reencode
import WireSchema.Proofs.Record.Reference
import WireSchema.Proofs.Record.Residue
import WireSchema.Proofs.Record.RoundTrip
import WireSchema.Proofs.Record.Settled
import WireSchema.Proofs.Record.Sized
import WireSchema.Proofs.Record.Steps
import WireSchema.Proofs.Record.Typed
import WireSchema.Proofs.Record.Unbounded
import WireSchema.Proofs.Record.Wire
import WireSchema.Proofs.Schema.Bound
import WireSchema.Proofs.Schema.Compile
import WireSchema.Proofs.Schema.Literal
import WireSchema.Proofs.Schema.Obsolete
import WireSchema.Proofs.Schema.Order
import WireSchema.Proofs.Schema.Symbol
import WireSchema.Proofs.Settings.Layers
import WireSchema.Proofs.Source.Located
import WireSchema.Proofs.Source.Position
import WireSchema.Proofs.Source.Set
import WireSchema.Proofs.Token.Lines
import WireSchema.Proofs.Token.Tiling
import WireSchema.Record.Codec
import WireSchema.Record.Create
import WireSchema.Record.Decode
import WireSchema.Record.Dump
import WireSchema.Record.Encode
import WireSchema.Record.Error
import WireSchema.Record.External
import WireSchema.Record.Protobuf
import WireSchema.Record.Value
import WireSchema.Schema.Basic
import WireSchema.Schema.Compile
import WireSchema.Schema.Error
import WireSchema.Schema.Literal
import WireSchema.Schema.Primitive
import WireSchema.Schema.Sources
import WireSchema.Schema.Symbol
import WireSchema.Settings.Basic
import WireSchema.Settings.Load
import WireSchema.Settings.Toml
import WireSchema.Source.Set
import WireSchema.Source.Span
import WireSchema.Text.Base64
import WireSchema.Text.Basic
import WireSchema.Text.Distance
import WireSchema.Text.Hex
import WireSchema.Text.Letter
import WireSchema.Text.Lowercase
import WireSchema.Text.Path
import WireSchema.Text.Printable
import WireSchema.Text.Quoted
import WireSchema.Text.Separated
import WireSchema.Text.Space
import WireSchema.Text.Utf8
import WireSchema.Token.Basic
import WireSchema.Token.Lexer
import WireSchema.Toml.Basic
import WireSchema.Toml.Document
import WireSchema.Toml.Moment
import WireSchema.Toml.Number
import WireSchema.Toml.Parser
import WireSchema.Toml.Quotation
