import ZigNif.Text.Basic
import ZigNif.Text.Blank
import ZigNif.Text.Digit
import ZigNif.Text.Lines
import ZigNif.Text.Printable
import ZigNif.Text.Quoted
import ZigNif.Text.Utf8
import ZigNif.Number.Binary64
import ZigNif.Number.Shortest
import ZigNif.Table
import ZigNif.Json.Basic
import ZigNif.Json.Reader
import ZigNif.Json.Token
import ZigNif.Json.Writer
import ZigNif.Span
import ZigNif.BuildError
import ZigNif.Source.Lexer
import ZigNif.Source.Literal
import ZigNif.Source.Parsed
import ZigNif.Source.Token
import ZigNif.Source.Tree
import ZigNif.Nif.Basic
import ZigNif.Nif.Declared
import ZigNif.Nif.Docs
import ZigNif.Nif.Verified
import ZigNif.Manifest
import ZigNif.Path
import ZigNif.Failure
import ZigNif.Files.Tree
import ZigNif.Import.Closure
import ZigNif.Import.Location
import ZigNif.Diagnostic
import ZigNif.Report
import ZigNif.Workspace
import ZigNif.Module
import ZigNif.Staging
import ZigNif.Glue.Elixir
import ZigNif.Glue.Erlang
import ZigNif.Glue.Finished
import ZigNif.Glue.Render
import ZigNif.Glue.Entry
import ZigNif.Glue.Term
import ZigNif.Harness
import ZigNif.Toolchain
import ZigNif.Pipeline
import ZigNif.Format
import ZigNif.Config
import ZigNif.CommandLine.Arguments
import ZigNif.CommandLine.Invocation
import ZigNif.CommandLine.Run
import ZigNif.Main
import ZigNif.Proofs.Except
import ZigNif.Proofs.Table
import ZigNif.Proofs.Text.Order
import ZigNif.Proofs.Text.Digit
import ZigNif.Proofs.Text.Lines
import ZigNif.Proofs.Text.Rows
import ZigNif.Proofs.Text.Utf8
import ZigNif.Proofs.Text.Blank
import ZigNif.Proofs.Text.Search
import ZigNif.Proofs.Diagnostic
import ZigNif.Proofs.Diagnostic.Failure
import ZigNif.Proofs.Glue.Elixir
import ZigNif.Proofs.Path
import ZigNif.Proofs.Files.Tree
import ZigNif.Proofs.Workspace
import ZigNif.Proofs.Import.Location
import ZigNif.Proofs.Import.Closure
import ZigNif.Proofs.Source.Tree
import ZigNif.Proofs.Source.Literal
import ZigNif.Proofs.Source.Token
import ZigNif.Proofs.Source.Lexer
import ZigNif.Proofs.Source.Scan
import ZigNif.Proofs.Source.TopLevel
import ZigNif.Proofs.Nif.Verified
import ZigNif.Proofs.Nif.Reports
import ZigNif.Proofs.Nif.Resources
import ZigNif.Proofs.Nif.Docs
import ZigNif.Proofs.Manifest
import ZigNif.Proofs.Manifest.Rows
import ZigNif.Proofs.Staging
import ZigNif.Proofs.Module
import ZigNif.Proofs.Module.Resources
import ZigNif.Proofs.Module.Steps
import ZigNif.Proofs.Pipeline
import ZigNif.Proofs.Pipeline.Commands
import ZigNif.Proofs.Report
import ZigNif.Proofs.Report.Exports
import ZigNif.Proofs.Import.Stop
import ZigNif.Proofs.Shelf
import ZigNif.Proofs.Pipeline.Escape
import ZigNif.Proofs.Import.Dependency
import ZigNif.Proofs.Path.Lexical
import ZigNif.Proofs.Import.Canonical
import ZigNif.Proofs.Staging.Mirror
import ZigNif.Proofs.Pipeline.Mirror
import ZigNif.Proofs.Pipeline.Paths
import ZigNif.Proofs.Pipeline.Reason
import ZigNif.Proofs.Source.Cut
import ZigNif.Proofs.Source.Balance
import ZigNif.Proofs.Source.Break
import ZigNif.Proofs.Source.Call
import ZigNif.Proofs.Source.Append
import ZigNif.Proofs.Source.Comment
import ZigNif.Proofs.Source.Fault
import ZigNif.Proofs.Nif.Declared
import ZigNif.Proofs.Files.Changes
import ZigNif.Proofs.Pipeline.Phase
import ZigNif.Proofs.Files.Below
import ZigNif.Proofs.Import.Again
import ZigNif.Proofs.Import.Reach
import ZigNif.Proofs.Import.Chain
import ZigNif.Proofs.Pipeline.Again
import ZigNif.Proofs.Pipeline.Origin
import ZigNif.Proofs.Config
import ZigNif.Proofs.Glue.Erlang
import ZigNif.Proofs.Glue.Elixir.Strings
import ZigNif.Proofs.Glue.Functions
import ZigNif.Proofs.Source.Part
import ZigNif.Proofs.Glue.Entry
import ZigNif.Proofs.Glue.Entry.Names
import ZigNif.Proofs.Glue.Erlang.Strings
import ZigNif.Proofs.Text.Items
import ZigNif.Proofs.Json.Basic
import ZigNif.Proofs.Json.Strings
import ZigNif.Proofs.Json.Numbers
import ZigNif.Proofs.Json.Reader
import ZigNif.Proofs.Json.Writer
import ZigNif.Proofs.Json.Lexemes
import ZigNif.Proofs.Json.Keys
import ZigNif.Proofs.Glue.Unique
import ZigNif.Proofs.Report.RoundTrip
import ZigNif.Proofs.Config.Lines
import ZigNif.Proofs.Source.Imports
import ZigNif.Proofs.Pipeline.Confined
import ZigNif.Proofs.CommandLine.Report
import ZigNif.Proofs.CommandLine.Build
import ZigNif.Proofs.CommandLine.Words
