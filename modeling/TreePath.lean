import TreePath.Files.Snapshot
import TreePath.Main
import TreePath.Path.Descent
import TreePath.Path.Reader
import TreePath.Query.Session
import TreePath.Tree.Equality
import TreePath.Proofs.Lists
import TreePath.Proofs.Path.Grammar
import TreePath.Proofs.Path.Reader
import TreePath.Proofs.Path.Printer
import TreePath.Proofs.Path.Cache
import TreePath.Proofs.Path.Feed
import TreePath.Proofs.Path.Join
import TreePath.Proofs.Path.Place
import TreePath.Proofs.Path.Descent
import TreePath.Proofs.Path.Fault
import TreePath.Proofs.Tree.Walk
import TreePath.Proofs.Tree.Route
import TreePath.Proofs.Tree.Chain
import TreePath.Proofs.Number.Rounding
import TreePath.Proofs.Number.Nearest
import TreePath.Proofs.Number.Whole
import TreePath.Proofs.Number.Numeral
import TreePath.Proofs.Number.Value
import TreePath.Proofs.Number.Shortest
import TreePath.Proofs.Json.Builder
import TreePath.Proofs.Json.Integer
import TreePath.Proofs.Json.Number
import TreePath.Proofs.Json.Literal
import TreePath.Proofs.Json.Spelling
import TreePath.Proofs.Json.Nesting
import TreePath.Proofs.Json.Tokens
import TreePath.Proofs.Json.RoundTrip
import TreePath.Proofs.Query.Answer
import TreePath.Proofs.Query.Fault
import TreePath.Proofs.Query.Reroot
import TreePath.Proofs.Query.Integer
import TreePath.Proofs.Query.Document
import TreePath.Proofs.Query.Cache
import TreePath.Proofs.Query.Usage
import TreePath.Proofs.Query.Route
import TreePath.Proofs.Query.Miss
import TreePath.Proofs.Render.Line
import TreePath.Proofs.Render.Pipeline
import TreePath.Proofs.Render.Output
import TreePath.Proofs.Program.Outcome
import TreePath.Proofs.Files.Load
import TreePath.Proofs.Toml.Lines
import TreePath.Proofs.Toml.Quoted
import TreePath.Proofs.Toml.Scalar
import TreePath.Proofs.Toml.Table
import TreePath.Proofs.Settings.Load
import TreePath.Proofs.Settings.RoundTrip
import TreePath.Proofs.Tree.Equality
import TreePath.Proofs.Tree.Alike
import TreePath.Proofs.Number.Equality
import TreePath.Proofs.Query.Equality
import TreePath.Proofs.Json.Equality
import TreePath.Proofs.Query.Extension
import TreePath.Proofs.Query.Found
import TreePath.Proofs.Tree.Extension
import TreePath.Proofs.Query.Log
import TreePath.Proofs.Query.Run
