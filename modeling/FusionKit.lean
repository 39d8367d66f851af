import FusionKit.Text
import FusionKit.Text.Blank
import FusionKit.Text.Glyph
import FusionKit.Text.Case
import FusionKit.Text.Lines
import FusionKit.Text.Printable
import FusionKit.Text.Quoted
import FusionKit.Text.Width
import FusionKit.Location
import FusionKit.Token
import FusionKit.Token.Lexeme
import FusionKit.Token.Numeral
import FusionKit.Token.Cursor
import FusionKit.Token.Lexer
import FusionKit.Token.Stream
import FusionKit.Node
import FusionKit.Node.Dump
import FusionKit.Node.Parse
import FusionKit.Layout
import FusionKit.Layout.Tidy
import FusionKit.Path
import FusionKit.Settings
import FusionKit.Format
import FusionKit.Layout.Indent
import FusionKit.Layout.Page
import FusionKit.Layout.Print
import FusionKit.Diff
import FusionKit.FileTree
import FusionKit.Pattern
import FusionKit.Failure
import FusionKit.Format.Files
import FusionKit.FileTree.Select
import FusionKit.Log
import FusionKit.Form
import FusionKit.Fresh
import FusionKit.Table
import FusionKit.Text.Letter
import FusionKit.Keyword
import FusionKit.Index
import FusionKit.Index.Directive
import FusionKit.Repository
import FusionKit.Index.Load
import FusionKit.Scope
import FusionKit.Check
import FusionKit.Decimal
import FusionKit.Calendar
import FusionKit.Yaml.Scalar
import FusionKit.Yaml.Scalar.Write
import FusionKit.Yaml.Write
import FusionKit.Index.Dump
import FusionKit.Watch
import FusionKit.Word
import FusionKit.Text.Wrap
import FusionKit.Report
import FusionKit.Report.Render
import FusionKit.Json
import FusionKit.Json.Read
import FusionKit.Toml.Fault
import FusionKit.Toml.Document
import FusionKit.Toml.Moment
import FusionKit.Toml.Term
import FusionKit.Value
import FusionKit.Toml.Read
import FusionKit.Yaml.Fault
import FusionKit.Yaml.Source
import FusionKit.Yaml.Token
import FusionKit.Yaml.Token.Lexeme
import FusionKit.Yaml.Token.Sigil
import FusionKit.Yaml.Token.Queue
import FusionKit.Yaml.Node
import FusionKit.Yaml.Node.Parse
import FusionKit.Yaml.Read
import FusionKit.Settings.Decode
import FusionKit.Settings.Load
import FusionKit.Editor
import FusionKit.Editor.Shape
import FusionKit.Editor.Request
import FusionKit.Editor.Wire
import FusionKit.Editor.Serve
import FusionKit.Command.Flag
import FusionKit.Command
import FusionKit.Command.Run
import FusionKit.Main
import FusionKit.Proofs.Basics
import FusionKit.Proofs.Glyphs
import FusionKit.Proofs.Marks
import FusionKit.Proofs.Cursors
import FusionKit.Proofs.Numerals
import FusionKit.Proofs.Lexemes
import FusionKit.Proofs.Spelling
import FusionKit.Proofs.Lexing
import FusionKit.Proofs.LineEnds
import FusionKit.Proofs.Tiling
import FusionKit.Proofs.LexerPaths
import FusionKit.Proofs.Signs
import FusionKit.Proofs.Blanks
import FusionKit.Proofs.Trees
import FusionKit.Proofs.Leading
import FusionKit.Proofs.Rereading
import FusionKit.Proofs.Words
import FusionKit.Proofs.BlockComments
import FusionKit.Proofs.Printing
import FusionKit.Proofs.Roundtrip
import FusionKit.Proofs.Content
import FusionKit.Proofs.Tidying
import FusionKit.Proofs.Scanning
import FusionKit.Proofs.Sources
import FusionKit.Proofs.Preservation
import FusionKit.Proofs.Steps
import FusionKit.Proofs.Grammar
import FusionKit.Proofs.Images
import FusionKit.Proofs.Shapes
import FusionKit.Proofs.Guarded
import FusionKit.Proofs.GuardedTidy
import FusionKit.Proofs.Safety
import FusionKit.Proofs.Edits
import FusionKit.Proofs.Decisions
import FusionKit.Proofs.Pages
import FusionKit.Proofs.Reprinting
import FusionKit.Proofs.Likeness
import FusionKit.Proofs.TidyTrees
import FusionKit.Proofs.Idempotence
import FusionKit.Proofs.Forms
import FusionKit.Proofs.Places
import FusionKit.Proofs.Loading
import FusionKit.Proofs.Calls
import FusionKit.Proofs.Requires
import FusionKit.Proofs.Packages
import FusionKit.Proofs.Runs
import FusionKit.Proofs.Spacing
import FusionKit.Proofs.Depth
import FusionKit.Proofs.Keeping
import FusionKit.Proofs.Changes
import FusionKit.Proofs.Reordering
import FusionKit.Proofs.Alone
import FusionKit.Proofs.NumeralWords
import FusionKit.Proofs.Relining
import FusionKit.Proofs.Sessions
import FusionKit.Proofs.Provenance
import FusionKit.Proofs.Exports
import FusionKit.Proofs.Nesting
import FusionKit.Proofs.Faults
import FusionKit.Proofs.Joining
import FusionKit.Proofs.Pipes
import FusionKit.Proofs.LongStrings
import FusionKit.Proofs.Lambdas
import FusionKit.Proofs.Rebreaking
import FusionKit.Proofs.CommentRows
import FusionKit.Proofs.LineComments
import FusionKit.Proofs.WellFormed
import FusionKit.Proofs.Visits
import FusionKit.Proofs.Locality
import FusionKit.Proofs.Bindings
import FusionKit.Proofs.Symbols
import FusionKit.Proofs.Unbound
import FusionKit.Proofs.Quoting
import FusionKit.Proofs.Languages
import FusionKit.Proofs.Failing
import FusionKit.Proofs.Blame
import FusionKit.Proofs.Diagnostics
import FusionKit.Proofs.Differences
import FusionKit.Proofs.Indents
