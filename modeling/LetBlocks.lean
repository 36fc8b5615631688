import LetBlocks.Text
import LetBlocks.Region
import LetBlocks.Region.Scan
import LetBlocks.Source
import LetBlocks.Token
import LetBlocks.Diagnostic
import LetBlocks.Token.Lexer
import LetBlocks.Node
import LetBlocks.Node.Walk
import LetBlocks.Header
import LetBlocks.Node.Parse
import LetBlocks.Output
import LetBlocks.Compile
import LetBlocks.Json
import LetBlocks.Console
import LetBlocks.Report
import LetBlocks.Suggestion
import LetBlocks.Storage
import LetBlocks.Storage.Writer
import LetBlocks.Source.Load
import LetBlocks.Log.Record
import LetBlocks.Log.Filter
import LetBlocks.Log.Logger
import LetBlocks.Log.Setting
import LetBlocks.Log.Trail
import LetBlocks.Cli.Options
import LetBlocks.Cli.Usage
import LetBlocks.Cli.Run
import LetBlocks.Main
import LetBlocks.Proofs.Text.Bytes
import LetBlocks.Proofs.Region.Readers
import LetBlocks.Proofs.Token.Basic
import LetBlocks.Proofs.Report.Recording
import LetBlocks.Proofs.Token.Tiling
import LetBlocks.Proofs.Node.Run
import LetBlocks.Proofs.Header.Grammar
import LetBlocks.Proofs.Header.Recognition
import LetBlocks.Proofs.Node.Walks
import LetBlocks.Proofs.Node.Tree
import LetBlocks.Proofs.Node.Lossless
import LetBlocks.Proofs.Token.Code
import LetBlocks.Proofs.Token.Stream
import LetBlocks.Proofs.Region.Nesting
import LetBlocks.Proofs.Region.Open
import LetBlocks.Proofs.Region.Partition
import LetBlocks.Proofs.Token.Placement
import LetBlocks.Proofs.Token.Seams
import LetBlocks.Proofs.Token.Slashes
import LetBlocks.Proofs.Output.Runs
import LetBlocks.Proofs.Output.Closed
import LetBlocks.Proofs.Report.Threading
import LetBlocks.Proofs.Output.Relex
import LetBlocks.Proofs.Output.Faithful
import LetBlocks.Proofs.Output.Braces
import LetBlocks.Proofs.Token.Script
import LetBlocks.Proofs.Header.Pieces
import LetBlocks.Proofs.Header.Machine
import LetBlocks.Proofs.Node.Blocks
import LetBlocks.Proofs.Node.Sequences
import LetBlocks.Proofs.Node.Roles
import LetBlocks.Proofs.Node.PlainRuns
import LetBlocks.Proofs.Node.Reports
import LetBlocks.Proofs.Node.Brackets
import LetBlocks.Proofs.Output.Verbatim
import LetBlocks.Proofs.Output.Native
import LetBlocks.Proofs.Output.Crossing
import LetBlocks.Proofs.Output.Layers
import LetBlocks.Proofs.Header.Twins
import LetBlocks.Proofs.Node.Twins
import LetBlocks.Proofs.Node.Spans
import LetBlocks.Proofs.Node.Sketch
import LetBlocks.Proofs.Node.Preceding
import LetBlocks.Proofs.Node.Ending
import LetBlocks.Proofs.Node.SharedStack
import LetBlocks.Proofs.Output.Twins
import LetBlocks.Proofs.Report.Filing
import LetBlocks.Proofs.Cli.Inputs
import LetBlocks.Proofs.Log.Filters
import LetBlocks.Proofs.Log.FastPath
import LetBlocks.Proofs.Report.Journals
import LetBlocks.Proofs.Node.Mismatches
import LetBlocks.Proofs.Node.Matching
import LetBlocks.Proofs.Node.Names
import LetBlocks.Proofs.Output.Recursion
import LetBlocks.Proofs.Region.Shapes
import LetBlocks.Proofs.Output.Insertions
import LetBlocks.Proofs.Output.Annotations
import LetBlocks.Proofs.Output.Operands
import LetBlocks.Proofs.Region.Templates
import LetBlocks.Proofs.Text.Breaks
import LetBlocks.Proofs.Source.Lines
import LetBlocks.Proofs.Source.Locations
import LetBlocks.Proofs.Token.LineNumbers
import LetBlocks.Proofs.Suggestion.EditDistance
import LetBlocks.Proofs.Suggestion.Nearest
import LetBlocks.Proofs.Json.Decoder
import LetBlocks.Proofs.Json.Spelling
import LetBlocks.Proofs.Report.JsonLines
import LetBlocks.Proofs.Node.Sites
import LetBlocks.Proofs.Source.Surroundings
import LetBlocks.Proofs.Report.Excerpts
import LetBlocks.Proofs.Log.JsonLines
import LetBlocks.Proofs.Log.WrittenFilters
import LetBlocks.Proofs.Log.LateFilters
import LetBlocks.Proofs.Log.Precedence
import LetBlocks.Proofs.Cli.Arguments
