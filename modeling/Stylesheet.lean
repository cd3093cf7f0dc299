import Stylesheet.Catalog
import Stylesheet.CommandLine.Command
import Stylesheet.CommandLine.Flags
import Stylesheet.CommandLine.Run
import Stylesheet.Compile
import Stylesheet.Compile.Directive
import Stylesheet.Compile.Evaluate
import Stylesheet.Compile.Expand
import Stylesheet.Compile.Extend
import Stylesheet.Compile.Fragment
import Stylesheet.Compile.Header
import Stylesheet.Compile.Interpolation
import Stylesheet.Compile.Registry
import Stylesheet.Compile.Session
import Stylesheet.Config
import Stylesheet.Css.Reader
import Stylesheet.Css.Token
import Stylesheet.Data.Json
import Stylesheet.Data.Yaml
import Stylesheet.Data.Yaml.Reader
import Stylesheet.Diagnostic
import Stylesheet.Double.Binary
import Stylesheet.Double.Numeral
import Stylesheet.Double.Shortest
import Stylesheet.Double.Trig
import Stylesheet.Expression
import Stylesheet.Expression.Eval
import Stylesheet.Expression.Parser
import Stylesheet.Expression.Token
import Stylesheet.ExtendGraph
import Stylesheet.FileTree
import Stylesheet.Function
import Stylesheet.Function.Color
import Stylesheet.Function.List
import Stylesheet.Function.Math
import Stylesheet.Function.Selector
import Stylesheet.Function.Standard
import Stylesheet.Function.String
import Stylesheet.Glob
import Stylesheet.Import
import Stylesheet.Log
import Stylesheet.Main
import Stylesheet.Output.Layout
import Stylesheet.Output.Outline
import Stylesheet.Output.Shorten
import Stylesheet.Path
import Stylesheet.Project
import Stylesheet.Proofs.Compile.Binding
import Stylesheet.Proofs.Compile.Cache
import Stylesheet.Proofs.Compile.Composition
import Stylesheet.Proofs.Compile.Conditions
import Stylesheet.Proofs.Compile.Congruence
import Stylesheet.Proofs.Compile.Convergence
import Stylesheet.Proofs.Compile.Counting
import Stylesheet.Proofs.Compile.Coupling
import Stylesheet.Proofs.Compile.Definitions
import Stylesheet.Proofs.Compile.Engine
import Stylesheet.Proofs.Compile.Evaluation
import Stylesheet.Proofs.Compile.Expansion
import Stylesheet.Proofs.Compile.Extension
import Stylesheet.Proofs.Compile.Fuel
import Stylesheet.Proofs.Compile.Linking
import Stylesheet.Proofs.Compile.Missing
import Stylesheet.Proofs.Compile.Occurrences
import Stylesheet.Proofs.Compile.Ordering
import Stylesheet.Proofs.Compile.Parts
import Stylesheet.Proofs.Compile.Permeation
import Stylesheet.Proofs.Compile.Preorder
import Stylesheet.Proofs.Compile.Presets
import Stylesheet.Proofs.Compile.Replacement
import Stylesheet.Proofs.Compile.Returning
import Stylesheet.Proofs.Compile.Rules
import Stylesheet.Proofs.Compile.Serving
import Stylesheet.Proofs.Compile.Settings
import Stylesheet.Proofs.Compile.Settling
import Stylesheet.Proofs.Compile.Spawning
import Stylesheet.Proofs.Compile.Termination
import Stylesheet.Proofs.Compile.Transfer
import Stylesheet.Proofs.Compile.Trimming
import Stylesheet.Proofs.Compile.Verbatim
import Stylesheet.Proofs.Compile.Watched
import Stylesheet.Proofs.Compile.WellFormed
import Stylesheet.Proofs.Double.Integers
import Stylesheet.Proofs.Expression.Closed
import Stylesheet.Proofs.Expression.Consumption
import Stylesheet.Proofs.Expression.Coverage
import Stylesheet.Proofs.Expression.Descent
import Stylesheet.Proofs.Expression.Follow
import Stylesheet.Proofs.Expression.Formula
import Stylesheet.Proofs.Expression.Grammar
import Stylesheet.Proofs.Expression.Indices
import Stylesheet.Proofs.Expression.Return
import Stylesheet.Proofs.Expression.Scanning
import Stylesheet.Proofs.Expression.Simulation
import Stylesheet.Proofs.Expression.Spans
import Stylesheet.Proofs.Expression.Unanswered
import Stylesheet.Proofs.ExtendGraph
import Stylesheet.Proofs.ExtendGraph.Cycles
import Stylesheet.Proofs.ExtendGraph.Depth
import Stylesheet.Proofs.ExtendGraph.Order
import Stylesheet.Proofs.Function
import Stylesheet.Proofs.Import
import Stylesheet.Proofs.Import.LoadPath
import Stylesheet.Proofs.Import.Package
import Stylesheet.Proofs.Output.Concatenation
import Stylesheet.Proofs.Output.Lexeme
import Stylesheet.Proofs.Output.RawBody
import Stylesheet.Proofs.Output.Rereading
import Stylesheet.Proofs.Output.RoundTrip
import Stylesheet.Proofs.Output.Shortening
import Stylesheet.Proofs.Output.Spacing
import Stylesheet.Proofs.Output.Spelling
import Stylesheet.Proofs.Output.Squeeze
import Stylesheet.Proofs.Output.Strings
import Stylesheet.Proofs.Output.Tree
import Stylesheet.Proofs.Path
import Stylesheet.Proofs.Path.Containment
import Stylesheet.Proofs.Path.Relative
import Stylesheet.Proofs.Plain.Blocks
import Stylesheet.Proofs.Plain.Expand
import Stylesheet.Proofs.Plain.FixedPoint
import Stylesheet.Proofs.Plain.Print
import Stylesheet.Proofs.Plain.Sheet
import Stylesheet.Proofs.Project
import Stylesheet.Proofs.Selector
import Stylesheet.Proofs.Selector.Agreement
import Stylesheet.Proofs.Selector.Nesting
import Stylesheet.Proofs.Source.Balance
import Stylesheet.Proofs.Source.Chunks
import Stylesheet.Proofs.Source.Comments
import Stylesheet.Proofs.Source.Cursors
import Stylesheet.Proofs.Source.Declarations
import Stylesheet.Proofs.Source.Headers
import Stylesheet.Proofs.Source.Imbalance
import Stylesheet.Proofs.Source.Joined
import Stylesheet.Proofs.Source.Leads
import Stylesheet.Proofs.Source.Literals
import Stylesheet.Proofs.Source.Origins
import Stylesheet.Proofs.Source.Pass
import Stylesheet.Proofs.Source.Passages
import Stylesheet.Proofs.Source.Sections
import Stylesheet.Proofs.Source.Sequel
import Stylesheet.Proofs.Source.Strands
import Stylesheet.Proofs.Source.Tiling
import Stylesheet.Proofs.Text
import Stylesheet.Proofs.Text.Characters
import Stylesheet.Proofs.Text.Collapse
import Stylesheet.Proofs.Text.Space
import Stylesheet.Proofs.Text.Words
import Stylesheet.Selector
import Stylesheet.Source.Block
import Stylesheet.Source.Normalize
import Stylesheet.Text
import Stylesheet.Text.Case
import Stylesheet.Text.CaseTable
import Stylesheet.Text.Printable
import Stylesheet.Text.Quoted
import Stylesheet.Tools
import Stylesheet.Value
import Stylesheet.Value.Color
import Stylesheet.Value.ColorNames
import Stylesheet.Value.Operators
import Stylesheet.Value.Units
