import CalendarQuery.Collection
import CalendarQuery.CommandLine.Arguments
import CalendarQuery.CommandLine.Profile
import CalendarQuery.CommandLine.Report
import CalendarQuery.CommandLine.Run
import CalendarQuery.Comparison
import CalendarQuery.Comparison.Compile
import CalendarQuery.Comparison.Reader
import CalendarQuery.Compilation
import CalendarQuery.Compiler
import CalendarQuery.Document
import CalendarQuery.Error
import CalendarQuery.Expression.Parser
import CalendarQuery.Expression.Stacks
import CalendarQuery.Files
import CalendarQuery.Files.Tree
import CalendarQuery.Filter
import CalendarQuery.Filter.Group
import CalendarQuery.Filter.Render
import CalendarQuery.Hierarchy
import CalendarQuery.Hierarchy.Fault
import CalendarQuery.Hierarchy.Store
import CalendarQuery.Hierarchy.Store.Document
import CalendarQuery.Hierarchy.Walk
import CalendarQuery.Json
import CalendarQuery.Limits
import CalendarQuery.Limits.Settings
import CalendarQuery.Main
import CalendarQuery.Property
import CalendarQuery.Property.Path
import CalendarQuery.Property.Path.Reader
import CalendarQuery.Selection
import CalendarQuery.Sort
import CalendarQuery.Text.Ascii
import CalendarQuery.Text.Blank
import CalendarQuery.Text.Decimal
import CalendarQuery.Text.EditDistance
import CalendarQuery.Text.Quoted
import CalendarQuery.Text.Scanner
import CalendarQuery.Text.Slashed
import CalendarQuery.Time.Stamp
import CalendarQuery.Time.Stamp.Reader
import CalendarQuery.Token
import CalendarQuery.Token.Lexer
import CalendarQuery.Token.Reader
import CalendarQuery.Toml.Lexical
import CalendarQuery.Toml.Number
import CalendarQuery.Toml.Reader
import CalendarQuery.Toml.Table
import CalendarQuery.Toml.Value
import CalendarQuery.Toml.Writer
import CalendarQuery.Proofs.Token.Partition
import CalendarQuery.Proofs.Token.Reader
import CalendarQuery.Proofs.Comparison.Uniform
import CalendarQuery.Proofs.Compilation
import CalendarQuery.Proofs.Expression.Grammar
import CalendarQuery.Proofs.Expression.Parser
import CalendarQuery.Proofs.Compiler
import CalendarQuery.Proofs.Text.Decimal
import CalendarQuery.Proofs.Text.Quoted
import CalendarQuery.Proofs.Token.Scan
import CalendarQuery.Proofs.Time.Stamp
import CalendarQuery.Proofs.Property.Name
import CalendarQuery.Proofs.Property.Path
import CalendarQuery.Proofs.Filter.Text
import CalendarQuery.Proofs.Filter.Normal
import CalendarQuery.Proofs.Comparison.Written
import CalendarQuery.Proofs.Filter.RoundTrip
import CalendarQuery.Proofs.Selection.Expansion
import CalendarQuery.Proofs.Selection.Resolve
import CalendarQuery.Proofs.Selection.Honours
import CalendarQuery.Proofs.Memos
import CalendarQuery.Proofs.Selection.Memos
import CalendarQuery.Proofs.Selection.Leaves
import CalendarQuery.Proofs.Calls
import CalendarQuery.Proofs.Hierarchy.Chain
import CalendarQuery.Proofs.Selection.VirtualPath
import CalendarQuery.Proofs.Filter.WellFormed
import CalendarQuery.Proofs.Token.Reading
import CalendarQuery.Proofs.Comparison.Reading
import CalendarQuery.Proofs.Judgment
import CalendarQuery.Proofs.Selection.Judgment
import CalendarQuery.Proofs.Expression.Judgment
import CalendarQuery.Proofs.Sort
import CalendarQuery.Proofs.Compiler.WellFormed
import CalendarQuery.Proofs.Compiler.Depth
import CalendarQuery.Proofs.Transparent
import CalendarQuery.Proofs.Compiler.Transparent
import CalendarQuery.Proofs.Text.Slashed
import CalendarQuery.Proofs.Hierarchy.Store
import CalendarQuery.Proofs.Selection.DepthFirst
import CalendarQuery.Proofs.Compiler.CollectionPath
import CalendarQuery.Proofs.Hierarchy.Grounded
import CalendarQuery.Proofs.Compiler.Stable
import CalendarQuery.Proofs.Compiler.Explicit
import CalendarQuery.Proofs.Hierarchy.Failing
import CalendarQuery.Proofs.Compiler.Failing
import CalendarQuery.Proofs.Compiler.Context
import CalendarQuery.Proofs.Time.Bound
import CalendarQuery.Proofs.Text.Scanner
import CalendarQuery.Proofs.Toml.Text
import CalendarQuery.Proofs.Toml.Number
import CalendarQuery.Proofs.Toml.Document
import CalendarQuery.Proofs.Limits.Settings
import CalendarQuery.Proofs.CommandLine.Profile
import CalendarQuery.Proofs.Files.Tree
import CalendarQuery.Proofs.CommandLine.Content
import CalendarQuery.Proofs.CommandLine.Place
import CalendarQuery.Proofs.CommandLine.Setting
import CalendarQuery.Proofs.Hierarchy.Blocks
import CalendarQuery.Proofs.Hierarchy.Children
import CalendarQuery.Proofs.Compiler.Narrowing
import CalendarQuery.Proofs.Filter.Plain
import CalendarQuery.Proofs.Comparison.Plain
import CalendarQuery.Proofs.Comparison.Legible
import CalendarQuery.Proofs.Expression.Brackets
import CalendarQuery.Proofs.Expression.Nesting
import CalendarQuery.Proofs.Compiler.Nesting
import CalendarQuery.Proofs.Compiler.Layers
import CalendarQuery.Proofs.Comparison.WordList
import CalendarQuery.Proofs.Compiler.WordList
import CalendarQuery.Proofs.Compiler.CallStack
import CalendarQuery.Proofs.Compiler.Evaluation
import CalendarQuery.Proofs.Token.Pairing
import CalendarQuery.Proofs.Token.Places
import CalendarQuery.Proofs.Expression.Pairing
import CalendarQuery.Proofs.Compiler.Diagnostics
import CalendarQuery.Proofs.Property.Spelling
import CalendarQuery.Proofs.Sort.Grammar
import CalendarQuery.Proofs.Sort.Text
import CalendarQuery.Proofs.Filter.Grouping
import CalendarQuery.Proofs.Token.Quotation
import CalendarQuery.Proofs.Token.Lookahead
import CalendarQuery.Proofs.Token.Uses
import CalendarQuery.Proofs.Expression.StackDiscipline
import CalendarQuery.Proofs.Comparison.Uses
import CalendarQuery.Proofs.Expression.Trace
import CalendarQuery.Proofs.Compiler.Stacks
import CalendarQuery.Proofs.Compiler.Lookahead
import CalendarQuery.Proofs.Text.Numeral
import CalendarQuery.Proofs.Token.Number
import CalendarQuery.Proofs.Filter.Numbers
