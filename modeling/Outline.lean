import Outline.CommandLine.Arguments
import Outline.CommandLine.Basic
import Outline.CommandLine.Snapshot
import Outline.Declaration.Basic
import Outline.Declaration.Discovery
import Outline.Declaration.Head
import Outline.Declaration.Kind
import Outline.FileTree.Basic
import Outline.FileTree.Changes
import Outline.FileTree.Glob
import Outline.FileTree.IgnoreRule
import Outline.FileTree.Path
import Outline.FileTree.SourceFile
import Outline.FileTree.Walk
import Outline.Language.Basic
import Outline.Language.CSharp
import Outline.Language.Java
import Outline.Language.Keyword
import Outline.Language.TypeScript
import Outline.Main
import Outline.Member.Annotation
import Outline.Member.EnumMemberMachine
import Outline.Member.Extractor
import Outline.Member.FieldMachine
import Outline.Member.ImportMachine
import Outline.Member.MethodMachine
import Outline.Member.Owner
import Outline.Member.Parameter
import Outline.Member.TypeMachine
import Outline.Output.Data
import Outline.Output.Destination
import Outline.Output.File
import Outline.Output.Format
import Outline.Output.Json
import Outline.Output.Record
import Outline.Output.Yaml
import Outline.Output.Yaml.Scalar
import Outline.Project.Basic
import Outline.Project.NameMap
import Outline.Project.Resolution
import Outline.Project.Symbols
import Outline.Proofs.Declaration.Bodiless
import Outline.Proofs.Declaration.Collecting
import Outline.Proofs.Declaration.Forest
import Outline.Proofs.Declaration.ForestReading
import Outline.Proofs.Declaration.HeadPlaces
import Outline.Proofs.Declaration.HeadReading
import Outline.Proofs.Declaration.HeadReports
import Outline.Proofs.Declaration.Headings
import Outline.Proofs.Declaration.Malformed
import Outline.Proofs.Declaration.Naming
import Outline.Proofs.Declaration.Nesting
import Outline.Proofs.Declaration.Reports
import Outline.Proofs.Declaration.Segments
import Outline.Proofs.Declaration.Sites
import Outline.Proofs.FileTree.Paths
import Outline.Proofs.FileTree.SourceFiles
import Outline.Proofs.FileTree.Writing
import Outline.Proofs.Import.Exact
import Outline.Proofs.Import.Grammar
import Outline.Proofs.Import.Reading
import Outline.Proofs.Import.Targets
import Outline.Proofs.Member.Alone
import Outline.Proofs.Member.Beginnings
import Outline.Proofs.Member.BehindMarks
import Outline.Proofs.Member.Comments
import Outline.Proofs.Member.Disjoint
import Outline.Proofs.Member.EnumMemberOffer
import Outline.Proofs.Member.FieldOffer
import Outline.Proofs.Member.HeadSteps
import Outline.Proofs.Member.LastToken
import Outline.Proofs.Member.LosingSteps
import Outline.Proofs.Member.Malformed
import Outline.Proofs.Member.MethodOffer
import Outline.Proofs.Member.ModifierRuns
import Outline.Proofs.Member.Modifiers
import Outline.Proofs.Member.Offers
import Outline.Proofs.Member.Overlap
import Outline.Proofs.Member.ReportedTokens
import Outline.Proofs.Member.Reports
import Outline.Proofs.Member.Retry
import Outline.Proofs.Member.RunSteps
import Outline.Proofs.Member.Tracking
import Outline.Proofs.Member.TypeSteps
import Outline.Proofs.Member.TypeWalk
import Outline.Proofs.Output.Files
import Outline.Proofs.Project.Access
import Outline.Proofs.Project.Additions
import Outline.Proofs.Project.Conflicts
import Outline.Proofs.Project.Erasure
import Outline.Proofs.Project.Gaps
import Outline.Proofs.Project.Meaning
import Outline.Proofs.Project.Order
import Outline.Proofs.Project.Parts
import Outline.Proofs.Project.Places
import Outline.Proofs.Project.References
import Outline.Proofs.Project.Table
import Outline.Proofs.Relayout.Blanks
import Outline.Proofs.Relayout.Declarations
import Outline.Proofs.Relayout.Documents
import Outline.Proofs.Relayout.Heads
import Outline.Proofs.Relayout.Literals
import Outline.Proofs.Relayout.Machines
import Outline.Proofs.Relayout.Matching
import Outline.Proofs.Relayout.Members
import Outline.Proofs.Relayout.Relaid
import Outline.Proofs.Relayout.Scanning
import Outline.Proofs.Relayout.Spaces
import Outline.Proofs.Relayout.Spelling
import Outline.Proofs.Relayout.Squeezed
import Outline.Proofs.Statistics.Groups
import Outline.Proofs.Statistics.Lines
import Outline.Proofs.Text.Pieces
import Outline.Proofs.Text.Positions
import Outline.Proofs.Token.Cutting
import Outline.Proofs.Token.Failures
import Outline.Proofs.Token.Grammar
import Outline.Proofs.Token.Growth
import Outline.Proofs.Token.Index
import Outline.Proofs.Token.Layout
import Outline.Proofs.Token.Locality
import Outline.Proofs.Token.OffsetWalk
import Outline.Proofs.Token.Offsets
import Outline.Proofs.Token.Quotes
import Outline.Proofs.Token.Reading
import Outline.Proofs.Token.Rooted
import Outline.Proofs.Token.Scanning
import Outline.Proofs.Tree.Built
import Outline.Proofs.Tree.Linked
import Outline.Proofs.Tree.Transformed
import Outline.Proofs.Tree.Walks
import Outline.Proofs.TypeParams.Heads
import Outline.Proofs.TypeParams.Lists
import Outline.Proofs.TypeParams.Methods
import Outline.Proofs.TypeParams.Recognized
import Outline.Proofs.TypeParams.Signatures
import Outline.Proofs.TypeRef.BracketTree
import Outline.Proofs.TypeRef.Brackets
import Outline.Proofs.TypeRef.Digits
import Outline.Proofs.TypeRef.Markers
import Outline.Proofs.TypeRef.OwnLists
import Outline.Proofs.TypeRef.Printing
import Outline.Proofs.TypeRef.Reading
import Outline.Proofs.TypeRef.RoundTrip
import Outline.Proofs.TypeRef.Spelled
import Outline.Proofs.TypeRef.SpelledReading
import Outline.Proofs.Unit.Reading
import Outline.Proofs.Written.Behind
import Outline.Proofs.Written.Between
import Outline.Proofs.Written.CalmRuns
import Outline.Proofs.Written.ConstantRivals
import Outline.Proofs.Written.ConstantSteps
import Outline.Proofs.Written.Constants
import Outline.Proofs.Written.ConstantsExact
import Outline.Proofs.Written.Exact
import Outline.Proofs.Written.Feeding
import Outline.Proofs.Written.FieldBodies
import Outline.Proofs.Written.FieldSteps
import Outline.Proofs.Written.Grammar
import Outline.Proofs.Written.Initializers
import Outline.Proofs.Written.Leads
import Outline.Proofs.Written.Marks
import Outline.Proofs.Written.MethodBodies
import Outline.Proofs.Written.MethodSteps
import Outline.Proofs.Written.Parameters
import Outline.Proofs.Written.Remnants
import Outline.Proofs.Written.RestPoints
import Outline.Proofs.Written.Tokens
import Outline.Proofs.Written.Words
import Outline.Run.Basic
import Outline.Run.Reading
import Outline.Run.Standard
import Outline.Settings.Basic
import Outline.Settings.Document
import Outline.Source
import Outline.Statistics.Basic
import Outline.Statistics.Lines
import Outline.Text.Alphabetic
import Outline.Text.Blank
import Outline.Text.CodePoints
import Outline.Text.Literal
import Outline.Text.NumberLike
import Outline.Text.Printable
import Outline.Text.Quoted
import Outline.Text.Split
import Outline.Token.Basic
import Outline.Token.Group
import Outline.Token.Identifier
import Outline.Token.Reading
import Outline.Token.Recognizer
import Outline.Toml.Lexeme
import Outline.Toml.Value
import Outline.Tree.Basic
import Outline.Tree.Rose
import Outline.TypeRef.Basic
import Outline.TypeRef.Parse
import Outline.Unit.Basic
import Outline.Unit.Metrics
