import StellaGo.Block
import StellaGo.Bracket
import StellaGo.Check
import StellaGo.Command
import StellaGo.CommandLine
import StellaGo.Comment
import StellaGo.Compile
import StellaGo.Diagnostic
import StellaGo.Expression
import StellaGo.Fault
import StellaGo.FileTree
import StellaGo.Glyph
import StellaGo.Go.Expression
import StellaGo.Go.Layout
import StellaGo.Go.Program
import StellaGo.Host
import StellaGo.Inference
import StellaGo.Line
import StellaGo.Literal
import StellaGo.Main
import StellaGo.Manifest
import StellaGo.Name
import StellaGo.Operator
import StellaGo.Path
import StellaGo.Placement
import StellaGo.Program
import StellaGo.Proofs.Braces
import StellaGo.Proofs.ControlFlow
import StellaGo.Proofs.Environment
import StellaGo.Proofs.GoText
import StellaGo.Proofs.LineFeeds
import StellaGo.Proofs.Mutability
import StellaGo.Proofs.Names
import StellaGo.Proofs.Operands
import StellaGo.Proofs.ParseTree
import StellaGo.Proofs.Pieces
import StellaGo.Proofs.Reading.Blocks
import StellaGo.Proofs.Reading.Statements
import StellaGo.Proofs.Reading.Terms
import StellaGo.Proofs.Reading.Values
import StellaGo.Proofs.Rendering
import StellaGo.Proofs.Results
import StellaGo.Proofs.Scoping
import StellaGo.Proofs.TextParts
import StellaGo.Proofs.TokenOrder
import StellaGo.Proofs.TreeTyping
import StellaGo.Proofs.WellTyped
import StellaGo.Requirements
import StellaGo.Scope
import StellaGo.Session
import StellaGo.Statement
import StellaGo.Statement.Header
import StellaGo.Statement.Simple
import StellaGo.Symbols
import StellaGo.Term
import StellaGo.Text
import StellaGo.Text.Decimal
import StellaGo.Token
import StellaGo.Toml.Document
import StellaGo.Toml.Library
import StellaGo.Toml.Quoted
import StellaGo.Toml.Scalar
import StellaGo.Toml.Value
import StellaGo.Toml.Writer
import StellaGo.ValueType
import StellaGo.Proofs.GoBraces
import StellaGo.Proofs.Layout
import StellaGo.Proofs.BracketGroups
import StellaGo.Proofs.BracketKinds
import StellaGo.Proofs.GeneratedNames
import StellaGo.Proofs.LineEnds
import StellaGo.Proofs.BlankLines
import StellaGo.Proofs.SourceEdits
import StellaGo.Proofs.GoLexer
import StellaGo.Proofs.TokenNames
import StellaGo.Proofs.GoTokens
import StellaGo.Proofs.TokenBoundaries
import StellaGo.Proofs.RequiredTypes
import StellaGo.Proofs.TokenReferences
import StellaGo.Proofs.PieceReferences
import StellaGo.Proofs.LineReferences
import StellaGo.Proofs.SelfContained
import StellaGo.Proofs.ByteSlices
import StellaGo.Proofs.ErrorLines
import StellaGo.Proofs.Labels
import StellaGo.Proofs.SameNames
import StellaGo.Proofs.FunctionBlocks
import StellaGo.Proofs.IndependentFunctions
import StellaGo.Proofs.ClosedTexts
import StellaGo.Proofs.RoundBrackets
import StellaGo.Proofs.Rescanning
import StellaGo.Proofs.Rereading
import StellaGo.Proofs.RoundTrip
import StellaGo.Proofs.Offsets.Outcome
import StellaGo.Proofs.Offsets.Text
import StellaGo.Proofs.Offsets.Tokens
import StellaGo.Proofs.Offsets.Inference
import StellaGo.Proofs.Offsets.Terms
import StellaGo.Proofs.Offsets.Values
import StellaGo.Proofs.Offsets.Statements
import StellaGo.Proofs.Offsets.Program
import StellaGo.Proofs.Offsets.Go
import StellaGo.Proofs.Grammar
import StellaGo.Proofs.SessionRuns
import StellaGo.Proofs.ManifestRoundTrip
import StellaGo.Proofs.QuotedStrings
import StellaGo.Proofs.TomlDocuments
import StellaGo.Proofs.TomlGrammar
import StellaGo.Proofs.FilePlaces
import StellaGo.Proofs.FileSteps
import StellaGo.Proofs.CommandFrames
import StellaGo.Proofs.InferenceFaults
import StellaGo.Proofs.Scanning
import StellaGo.Proofs.ZeroDivisors
import StellaGo.Proofs.IndexBounds
import StellaGo.Proofs.MarkedLiterals
import StellaGo.Proofs.CommentStarts
import StellaGo.Proofs.SpelledPieces
import StellaGo.Proofs.Decimals
import StellaGo.Proofs.GoLiterals
import StellaGo.Proofs.TypeSpelling
import StellaGo.Proofs.TypeGrammar
import StellaGo.Proofs.Grouping
import StellaGo.Proofs.PartReaders
import StellaGo.Proofs.Places
import StellaGo.Proofs.GroupedPlaces
import StellaGo.Proofs.LineFaults
import StellaGo.Proofs.Relayout
import StellaGo.Proofs.ScannedGroups
import StellaGo.Proofs.Splitting
import StellaGo.Proofs.BlockEnds
import StellaGo.Proofs.NestedBlocks
