import RubySig.Ancestry
import RubySig.Ancestry.Table
import RubySig.Bundled
import RubySig.Bundled.Collections
import RubySig.Bundled.File
import RubySig.Bundled.Objects
import RubySig.Bundled.Values
import RubySig.Declaration
import RubySig.Declaration.Encode
import RubySig.Definition
import RubySig.Diagnostic
import RubySig.Diagnostic.Excerpt
import RubySig.Diagnostic.Margin
import RubySig.EntityKind
import RubySig.Environment
import RubySig.Environment.Merge
import RubySig.Json
import RubySig.Name
import RubySig.Nesting
import RubySig.OrderedMap
import RubySig.Parser.Cursor
import RubySig.Parser.File
import RubySig.Parser.Lexeme
import RubySig.Parser.Members
import RubySig.Parser.Types
import RubySig.Proofs.Ancestry.Agreement
import RubySig.Proofs.Ancestry.Bindings
import RubySig.Proofs.Ancestry.Closed
import RubySig.Proofs.Ancestry.Cycles
import RubySig.Proofs.Ancestry.Entries
import RubySig.Proofs.Ancestry.Graph
import RubySig.Proofs.Ancestry.Memo
import RubySig.Proofs.Ancestry.Pieces
import RubySig.Proofs.Ancestry.Reach
import RubySig.Proofs.Ancestry.Reading
import RubySig.Proofs.Ancestry.Recursion
import RubySig.Proofs.Ancestry.Sites
import RubySig.Proofs.Definition.Agreement
import RubySig.Proofs.Definition.Capture
import RubySig.Proofs.Definition.Inclusion
import RubySig.Proofs.Definition.Inheritance
import RubySig.Proofs.Definition.Lookup
import RubySig.Proofs.Definition.Nearest
import RubySig.Proofs.Definition.Overloads
import RubySig.Proofs.Definition.Repetition
import RubySig.Proofs.Definition.Respelling
import RubySig.Proofs.Definition.Table
import RubySig.Proofs.Environment.Insertion
import RubySig.Proofs.Environment.LoadOrder
import RubySig.Proofs.Environment.Merge
import RubySig.Proofs.Environment.Partition
import RubySig.Proofs.Environment.Places
import RubySig.Proofs.Environment.Scope
import RubySig.Proofs.OrderedMap
import RubySig.Proofs.Parser.BodyCut
import RubySig.Proofs.Parser.BodyNesting
import RubySig.Proofs.Parser.BodyScope
import RubySig.Proofs.Parser.BodySites
import RubySig.Proofs.Parser.Budgets
import RubySig.Proofs.Parser.CallableReads
import RubySig.Proofs.Parser.Cut
import RubySig.Proofs.Parser.Ensures
import RubySig.Proofs.Parser.NameReads
import RubySig.Proofs.Parser.OperatorReads
import RubySig.Proofs.Parser.Reads
import RubySig.Proofs.Parser.RoundTrip
import RubySig.Proofs.Parser.SimpleReads
import RubySig.Proofs.Parser.Takes
import RubySig.Proofs.Parser.TypeCut
import RubySig.Proofs.Parser.TypeScope
import RubySig.Proofs.Parser.TypeSites
import RubySig.Proofs.Parser.TypeSpelling
import RubySig.Proofs.Parser.Yields
import RubySig.Proofs.Resolution
import RubySig.Proofs.Substitution.Composition
import RubySig.Proofs.Substitution.Renaming
import RubySig.Proofs.Substitution.Variables
import RubySig.Proofs.Token.Kinds
import RubySig.Proofs.Token.Openness
import RubySig.Proofs.Token.Starts
import RubySig.Proofs.Token.Texts
import RubySig.Proofs.Token.Words
import RubySig.Proofs.TypeExpr.Children
import RubySig.Proofs.TypeExpr.Members
import RubySig.Proofs.TypeExpr.Params
import RubySig.Proofs.TypeExpr.Printed
import RubySig.Proofs.TypeExpr.Scope
import RubySig.Proofs.TypeExpr.Spans
import RubySig.Proofs.TypeExpr.Spelled
import RubySig.Proofs.Validation.Exact
import RubySig.Proofs.Validation.Occurrences
import RubySig.Proofs.Validation.References
import RubySig.Proofs.Validation.Resolved
import RubySig.Proofs.Validation.Silence
import RubySig.Proofs.Validation.Soundness
import RubySig.Resolution
import RubySig.Session
import RubySig.Source
import RubySig.Substitution
import RubySig.Text.CharClass
import RubySig.Text.Position
import RubySig.Text.Width
import RubySig.Token
import RubySig.Token.Lexer
import RubySig.Token.Pattern
import RubySig.TypeExpr
import RubySig.TypeExpr.Printer
import RubySig.TypeExpr.Traversal
import RubySig.Validation
import RubySig.Proofs.Ancestry.Respanned
import RubySig.Proofs.Environment.CounterpartMerge
import RubySig.Proofs.Environment.Reopening
import RubySig.Proofs.Parser.BodyLockstep
import RubySig.Proofs.Parser.FileLockstep
import RubySig.Proofs.Ancestry.Lineage
import RubySig.Proofs.Validation.Degradation
import RubySig.Proofs.Validation.SuperClasses
import RubySig.Proofs.Layout.Bodies
import RubySig.Proofs.Layout.Files
import RubySig.Proofs.Definition.AliasOrder
import RubySig.Proofs.Ancestry.SingletonScope
import RubySig.Proofs.Parser.PrintedTypes
import RubySig.Proofs.Parser.BoundTypes
import RubySig.Proofs.Parser.TypeDepth
import RubySig.Proofs.Parser.WrittenParams
import RubySig.Proofs.Parser.SyntaxErrors
import RubySig.Proofs.Parser.Faultless
import RubySig.Proofs.Parser.FileSpans
import RubySig.Proofs.Validation.Aliases
import RubySig.Proofs.Validation.Arguments
import RubySig.Proofs.Validation.Duplicates
import RubySig.Proofs.Validation.Interfaces
import RubySig.Proofs.Substitution.Laws
import RubySig.Proofs.Definition.Implementation
import RubySig.Proofs.Token.LongestMatch
import RubySig.Proofs.Name.Agreement
import RubySig.Proofs.Ancestry.Rounds
import RubySig.Proofs.Parser.Encoding
import RubySig.Proofs.Text.Position
import RubySig.Proofs.TypeExpr.Orders
