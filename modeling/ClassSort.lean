import ClassSort.Activity.Basic
import ClassSort.Activity.CrashReport
import ClassSort.Candidate.Basic
import ClassSort.ClassList.Sort
import ClassSort.ClassList.Word
import ClassSort.ClassUnit.Basic
import ClassSort.ClassUnit.Edit
import ClassSort.CommandLine.Basic
import ClassSort.Config.Basic
import ClassSort.Config.Decode
import ClassSort.Config.Format
import ClassSort.Edit.Basic
import ClassSort.Error
import ClassSort.FileSystem.Basic
import ClassSort.Ignore.Glob
import ClassSort.Ignore.Rules
import ClassSort.Json.Printer
import ClassSort.Json.Reader
import ClassSort.Json.Value
import ClassSort.Language.Basic
import ClassSort.Main
import ClassSort.Markup.Attribute
import ClassSort.Markup.Units
import ClassSort.Number.Binary64
import ClassSort.Number.Decimal
import ClassSort.Order.Ranking
import ClassSort.Order.SortKey
import ClassSort.Path.Basic
import ClassSort.Project.Config
import ClassSort.Project.Discovery
import ClassSort.Project.Formatter
import ClassSort.Project.Resolver
import ClassSort.Project.Run
import ClassSort.Proofs.Conservation
import ClassSort.Proofs.DisjointUnits
import ClassSort.Proofs.Division
import ClassSort.Proofs.MarkupLayout
import ClassSort.Proofs.Slices
import ClassSort.Proofs.SortedList
import ClassSort.Proofs.StableSort
import ClassSort.Script.Attribute
import ClassSort.Script.Expr
import ClassSort.Script.Lexeme
import ClassSort.Script.Lexer
import ClassSort.Script.Reader
import ClassSort.Script.Scan
import ClassSort.Script.TypeReader
import ClassSort.Script.Units
import ClassSort.Stylesheet.AtKeyword
import ClassSort.Stylesheet.Params
import ClassSort.Text.Basic
import ClassSort.Text.Blank
import ClassSort.Toml.Quoted
import ClassSort.Toml.Reader
import ClassSort.Toml.Scalar
import ClassSort.Toml.Table
import ClassSort.Vocabulary.Basic
import ClassSort.Vocabulary.Catalogue
import ClassSort.Vocabulary.Rule
import ClassSort.Vocabulary.Scale
import ClassSort.Vocabulary.Screen
import ClassSort.Vocabulary.Theme
import ClassSort.Vocabulary.VariantTable
import ClassSort.Proofs.MarkupSorting
import ClassSort.Proofs.LexemeStack
import ClassSort.Proofs.Nesting
import ClassSort.Proofs.ReaderBlocks
import ClassSort.Proofs.ScriptUnits
import ClassSort.Proofs.UnitOverlap
import ClassSort.Proofs.CanonicalOrder
import ClassSort.Proofs.SearchOrder
import ClassSort.Proofs.VariantBits
import ClassSort.Proofs.VocabularyExtension
import ClassSort.Proofs.ExpressionValue
import ClassSort.Proofs.Concatenation
import ClassSort.Proofs.ConfigSearch
import ClassSort.Proofs.PlainPaths
import ClassSort.Proofs.ResolverMemory
import ClassSort.Proofs.ResolverSessions
import ClassSort.Proofs.CommentedParams
import ClassSort.Proofs.ConfigAbove
import ClassSort.Proofs.Overwriting
import ClassSort.Proofs.RunIsolation
import ClassSort.Proofs.UnitPlaces
import ClassSort.Proofs.TemplateHoles
import ClassSort.Proofs.KeptKeywords
import ClassSort.Proofs.BindingOffsets
import ClassSort.Proofs.BinaryNumbers
import ClassSort.Proofs.Replacements
import ClassSort.Proofs.EntryOrder
import ClassSort.Proofs.WrittenKeys
import ClassSort.Proofs.VariantRegistration
import ClassSort.Proofs.TopLevelSplit
import ClassSort.Proofs.CandidateGrammar
import ClassSort.Proofs.RankedSpellings
import ClassSort.Proofs.NegatedBases
import ClassSort.Proofs.FamilySwitches
import ClassSort.Proofs.ParamsEnd
import ClassSort.Proofs.ImportantFlag
import ClassSort.Proofs.ConfigDocuments
import ClassSort.Proofs.NestedNotes
import ClassSort.Proofs.TokenRuns
import ClassSort.Proofs.ColorOpacity
