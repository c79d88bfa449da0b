import EarleyTree.Candid.BlockComment
import EarleyTree.Candid.Grammar
import EarleyTree.CommandLine
import EarleyTree.Grammar.Basic
import EarleyTree.Grammar.Combinators
import EarleyTree.Grammar.Document
import EarleyTree.Grammar.Rule
import EarleyTree.Grammar.Validation
import EarleyTree.Json.Basic
import EarleyTree.Language.Basic
import EarleyTree.Language.Compilation
import EarleyTree.Language.Tables
import EarleyTree.Lexing.Lexer
import EarleyTree.Lexing.Scanner
import EarleyTree.Main
import EarleyTree.Parsing.Chart
import EarleyTree.Parsing.Derivation
import EarleyTree.Parsing.Parser
import EarleyTree.Pattern.CaseFolding
import EarleyTree.Pattern.CharClass
import EarleyTree.Pattern.CharSet
import EarleyTree.Pattern.Matching
import EarleyTree.Pattern.Properties
import EarleyTree.Pattern.Reading
import EarleyTree.Pattern.Regex
import EarleyTree.Pattern.WordTables
import EarleyTree.Proofs.Language.Kinds
import EarleyTree.Proofs.Language.Compiled
import EarleyTree.Text.Category
import EarleyTree.Text.CodeRange
import EarleyTree.Text.Edit
import EarleyTree.Text.Position
import EarleyTree.Text.Quoted
import EarleyTree.Text.Utf8
import EarleyTree.Tree.Basic
import EarleyTree.Tree.Changes
import EarleyTree.Tree.Cursor
import EarleyTree.Tree.Node
import EarleyTree.Tree.Subtree
import EarleyTree.Proofs.Language.Nullable
import EarleyTree.Proofs.Language.Words
import EarleyTree.Proofs.Language.Places
import EarleyTree.Proofs.Language.Flattening
import EarleyTree.Proofs.Tree.Skeleton
import EarleyTree.Proofs.Parsing.Forest
import EarleyTree.Proofs.Parsing.Sentential
import EarleyTree.Proofs.Parsing.Closure
import EarleyTree.Proofs.Parsing.Recognition
import EarleyTree.Proofs.Parsing.Exactness
import EarleyTree.Proofs.Parsing.Run
import EarleyTree.Proofs.Parsing.FreshChart
import EarleyTree.Proofs.Parsing.Image
import EarleyTree.Proofs.Parsing.Extraction
import EarleyTree.Proofs.Parsing.AcceptedTree
import EarleyTree.Proofs.Parsing.Reuse
import EarleyTree.Proofs.Tree.Filling
import EarleyTree.Proofs.Parsing.Positions
import EarleyTree.Proofs.Parsing.Refinement
import EarleyTree.Proofs.Language.RuleRows
import EarleyTree.Proofs.Lexing.Bounds
import EarleyTree.Proofs.Parsing.Progress
import EarleyTree.Proofs.Parsing.Roots
import EarleyTree.Proofs.Parsing.Spans
import EarleyTree.Proofs.Parsing.Trace
import EarleyTree.Proofs.Tree.Insertion
import EarleyTree.Proofs.Tree.Tips
import EarleyTree.Proofs.Parsing.TokenLeaves
import EarleyTree.Proofs.Tree.Nesting
import EarleyTree.Proofs.Parsing.TreeNesting
import EarleyTree.Proofs.Parsing.Edits
import EarleyTree.Proofs.Parsing.Advance
import EarleyTree.Proofs.Parsing.Standstill
import EarleyTree.Proofs.Language.Closed
import EarleyTree.Proofs.Text.Splices
import EarleyTree.Proofs.Tree.Editing
import EarleyTree.Proofs.Tree.Errors
import EarleyTree.Proofs.Parsing.Building
import EarleyTree.Proofs.Parsing.Errors
import EarleyTree.Proofs.Parsing.ReusedText
import EarleyTree.Proofs.Parsing.Marks
import EarleyTree.Proofs.Language.StepLogic
import EarleyTree.Proofs.Language.Integrity
import EarleyTree.Proofs.Parsing.Immediate
import EarleyTree.Proofs.Lexing.Scanning
import EarleyTree.Proofs.Parsing.ShownKinds
import EarleyTree.Proofs.Lexing.Scans
import EarleyTree.Proofs.Parsing.ScannerState
import EarleyTree.Proofs.Parsing.TokenChoice
import EarleyTree.Proofs.Parsing.Ranking
import EarleyTree.Proofs.Checked.Parser
import EarleyTree.Proofs.Candid.BlockComment
import EarleyTree.Proofs.Candid.Numbers
import EarleyTree.Proofs.Language.Literals
import EarleyTree.Proofs.Lexing.LongestMatch
import EarleyTree.Proofs.Lexing.Cuts
import EarleyTree.Proofs.Checked.Tokens
import EarleyTree.Proofs.Lexing.Partition
import EarleyTree.Proofs.Lexing.AfterExtras
import EarleyTree.Proofs.Text.Translation
import EarleyTree.Proofs.Text.Decoding
import EarleyTree.Proofs.Parsing.NodeTexts
import EarleyTree.Proofs.Tree.ChangedRanges
import EarleyTree.Proofs.Parsing.ActiveStretches
import EarleyTree.Proofs.Language.TokenLogic
import EarleyTree.Proofs.Language.TokenLevels
import EarleyTree.Proofs.Pattern.Spelling
import EarleyTree.Proofs.Pattern.Fronts
import EarleyTree.Proofs.Pattern.Sources
import EarleyTree.Proofs.Language.TokenBodies
import EarleyTree.Proofs.Pattern.Locality
import EarleyTree.Proofs.Pattern.ClassLocality
import EarleyTree.Proofs.Pattern.Actions
import EarleyTree.Proofs.Pattern.Grouping
import EarleyTree.Proofs.Pattern.Anchored
import EarleyTree.Proofs.Pattern.Backtracking
import EarleyTree.Proofs.Pattern.LongestTexts
import EarleyTree.Proofs.Language.TokenRuns
import EarleyTree.Proofs.Language.TokenSources
import EarleyTree.Proofs.Language.Anchors
import EarleyTree.Proofs.Language.Resolution
import EarleyTree.Proofs.Language.KindIds
import EarleyTree.Proofs.Grammar.Tagging
import EarleyTree.Proofs.Grammar.Ordering
import EarleyTree.Proofs.Grammar.Reachability
import EarleyTree.Proofs.Tree.Cursors
import EarleyTree.Proofs.Tree.Writing
import EarleyTree.Proofs.Parsing.NamedNodes
import EarleyTree.Proofs.Tree.ByteRanges
import EarleyTree.Proofs.Tree.Depths
import EarleyTree.Proofs.Parsing.EmptyDerivations
import EarleyTree.Proofs.Parsing.Phases
import EarleyTree.Proofs.Parsing.Numbering
import EarleyTree.Proofs.Parsing.Identities
