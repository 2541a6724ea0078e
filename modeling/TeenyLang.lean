import TeenyLang.CommandLine.Run
import TeenyLang.Main
import TeenyLang.Parser.Call
import TeenyLang.Session
import TeenyLang.Proofs.Grammar
import TeenyLang.Proofs.Names
import TeenyLang.Proofs.Record
import TeenyLang.Proofs.Lookahead
import TeenyLang.Proofs.Outcome
import TeenyLang.Proofs.ExpressionRun
import TeenyLang.Proofs.Descent
import TeenyLang.Proofs.StatementRun
import TeenyLang.Proofs.ControlPoints
import TeenyLang.Proofs.AgendaRuns
import TeenyLang.Proofs.TokenLanguages
import TeenyLang.Proofs.PassedTexts
import TeenyLang.Proofs.StatementTree
import TeenyLang.Proofs.SourceTokens
import TeenyLang.Proofs.Acceptance
import TeenyLang.Proofs.LexicalGrammar
import TeenyLang.Proofs.Tokenization
import TeenyLang.Proofs.CText
import TeenyLang.Proofs.CExpression
import TeenyLang.Proofs.ExpressionReading
import TeenyLang.Proofs.ExpressionValue
import TeenyLang.Proofs.ConditionValue
import TeenyLang.Proofs.Meaning
import TeenyLang.Proofs.Correspondence
import TeenyLang.Proofs.Replay
import TeenyLang.Proofs.CGrammar
import TeenyLang.Proofs.EmittedExpression
import TeenyLang.Proofs.OutputLines
import TeenyLang.Proofs.PrintedText
import TeenyLang.Proofs.LineTokens
import TeenyLang.Proofs.LineNames
import TeenyLang.Proofs.Scoping
import TeenyLang.Proofs.Steps
import TeenyLang.Proofs.CallHistory
import TeenyLang.Proofs.NameFaults
import TeenyLang.Proofs.ShownLine
import TeenyLang.Proofs.Foresight
import TeenyLang.Proofs.SyntaxErrors
import TeenyLang.Proofs.LineSeam
import TeenyLang.Proofs.Relocation
import TeenyLang.Proofs.Composition
import TeenyLang.Proofs.LikeRuns
import TeenyLang.Proofs.Continuation
import TeenyLang.Proofs.Utf8
import TeenyLang.Proofs.PathText
import TeenyLang.Proofs.FileSystem
import TeenyLang.Proofs.LineEnds
import TeenyLang.Proofs.LoneReturns
import TeenyLang.Proofs.CommandRun
import TeenyLang.Proofs.Layout
import TeenyLang.Proofs.SessionResults
import TeenyLang.Proofs.OutputName
import TeenyLang.Proofs.InputKept
import TeenyLang.Proofs.ScannerHistory
import TeenyLang.Proofs.SpelledSource
import TeenyLang.Proofs.WindowsLines
import TeenyLang.Proofs.InputEnd
import TeenyLang.Proofs.OpenBlocks
import TeenyLang.Proofs.Stopping
import TeenyLang.Proofs.MatchedBlocks
import TeenyLang.Proofs.Suggestions
import TeenyLang.Proofs.Numerals
import TeenyLang.Proofs.Quoting
import TeenyLang.Proofs.TokenDump
import TeenyLang.Proofs.QuestionMarks
