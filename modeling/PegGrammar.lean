import PegGrammar.Data
import PegGrammar.Expectation
import PegGrammar.Expr.Basic
import PegGrammar.Expr.Combinators
import PegGrammar.Expr.Printer
import PegGrammar.Fault
import PegGrammar.Grammar.Basic
import PegGrammar.Grammar.Discovery
import PegGrammar.Grammar.Draft
import PegGrammar.Grammar.Printer
import PegGrammar.Match.Cursor
import PegGrammar.Match.Engine
import PegGrammar.Match.Event
import PegGrammar.Match.Stats
import PegGrammar.Parse.Basic
import PegGrammar.Parse.Error
import PegGrammar.Parse.Report
import PegGrammar.RuleId
import PegGrammar.Snapshot.Location
import PegGrammar.Snapshot.Session
import PegGrammar.Snapshot.Tester
import PegGrammar.Text.Bytes
import PegGrammar.Text.LineIndex
import PegGrammar.Text.Printable
import PegGrammar.Text.Quoted
import PegGrammar.Text.Span
import PegGrammar.Text.Window
import PegGrammar.Tree.Basic
import PegGrammar.Tree.Codec
import PegGrammar.Tree.Dump
import PegGrammar.Tree.Walk
import PegGrammar.Proofs.Closed
import PegGrammar.Proofs.EngineRuns
import PegGrammar.Proofs.Position
import PegGrammar.Proofs.Reach
import PegGrammar.Proofs.Depth
import PegGrammar.Proofs.EntryPoints
import PegGrammar.Proofs.Recognition
import PegGrammar.Proofs.RecognitionRuns
import PegGrammar.Proofs.Termination
import PegGrammar.Proofs.Cover
import PegGrammar.Proofs.Lines
import PegGrammar.Proofs.Safety
import PegGrammar.Proofs.Tiling
import PegGrammar.Proofs.Observation
import PegGrammar.Proofs.Conformance
import PegGrammar.Proofs.Subexpressions
import PegGrammar.Proofs.Histories
import PegGrammar.Proofs.Building
import PegGrammar.Proofs.WrittenForm
import PegGrammar.Proofs.UniqueReading
import PegGrammar.Proofs.Alike
import PegGrammar.Proofs.RenderMeaning
import PegGrammar.Proofs.Nesting
import PegGrammar.Proofs.Laws
import PegGrammar.Proofs.Rewriting
import PegGrammar.Proofs.Replay
import PegGrammar.Proofs.Translation
import PegGrammar.Proofs.Discovery
import PegGrammar.Proofs.Slices
import PegGrammar.Proofs.Counters
import PegGrammar.Proofs.OpenCalls
import PegGrammar.Proofs.Blame
import PegGrammar.Proofs.DepthFirst
import PegGrammar.Proofs.LineScan
import PegGrammar.Proofs.QuotedReading
import PegGrammar.Proofs.DumpReading
import PegGrammar.Proofs.NormalForm
import PegGrammar.Proofs.Surroundings
import PegGrammar.Proofs.RuleTexts
import PegGrammar.Proofs.Lists
import PegGrammar.Proofs.Places
import PegGrammar.Proofs.Renderings
import PegGrammar.Proofs.SnapshotHistories
import PegGrammar.Proofs.Traversal
import PegGrammar.Proofs.TraceReading
import PegGrammar.Proofs.Serialisation
