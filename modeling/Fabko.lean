import Fabko.Logic.Moves
import Fabko.Sat.DimacsFormat
import Fabko.Sat.FoundSolution
import Fabko.Sat.Undo
import Fabko.Sat.Confluence
import Fabko.Sat.Invariants
import Fabko.Sat.Enumeration
import Fabko.Sat.Sessions
import Fabko.Sat.FirstUip
import Fabko.Agent.Acl
import Fabko.Compiler.Ir
import Fabko.Datastore.KvRocksdb
import Fabko.Datastore.Isolation
import Fabko.Sat.Statistics
import Fabko.Sat.Levels
import Fabko.Sat.Restarts
import Fabko.Sat.AnalysisSafety
import Fabko.Logic.Watched
import Fabko.Sat.Vsids
import Fabko.Sat.Watcher
import Fabko.Sat.DimacsHeader
import Fabko.Logic.Rup
import Fabko.Sat.Certificate
import Fabko.Sat.Bounds
import Fabko.Sat.Schedule
import Fabko.Sat.Calls
import Fabko.Sat.Command
import Fabko.Sat.Activities
import Fabko.Logic.Polarity
import Fabko.Sat.Polarity
import Fabko.Datastore.KvListing
import Fabko.Text.Numeral
import Fabko.Datastore.Counters
import Fabko.Datastore.ListedRuns
import Fabko.Compiler.IntegerSize
import Fabko.Text.Grammar
import Fabko.Compiler.Expression
import Fabko.Text.Parser
import Fabko.Compiler.Cst
import Fabko.Compiler.Program
