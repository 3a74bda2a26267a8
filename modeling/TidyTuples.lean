import TidyTuples.Sql.Grammar
import TidyTuples.Sql.Parser
import TidyTuples.Ir.DeadCode
import TidyTuples.Sql.Runner
import TidyTuples.Proofs.Parsing
import TidyTuples.Proofs.Printing
import TidyTuples.Proofs.DeadCode
import TidyTuples.Proofs.ControlFlow
import TidyTuples.Proofs.Correctness
import TidyTuples.Proofs.JoinWidths
import TidyTuples.Proofs.Scoping
import TidyTuples.Proofs.EquiAnswers
import TidyTuples.Proofs.Builders
import TidyTuples.Proofs.Multimap
import TidyTuples.Proofs.CsvLoading
import TidyTuples.Proofs.BlockOrder
import TidyTuples.Proofs.Folding
import TidyTuples.Proofs.Resolution
import TidyTuples.Proofs.SelectStar
import TidyTuples.Proofs.JoinedEntries
import TidyTuples.Proofs.KeptConjuncts
import TidyTuples.Proofs.DeadChains
import TidyTuples.Proofs.DanglingOperands
import TidyTuples.Proofs.IfScopes
import TidyTuples.Proofs.InstrArray
import TidyTuples.Proofs.DecodedPrograms
import TidyTuples.Proofs.RuntimeCalls
import TidyTuples.Proofs.Reordering
import TidyTuples.Proofs.Qualifying
import TidyTuples.Proofs.Interning
import TidyTuples.Proofs.Quoting
import TidyTuples.Proofs.Scanning
import TidyTuples.Proofs.LoopVariables
import TidyTuples.Proofs.FoldingRange
import TidyTuples.Proofs.OperatorTrees
import TidyTuples.Proofs.TwoHosts
import TidyTuples.Proofs.TuplePacking
import TidyTuples.Proofs.SessionQueries
