import TidyTuples.Sql.Planner
import TidyTuples.Ir.DeadCode

/-!
# From a query to its code (`sql_runner.cpp`)
-/

namespace TidyTuples

/-- `ctx.program.beginFunction("sql_query", IRType::Void, {})`. -/
def queryProgram : IRProgram := (IRProgram.beginFunction {} "sql_query" .void []).2

/-- `plan.root->produce(&printer); ctx.program.addReturn();` with the printer at `self`. -/
def generateCode (root : Operator) (self : Word) (outputIUs : List IU) : Gen Unit := do
  root.produce (printConsume self outputIUs)
  let _ ← Gen.addReturn

/-- The steps of `runQuery` from the syntax tree to the IR. -/
def compileStmt (alloc : Nat → Word) (catalog : SQLCatalog) (self : Word) (stmt : SelectStmt) :
    Gen PlanResult := do
  let plan ← QueryPlanner.plan alloc catalog stmt
  generateCode plan.root self plan.outputIUs
  return plan

/-- The compilation context `runQuery` starts from. -/
def initialContext (heap : Heap) : CompilationContext := ⟨queryProgram, heap, 0, 0⟩

end TidyTuples
