import TidyTuples.Sql.Parser
import TidyTuples.Sql.Runner
import TidyTuples.Backend.FlyingStart

/-!
# Running a query (`runQuery` in `sql_runner.cpp`)
-/

namespace TidyTuples

structure QueryResult where
  columnNames : List String
  rows : List (List Word)
deriving DecidableEq, Repr

/-- The node that `printOperatorTree` shows for an operator. -/
inductive ExplainTree
  | scan (tableName : String) (numOutputIUs : Nat)
  | select (child : ExplainTree)
  | hashJoin (numBuildKeys : Nat) (buildSide probeSide : ExplainTree)
deriving DecidableEq, Repr

def printOperatorTree : Operator → ExplainTree
  | .scan s => .scan s.table.name s.colIUs.length
  | .select _ child _ => .select (printOperatorTree child)
  | .hashJoin _ buildSide probeSide buildKeys _ _ =>
    .hashJoin buildKeys.length (printOperatorTree buildSide) (printOperatorTree probeSide)

structure ExplainOptions where
  showTree : Bool := false
  showTT : Bool := false
  showFS : Bool := false
deriving DecidableEq, Repr

/-- A section of what EXPLAIN prints; the statistics of the back end are left out. -/
inductive ExplainSection
  | operatorTree (root : ExplainTree) (outputColumns : List String)
  | umbraIR (program : IRProgram) (removed : Nat)
  | flyingStart (code : List VInstr)
deriving DecidableEq, Repr

/-- `PrintTranslator printer(ctx, plan.outputIUs)` at `self`: no row has been printed. -/
def Heap.newPrinter (heap : Heap) (self : Word) : Heap :=
  { heap with rows := Function.update heap.rows self [] }

/-- `qr.rows.resize(limit)` where there are more. -/
def applyLimit (limit : Word) (rows : List (List Word)) : List (List Word) :=
  if 0 ≤ limit.toInt ∧ limit.toInt < rows.length then rows.take limit.toInt.toNat else rows

/-- The machine code of `functions[0]`, as `backend.compile` hands it to the assembler. -/
def compiledCode (program : IRProgram) : Except CppError (List VInstr) :=
  match program.functions[0]? with
  | none => .error (.undefinedBehaviour "functions[0]")
  | some fn => .ok (Translator.translateFunction program fn)

/-- `instrsBefore` and `instrsAfter` -/
def numInstrs (program : IRProgram) : Nat :=
  (program.functions.flatMap (·.blocks)).foldl (fun n block => n + block.instructions.length) 0

/-- What `runQuery` prints for EXPLAIN, up to the step that fails. -/
def explainSections (alloc : Nat → Word) (catalog : SQLCatalog) (self : Word) (sql : String)
    (opts : ExplainOptions) (heap : Heap) : List ExplainSection :=
  match parseSQL sql with
  | .error _ => []
  | .ok stmt =>
    match QueryPlanner.plan alloc catalog stmt (initialContext (heap.newPrinter self)) with
    | .error _ => []
    | .ok (plan, ctx) =>
      (if opts.showTree then [.operatorTree (printOperatorTree plan.root) plan.columnNames] else []) ++
        match generateCode plan.root self plan.outputIUs ctx with
        | .error _ => []
        | .ok (_, ctx) =>
          let program := ctx.program.eliminateDeadCode
          (if opts.showTT then [.umbraIR program (numInstrs ctx.program - numInstrs program)] else []) ++
            match compiledCode program with
            | .error _ => []
            | .ok code => if opts.showFS then [.flyingStart code] else []

/-- `runQuery` for at most `fuel` jumps of the machine code, `none` where it still runs. `regs` is
what the registers hold when the code is called. -/
def runQuery (arch : Arch) (alloc : Nat → Word) (catalog : SQLCatalog) (self : Word) (sql : String)
    (explain : Bool) (heap : Heap) (regs : VReg → Value) (fuel : Nat) :
    Except CppError (Option QueryResult) := do
  let stmt ← parseSQL sql
  let (plan, ctx) ← compileStmt alloc catalog self stmt (initialContext (heap.newPrinter self))
  let code ← compiledCode ctx.program.eliminateDeadCode
  if explain then return some ⟨plan.columnNames, []⟩
  match arch.target.runCode code fuel (.block 0) ⟨regs, ctx.heap, []⟩ with
  | .goto _ _ => return none
  | .stuck _ => .error (.undefinedBehaviour "fn()")
  | .returned v => return some ⟨plan.columnNames, applyLimit stmt.limit (v.mem.rows self)⟩

end TidyTuples
