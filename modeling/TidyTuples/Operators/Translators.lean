import TidyTuples.Codegen.SqlValue

/-!
# Operator translators: scan, select and hash join

`produce` and `consume` of the three operators. An operator object is told from another by its
`id`; the parent is handed down as its `consume`, because every `produce` sets it before the
child runs.
-/

namespace TidyTuples

/-- `reinterpret_cast<uint64_t>(colData.data())` is `address`. -/
structure Column where
  name : String
  type : SQLType
  address : Word
  values : List Word
deriving DecidableEq, Repr

/-- The parallel vectors of names, types and data are one list. -/
structure InMemoryTable where
  name : String
  numRows : Nat
  columns : List Column
deriving DecidableEq, Repr

/-- The constructor creates one IU a column, in order: `firstIU` is the id of the first. -/
structure ScanTranslator where
  id : Nat
  table : InMemoryTable
  firstIU : Nat
deriving DecidableEq, Repr

/-- The conjuncts a select ANDs together and the planner's column resolution. -/
structure Predicate where
  conjuncts : List Expr
  resolveColumn : ColumnRef → Except CppError IU

/-- `hashTable` is the address of the join's `RuntimeHashTable`. -/
inductive Operator
  | scan (scan : ScanTranslator)
  | select (id : Nat) (child : Operator) (predicate : Predicate)
  | hashJoin (id : Nat) (buildSide probeSide : Operator) (buildKeys probeKeys : List IU)
      (hashTable : Word)

namespace ScanTranslator

def colIUs (scan : ScanTranslator) : List IU :=
  scan.table.columns.mapIdx fun i c => ⟨scan.table.name ++ "." ++ c.name, c.type, scan.firstIU + i⟩

/-- The first IU whose name ends in `"." + colName`. -/
def getIU (scan : ScanTranslator) (colName : String) : Except CppError IU :=
  match scan.colIUs.find? fun iu => ("." ++ colName).toList.isSuffixOf iu.name.toList with
  | some iu => .ok iu
  | none => throwRuntime ("Column not found: " ++ colName)

end ScanTranslator

namespace Operator

def id : Operator → Nat
  | scan s => s.id
  | select id _ _ => id
  | hashJoin id _ _ _ _ _ => id

/-- `buildPayloadIUs`: the build side's IUs that are not keys. -/
def payloadIUs (buildOutputs buildKeys : List IU) : List IU :=
  buildOutputs.filter fun iu => !buildKeys.contains iu

def outputIUs : Operator → List IU
  | scan s => s.colIUs
  | select _ child _ => child.outputIUs
  | hashJoin _ build probe buildKeys _ _ =>
    probe.outputIUs ++ buildKeys ++ payloadIUs build.outputIUs buildKeys

end Operator

/-- `parent->consume(scope, child)` with the child given by its `id`. -/
abbrev Consumer := ConsumerScope → Nat → Gen Unit

/-! ### Scan -/

/-- `zero` to `exitBlk` of `ScanTranslator::produce`, one load a column in the loop body. -/
def ScanTranslator.bindColumns (iPhi : IRValueRef) :
    List (IU × Column) → ConsumerScope → Gen ConsumerScope
  | [], scope => return scope
  | (iu, col) :: rest, scope => do
    let colPtrRef ← Gen.addConstInt col.address .ptr
    let val ← Gen.addCall .int64 .loadColumnValue [colPtrRef, iPhi]
    bindColumns iPhi rest (scope.bind iu (.makeNonNull val col.type))

def ScanTranslator.produce (scan : ScanTranslator) (parent : Consumer) : Gen Unit := do
  let zero ← Gen.addConstInt 0 .int64
  let numRows ← Gen.addConstInt (BitVec.ofNat 64 scan.table.numRows) .int64
  let one ← Gen.addConstInt 1 .int64
  Gen.countedLoop (scan.table.name ++ "_scan") zero numRows one fun iPhi => do
    let scope ← bindColumns iPhi (scan.colIUs.zip scan.table.columns) {}
    parent scope scan.id

/-! ### Select -/

/-- `QueryPlanner::evalExpr` with the planner's `resolveColumn`. -/
def evalExpr (resolveColumn : ColumnRef → Except CppError IU) (scope : ConsumerScope) :
    Expr → Gen SQLValue
  | .colRef ref => do
    let iu ← Gen.ofExcept (resolveColumn ref)
    Gen.ofExcept (scope.get iu)
  | .intLit intVal => SQLValue.makeInt intVal
  | .binOp op left right => do
    let l ← evalExpr resolveColumn scope left
    let r ← evalExpr resolveColumn scope right
    match op with
    | .eq => l.eq r
    | .ne => l.ne r
    | .lt => l.lt r
    | .gt => l.gt r
    | .le => l.le r
    | .ge => l.ge r
    | .add => l.add r
    | .sub => l.sub r
    | .and => l.and r
    | .or => l.or r

/-- `for (i = 1; ...) result = result AND evalExpr(conjuncts[i])`. -/
def Predicate.evalRest (p : Predicate) (scope : ConsumerScope) :
    List Expr → SQLValue → Gen SQLValue
  | [], result => return result
  | e :: rest, result => do
    let next ← evalExpr p.resolveColumn scope e
    p.evalRest scope rest (← result.and next)

/-- The lambda a filter is built with. -/
def Predicate.eval (p : Predicate) (scope : ConsumerScope) : Gen SQLValue :=
  match p.conjuncts with
  | [] => Gen.fail (.undefinedBehaviour "conjuncts[0]")
  | e :: rest => do p.evalRest scope rest (← evalExpr p.resolveColumn scope e)

def selectConsume (id : Nat) (predicate : Predicate) (parent : Consumer) : Consumer :=
  fun scope _ => do
    let cond ← predicate.eval scope
    let prog ← Gen.program
    if (prog.constIntValue cond.valueRef).any (· != 0) then parent scope id
    else Gen.ifStmt cond.valueRef (parent scope id)

/-! ### Hash join -/

/-- `while (args.size() < n) args.push_back(zero);` -/
def padTo {α : Type} (n : Nat) (zero : α) (args : List α) : List α :=
  args ++ List.replicate (n - args.length) zero

/-- The keys are padded to 4 slots, then the payloads. -/
def insertArgs {α : Type} (htPtr hash zero4 : α) (keys payload : List α) : List α :=
  padTo (2 + 4 + 4) zero4 (padTo (2 + 4) zero4 ([htPtr, hash] ++ keys) ++ payload)

/-- The padding loop asks for its constant in every iteration. -/
def padWithZeros : Nat → List IRValueRef → Gen (List IRValueRef)
  | 0, args => return args
  | n + 1, args => do
    let zero ← Gen.addConstInt 0 .int64
    padWithZeros n (args ++ [zero])

structure HashJoinTranslator where
  id : Nat
  buildId : Nat
  buildKeys : List IU
  probeKeys : List IU
  buildPayloadIUs : List IU
  hashTable : Word

namespace HashJoinTranslator

def setNumKeyFields (j : HashJoinTranslator) (n : Nat) : Gen Unit :=
  Gen.modifyHeap fun heap => heap.setHashTable j.hashTable
    { heap.hashTables j.hashTable with numKeyFields := n }

def setNumPayloadFields (j : HashJoinTranslator) (n : Nat) : Gen Unit :=
  Gen.modifyHeap fun heap => heap.setHashTable j.hashTable
    { heap.hashTables j.hashTable with numPayloadFields := n }

def consumeBuildSide (j : HashJoinTranslator) (scope : ConsumerScope) : Gen Unit := do
  let keyVals ← scope.getAll j.buildKeys
  let payloadVals ← scope.getAll j.buildPayloadIUs
  let hash ← hashValues keyVals
  let htPtr ← Gen.addConstInt j.hashTable .ptr
  j.setNumKeyFields keyVals.length
  j.setNumPayloadFields payloadVals.length
  let zero4 ← Gen.addConstInt 0 .int64
  let callArgs := insertArgs htPtr hash zero4 (keyVals.map SQLValue.valueRef)
    (payloadVals.map SQLValue.valueRef)
  let _ ← Gen.addCall .void .insert callArgs

/-- Bind IUs to what `fn` reads from the matched entry at the positions `i`, `i + 1`, ... -/
def bindFields (fn : RuntimeFn) (entryPtr : IRValueRef) :
    Nat → List IU → ConsumerScope → Gen ConsumerScope
  | _, [], scope => return scope
  | i, iu :: rest, scope => do
    let idxConst ← Gen.addConstInt (BitVec.ofNat 64 i) .int32
    let val ← Gen.addCall .int64 fn [entryPtr, idxConst]
    bindFields fn entryPtr (i + 1) rest (scope.bind iu (.makeNonNull val iu.type))

def consumeProbeSide (j : HashJoinTranslator) (parent : Consumer) (scope : ConsumerScope) :
    Gen Unit := do
  let probeKeyVals ← scope.getAll j.probeKeys
  let hash ← hashValues probeKeyVals
  let htPtr ← Gen.addConstInt j.hashTable .ptr
  j.setNumKeyFields probeKeyVals.length
  let lookupArgs := [htPtr, hash] ++ probeKeyVals.map SQLValue.valueRef
  let lookupArgs ← padWithZeros (2 + 4 - lookupArgs.length) lookupArgs
  let matchesPtr ← Gen.addCall .ptr .lookupAll lookupArgs
  let totalMatches ← Gen.addCall .int64 .matchCount [matchesPtr]
  let zero ← Gen.addConstInt 0 .int64
  let one ← Gen.addConstInt 1 .int64
  Gen.countedLoop "hj_match" zero totalMatches one fun idxPhi => do
    let entryPtr ← Gen.addCall .ptr .matchAt [matchesPtr, idxPhi]
    let joinScope ← bindFields .getKey entryPtr 0 j.buildKeys scope
    let joinScope ← bindFields .getPayload entryPtr 0 j.buildPayloadIUs joinScope
    parent joinScope j.id

def consume (j : HashJoinTranslator) (parent : Consumer) : Consumer := fun scope child =>
  if child = j.buildId then j.consumeBuildSide scope else j.consumeProbeSide parent scope

end HashJoinTranslator

/-! ### Operator trees -/

namespace Operator

def produce : Operator → Consumer → Gen Unit
  | scan s, parent => s.produce parent
  | select id child predicate, parent => child.produce (selectConsume id predicate parent)
  | hashJoin id build probe buildKeys probeKeys hashTable, parent => do
    let j : HashJoinTranslator := { id, buildKeys, probeKeys, hashTable,
                                    buildId := build.id
                                    buildPayloadIUs := payloadIUs build.outputIUs buildKeys }
    build.produce (j.consume parent)
    probe.produce (j.consume parent)

end Operator

/-- `PrintTranslator::consume`; `self` is the address of the printer. -/
def printConsume (self : Word) (outputIUs : List IU) : Consumer := fun scope _ => do
  if 8 < outputIUs.length then
    Gen.fail (.runtimeError "SELECT list too wide (max 8 columns)")
  let selfPtr ← Gen.addConstInt self .ptr
  let nColsRef ← Gen.addConstInt (BitVec.ofNat 64 outputIUs.length) .int64
  let vals ← scope.getAll outputIUs
  let callArgs := [selfPtr, nColsRef] ++ vals.map SQLValue.valueRef
  let callArgs ← padWithZeros (2 + 8 - callArgs.length) callArgs
  let _ ← Gen.addCall .void .printRow callArgs

end TidyTuples
