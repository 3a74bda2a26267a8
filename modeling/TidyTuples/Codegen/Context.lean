import TidyTuples.Operators.Runtime

/-!
# The compilation context and the code generation monad (`compilation_context.hpp`)

Code generation changes the IR program, the counters behind fresh IUs and operators, and the
hash table objects, which exist before the query runs.
-/

namespace TidyTuples

inductive SQLType
  | integer | bigInt | double | varchar | bool
deriving DecidableEq, Repr

/-- A column that flows between operators. -/
structure IU where
  name : String
  type : SQLType
  id : Nat
deriving DecidableEq, Repr

/-- `numOperators` counts the operators created so far. -/
structure CompilationContext where
  program : IRProgram
  heap : Heap
  nextIUId : Nat
  numOperators : Nat

def CompilationContext.withProgram (ctx : CompilationContext) (program : IRProgram) :
    CompilationContext := { ctx with program }

abbrev Gen := StateT CompilationContext (Except CppError)

namespace Gen

def fail {α : Type} (e : CppError) : Gen α := fun _ => .error e

def ofExcept {α : Type} : Except CppError α → Gen α
  | .ok a => pure a
  | .error e => fail e

/-- Run a builder of the IR program. -/
def build {α : Type} (f : IRProgram → α × IRProgram) : Gen α := fun ctx =>
  let (a, program) := f ctx.program
  .ok (a, ctx.withProgram program)

def program : Gen IRProgram := fun ctx => .ok (ctx.program, ctx)

def modifyHeap (f : Heap → Heap) : Gen Unit := fun ctx => .ok ((), { ctx with heap := f ctx.heap })

def addConstInt (value : Word) (t : IRType) : Gen IRValueRef := build (·.addConstInt value t)

def addBinary (op : Opcode) (t : IRType) (a b : IRValueRef) : Gen IRValueRef :=
  build (·.addBinary op t a b)

def addUnary (op : Opcode) (t : IRType) (a : IRValueRef) : Gen IRValueRef :=
  build (·.addUnary op t a)

def addRotateRight (val : IRValueRef) (shift : Nat) : Gen IRValueRef :=
  build (·.addRotateRight val shift)

def addCall (t : IRType) (fn : RuntimeFn) (args : List IRValueRef) : Gen IRValueRef :=
  build (·.addCall t fn args)

def addPhi (t : IRType) (incoming : List (IRValueRef × Nat)) : Gen IRValueRef :=
  build (·.addPhi t incoming)

def addBranch (targetBlock : Nat) : Gen IRValueRef := build (·.addBranch targetBlock)

def addCondBranch (cond : IRValueRef) (trueBlock falseBlock : Nat) : Gen IRValueRef :=
  build (·.addCondBranch cond trueBlock falseBlock)

def addReturn : Gen IRValueRef := build (·.addReturn .null)

def addBlock (name : String) : Gen Nat := build (·.addBlock name)

def currentBlock : Gen Nat := fun ctx => .ok (ctx.program.currentBlkIdx, ctx)

def setBlock (blkIdx : Nat) : Gen Unit :=
  build fun p => ((), p.setInsertionPoint p.currentFnIdx blkIdx)

def patchPhiEntry (phiRef : IRValueRef) (entryIdx : Nat) (newValue : IRValueRef)
    (fromBlock : Nat) : Gen Unit := fun ctx =>
  match ctx.program.patchPhiEntry phiRef entryIdx newValue fromBlock with
  | some program => .ok ((), ctx.withProgram program)
  | none => .error (.undefinedBehaviour "assertion in patchPhiEntry")

/-- The last instruction of the current block is a `Branch`, `CondBranch` or `Return`. -/
def isTerminated : Gen Bool := fun ctx =>
  let p := ctx.program
  let last := (p.blockAt p.currentBlkIdx).getLast?
  .ok ((last.bind p.instrAt |>.map Instr.isTerminator).getD false, ctx)

/-- `IfStmt ifStmt(cg, cond); { body }`: its constructor, the true branch, its destructor. -/
def ifStmt (cond : IRValueRef) (body : Gen Unit) : Gen Unit := do
  let trueBlock ← addBlock "if_true"
  let falseBlock ← addBlock "if_false"
  let mergeBlock ← addBlock "if_merge"
  let _ ← addCondBranch cond trueBlock falseBlock
  setBlock trueBlock
  body
  if !(← isTerminated) then
    let _ ← addBranch mergeBlock
  setBlock mergeBlock

/-- The loop of a scan (over the rows) and of a probe (over the matches): the index runs from
`zero` up to `bound`. The back edge is patched into the PHI when the body is complete. -/
def countedLoop (name : String) (zero bound one : IRValueRef) (body : IRValueRef → Gen Unit) :
    Gen Unit := do
  let headerBlk ← addBlock (name ++ "_header")
  let bodyBlk ← addBlock (name ++ "_body")
  let exitBlk ← addBlock (name ++ "_exit")
  let entryBlk ← currentBlock
  let _ ← addBranch headerBlk
  setBlock headerBlk
  let idxPhi ← addPhi .int64 [(zero, entryBlk), (.null, 0)]
  let hasMore ← addBinary .cmpLt .bool idxPhi bound
  let _ ← addCondBranch hasMore bodyBlk exitBlk
  setBlock bodyBlk
  body idxPhi
  let idxNext ← addBinary .add .int64 idxPhi one
  let backEdgeBlk ← currentBlock
  patchPhiEntry idxPhi 1 idxNext backEdgeBlk
  let _ ← addBranch headerBlk
  setBlock exitBlk

end Gen

end TidyTuples
