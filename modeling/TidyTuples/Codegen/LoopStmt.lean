import TidyTuples.Ir.Builder

/-!
# The loop construct of the code generation layer (`codegen_types.hpp`)

`LoopStmt` makes a PHI for each loop variable when the loop is opened. `done` keeps the values of
the back edge in a map of its own. No result stands for undefined behaviour: an emission without a
current block, or the type of a reference that is in no table.
-/

namespace TidyTuples

def Instr.resultType : Instr → IRType
  | constInt t _ => t
  | constBool _ => .bool
  | binary _ t _ _ => t
  | unary _ t _ => t
  | rotateRight _ _ => .uint64
  | gep _ _ => .ptr
  | branch _ => .void
  | condBranch _ _ _ => .void
  | ret _ => .void
  | phi t _ => t
  | call t _ _ => t

def IRProgram.typeOf (p : IRProgram) : IRValueRef → Option IRType
  | .null => none
  | .param fnIdx paramIdx => do
    let fn ← p.functions[fnIdx]?
    fn.paramTypes[paramIdx]?
  | .instr offset => (p.instrAt offset).map Instr.resultType

/-- `phiBackEdge` has for a PHI the value of the back edge and the block it leaves, the newest
entry first. -/
structure LoopStmt where
  headerBlock : Nat
  bodyBlock : Nat
  exitBlock : Nat
  phiRefs : List IRValueRef
  initVals : List IRValueRef
  entryBlock : Nat
  varType : IRType
  phiBackEdge : List (IRValueRef × IRValueRef × Nat)
deriving DecidableEq, Repr

namespace LoopStmt

/-- `varTy`, or the type of the initial value where that is `Void`. -/
def variableType (varTy : IRType) (p : IRProgram) (initVal : IRValueRef) : Option IRType :=
  if varTy ≠ .void then some varTy else p.typeOf initVal

/-- The PHI nodes of the loop variables, with the entry for the block before the loop. -/
def addPhis (varTy : IRType) (entryBlock : Nat) :
    List IRValueRef → IRProgram → Option (List IRValueRef × IRProgram)
  | [], p => some ([], p)
  | initVal :: rest, p => do
    let t ← variableType varTy p initVal
    let (phi, p) := p.addPhi t [(initVal, entryBlock)]
    let (phiRefs, p) ← addPhis varTy entryBlock rest p
    return (phi :: phiRefs, p)

/-- The constructor. -/
def init (p : IRProgram) (name : String) (entryCondition : IRValueRef)
    (initialVals : List IRValueRef) (varTy : IRType) : Option (LoopStmt × IRProgram) :=
  if p.HasInsertionPoint then do
    let entryBlock := p.currentBlkIdx
    let (headerBlock, p) := p.addBlock (name ++ "_header")
    let (bodyBlock, p) := p.addBlock (name ++ "_body")
    let (exitBlock, p) := p.addBlock (name ++ "_exit")
    let p := (p.addBranch headerBlock).2
    let p := p.setInsertionPoint p.currentFnIdx headerBlock
    let (phiRefs, p) ← addPhis varTy entryBlock initialVals p
    let p := (p.addCondBranch entryCondition bodyBlock exitBlock).2
    let p := p.setInsertionPoint p.currentFnIdx bodyBlock
    return ({ headerBlock, bodyBlock, exitBlock, phiRefs, initVals := initialVals, entryBlock
              varType := varTy, phiBackEdge := [] }, p)
  else none

def getVar (loop : LoopStmt) (idx : Nat) : Option IRValueRef := loop.phiRefs[idx]?

def done (loop : LoopStmt) (p : IRProgram) (continueCondition : IRValueRef)
    (nextVals : List IRValueRef) : Option (LoopStmt × IRProgram) :=
  if p.HasInsertionPoint then
    let backEdgeBlock := p.currentBlkIdx
    let p := (p.addCondBranch continueCondition loop.headerBlock loop.exitBlock).2
    let phiBackEdge := (loop.phiRefs.zip nextVals).foldl
      (fun edges entry => (entry.1, entry.2, backEdgeBlock) :: edges) loop.phiBackEdge
    some ({ loop with phiBackEdge }, p.setInsertionPoint p.currentFnIdx loop.exitBlock)
  else none

end LoopStmt

end TidyTuples
