import TidyTuples.Ir.Interp

/-!
# Sequences of builder calls

The public builders of `IRProgram` as data. A sequence of calls has no result where one of them
runs into undefined behaviour: an emission without a current block, a record whose opcode reads
operands it does not have, or a failed assertion of `patchPhiEntry`.
-/

namespace TidyTuples

inductive BuilderCall
  | beginFunction (name : String) (returnType : IRType) (params : List (String × IRType))
  | addBlock (name : String)
  | setInsertionPoint (fnIdx blkIdx : Nat)
  | addConstInt (value : Word) (t : IRType)
  | addConstBool (value : Bool)
  | addBinary (op : Opcode) (resultType : IRType) (a b : IRValueRef)
  | addUnary (op : Opcode) (resultType : IRType) (a : IRValueRef)
  | addRotateRight (val : IRValueRef) (shift : Nat)
  | addGEP (base : IRValueRef) (byteOffset : Word)
  | addLoad (resultType : IRType) (ptr : IRValueRef)
  | addStore (ptr value : IRValueRef)
  | addBranch (targetBlock : Nat)
  | addCondBranch (cond : IRValueRef) (trueBlock falseBlock : Nat)
  | addReturn (value : IRValueRef)
  | addPhi (resultType : IRType) (incoming : List (IRValueRef × Nat))
  | addCall (resultType : IRType) (funcPtr : RuntimeFn) (args : List IRValueRef)
  | patchPhiEntry (phiRef : IRValueRef) (entryIdx : Nat) (newValue : IRValueRef) (fromBlock : Nat)
deriving DecidableEq, Repr

namespace IRProgram

/-- `currentBlock()` exists. -/
def HasInsertionPoint (p : IRProgram) : Prop :=
  p.currentFnIdx < p.functions.length ∧ p.currentBlkIdx < p.blocks.length

instance (p : IRProgram) : Decidable p.HasInsertionPoint := by
  unfold HasInsertionPoint
  infer_instance

/-- A builder that emitted a record needed a block to put it in. -/
def emitted (p : IRProgram) (r : IRValueRef × IRProgram) : Option IRProgram :=
  if r.2.dataSize = p.dataSize ∨ p.HasInsertionPoint then some r.2 else none

end IRProgram

namespace BuilderCall

def apply (p : IRProgram) : BuilderCall → Option IRProgram
  | beginFunction name returnType params => some (p.beginFunction name returnType params).2
  | addBlock name => if p.currentFnIdx < p.functions.length then some (p.addBlock name).2 else none
  | setInsertionPoint fnIdx blkIdx => some (p.setInsertionPoint fnIdx blkIdx)
  | addConstInt value t => p.emitted (p.addConstInt value t)
  | addConstBool value => p.emitted (p.addConstBool value)
  | addBinary op resultType a b =>
    if op.isBinary || op.isUnary then p.emitted (p.addBinary op resultType a b) else none
  | addUnary op resultType a =>
    if op.isUnary then p.emitted (p.addUnary op resultType a) else none
  | addRotateRight val shift => p.emitted (p.addRotateRight val shift)
  | addGEP base byteOffset => p.emitted (p.addGEP base byteOffset)
  | addLoad resultType ptr => p.emitted (p.addLoad resultType ptr)
  | addStore ptr value => p.emitted (p.addStore ptr value)
  | addBranch targetBlock => p.emitted (p.addBranch targetBlock)
  | addCondBranch cond trueBlock falseBlock => p.emitted (p.addCondBranch cond trueBlock falseBlock)
  | addReturn value => p.emitted (p.addReturn value)
  | addPhi resultType incoming => p.emitted (p.addPhi resultType incoming)
  | addCall resultType funcPtr args => p.emitted (p.addCall resultType funcPtr args)
  | patchPhiEntry phiRef entryIdx newValue fromBlock =>
    p.patchPhiEntry phiRef entryIdx newValue fromBlock

/-- The program after the calls. -/
def build (calls : List BuilderCall) : Option IRProgram := calls.foldlM apply {}

end BuilderCall

end TidyTuples
