import TidyTuples.Ir.Builder
import TidyTuples.Ir.DeadCode
import TidyTuples.Ir.Records

/-!
# The builders on the byte array (`umbra_ir.cpp`)

`IRProgram` with `instrData` as bytes. What a struct holds between its fields when it is copied is
`pad`, and `addr` gives the addresses of the runtime functions.
-/

namespace TidyTuples

/-- `records` is not in the source: it lists the records in the order of their emission, each with
its offset, as they were built and patched. -/
structure ByteProgram where
  instrData : List UInt8 := []
  functions : List IRFunction := []
  currentFnIdx : Nat := 0
  currentBlkIdx : Nat := 0
  constIntCache : List (Word × Nat) := []
  records : List (Nat × Record) := []

namespace ByteProgram

def blocks (p : ByteProgram) : List BasicBlock :=
  match p.functions[p.currentFnIdx]? with
  | some fn => fn.blocks
  | none => []

def modifyBlocks (p : ByteProgram) (f : List BasicBlock → List BasicBlock) : ByteProgram :=
  { p with functions := p.functions.modify p.currentFnIdx fun fn => { fn with blocks := f fn.blocks } }

def HasInsertionPoint (p : ByteProgram) : Prop :=
  p.currentFnIdx < p.functions.length ∧ p.currentBlkIdx < p.blocks.length

instance (p : ByteProgram) : Decidable p.HasInsertionPoint := by
  unfold HasInsertionPoint
  infer_instance

/-! ### Functions and blocks -/

def beginFunction (p : ByteProgram) (name : String) (returnType : IRType)
    (params : List (String × IRType)) : Raw × ByteProgram :=
  let fnIdx := p.functions.length
  let fn : IRFunction :=
    { name, returnType
      paramNames := params.map Prod.fst
      paramTypes := params.map Prod.snd
      blocks := [⟨"entry", []⟩]
      paramRefs := (List.range params.length).map (IRValueRef.param fnIdx) }
  (BitVec.ofNat 32 fnIdx,
    { p with functions := p.functions ++ [fn], currentFnIdx := fnIdx, currentBlkIdx := 0 })

def addBlock (p : ByteProgram) (name : String) : Option (Raw × ByteProgram) :=
  if p.currentFnIdx < p.functions.length then
    some (BitVec.ofNat 32 p.blocks.length, p.modifyBlocks (· ++ [⟨name, []⟩]))
  else none

def setInsertionPoint (p : ByteProgram) (fnIdx blkIdx : Nat) : ByteProgram :=
  { p with currentFnIdx := fnIdx, currentBlkIdx := blkIdx }

/-! ### Instruction builders -/

section

variable (pad : Nat → UInt8) (addr : RuntimeFn → Word)

/-- `static_cast<IRValueRef>(instrData.size())`. -/
def nextRef (p : ByteProgram) : Raw := BitVec.ofNat 32 p.instrData.length

/-- The reference as a number. -/
def nextOffset (p : ByteProgram) : Nat := p.nextRef.toNat

/-- `emit`, and what `addPhi` and `addCall` do in its place. -/
def emit (p : ByteProgram) (r : Record) : Option (Raw × ByteProgram) :=
  if p.HasInsertionPoint then
    some (p.nextRef, { p.modifyBlocks (·.modify p.currentBlkIdx fun blk =>
        { blk with instructions := blk.instructions ++ [p.nextOffset] }) with
      instrData :=
        Bytes.storeFields (Bytes.grow pad p.instrData r.body.size) p.nextOffset r.fields
      records := p.records ++ [(p.nextOffset, r)] })
  else none

def addConstInt (p : ByteProgram) (value : Word) (t : IRType) : Option (Raw × ByteProgram) :=
  let key := IRProgram.constKey value t
  match p.constIntCache.lookup key with
  | some off => some (BitVec.ofNat 32 off, p)
  | none => do
    let (ref, q) ← p.emit pad ⟨.constInt, t, .constInt value⟩
    return (ref, { q with constIntCache := (key, ref.toNat) :: q.constIntCache })

def addConstBool (p : ByteProgram) (value : Bool) : Option (Raw × ByteProgram) :=
  p.emit pad ⟨.constBool, .bool, .constBool value⟩

def isConstant (p : ByteProgram) (ref : Raw) : Option Bool :=
  if isParamRef ref then return false
  else do
    let code ← Bytes.load p.instrData ref.toNat 1
    return code == Opcode.constInt.code || code == Opcode.constBool.code

/-- `constIntValue`; `none` is also the `runtime_error`. -/
def constIntValue (p : ByteProgram) (ref : Raw) : Option Word := do
  let code ← Bytes.load p.instrData ref.toNat 1
  if code = Opcode.constInt.code then loadWord p.instrData (ref.toNat + 8)
  else if code = Opcode.constBool.code then
    return if (← Bytes.load p.instrData (ref.toNat + 2) 1) ≠ 0 then 1 else 0
  else none

/-- The values of two constant operands; `some none` where one is not constant. -/
def constOperands (p : ByteProgram) (a b : Raw) : Option (Option (Word × Word)) := do
  if !(← p.isConstant a) then return none
  if !(← p.isConstant b) then return none
  return some (← p.constIntValue a, ← p.constIntValue b)

def addBinary (p : ByteProgram) (op : Opcode) (resultType : IRType) (a b : Raw) :
    Option (Raw × ByteProgram) := do
  let folded := (← p.constOperands a b).bind fun v => IRProgram.foldConstants op resultType v.1 v.2
  match folded with
  | some (result, rtype) =>
    if rtype = .bool then p.addConstBool pad (result != 0) else p.addConstInt pad result rtype
  | none => p.emit pad ⟨op, resultType, .binary a b⟩

def addGEP (p : ByteProgram) (base : Raw) (byteOffset : Word) : Option (Raw × ByteProgram) :=
  if byteOffset = 0 then some (base, p) else p.emit pad ⟨.gep, .ptr, .gep base byteOffset⟩

/-- A record after a patch of the PHI at `off`. -/
def patchRecord (off entryIdx : Nat) (entry : Raw × Raw) : Nat × Record → Nat × Record
  | (o, ⟨op, t, .phi entries⟩) =>
    (o, ⟨op, t, .phi (if o = off then entries.set entryIdx entry else entries)⟩)
  | x => x

/-- `patchPhiEntry`: the assertions, and the two stores into the entry. -/
def patchPhiEntry (p : ByteProgram) (phiRef : Raw) (entryIdx : Nat) (newValue fromBlock : Raw) :
    Option ByteProgram := do
  let off := phiRef.toNat
  let code ← Bytes.load p.instrData off 1
  let numEntries ← loadRaw p.instrData (off + 4)
  if code = Opcode.phi.code ∧ entryIdx < numEntries.toNat then
    return { p with
      instrData := Bytes.storeFields p.instrData off
        (entryFields (8 + 8 * entryIdx) [(newValue, fromBlock)])
      records := p.records.map (patchRecord off entryIdx (newValue, fromBlock)) }
  else none

/-- The result of a builder that returns a reference or an index. -/
def returning (r : Option (Raw × ByteProgram)) : Option (Option Raw × ByteProgram) :=
  r.map fun (ref, q) => (some ref, q)

/-- A builder call and what it returns; any opcode may be passed to `addBinary` and `addUnary`. -/
def apply (p : ByteProgram) : BuilderCall → Option (Option Raw × ByteProgram)
  | .beginFunction name returnType params => returning (p.beginFunction name returnType params)
  | .addBlock name => returning (p.addBlock name)
  | .setInsertionPoint fnIdx blkIdx => some (none, p.setInsertionPoint fnIdx blkIdx)
  | .addConstInt value t => returning (p.addConstInt pad value t)
  | .addConstBool value => returning (p.addConstBool pad value)
  | .addBinary op resultType a b => returning (p.addBinary pad op resultType a.raw b.raw)
  | .addUnary op resultType a => returning (p.emit pad ⟨op, resultType, .unary a.raw⟩)
  | .addRotateRight val shift =>
    returning (p.emit pad ⟨.rotateRight, .uint64, .rotateRight val.raw (BitVec.ofNat 32 shift)⟩)
  | .addGEP base byteOffset => returning (p.addGEP pad base.raw byteOffset)
  | .addLoad resultType ptr => returning (p.emit pad ⟨.load, resultType, .unary ptr.raw⟩)
  | .addStore ptr value => returning (p.emit pad ⟨.store, .void, .binary ptr.raw value.raw⟩)
  | .addBranch targetBlock =>
    returning (p.emit pad ⟨.branch, .void, .branch (BitVec.ofNat 32 targetBlock)⟩)
  | .addCondBranch cond trueBlock falseBlock =>
    returning (p.emit pad ⟨.condBranch, .void,
      .condBranch cond.raw (BitVec.ofNat 32 trueBlock) (BitVec.ofNat 32 falseBlock)⟩)
  | .addReturn value => returning (p.emit pad ⟨.ret, .void, .ret value.raw⟩)
  | .addPhi resultType incoming =>
    returning (p.emit pad ⟨.phi, resultType,
      .phi (incoming.map fun entry => (entry.1.raw, BitVec.ofNat 32 entry.2))⟩)
  | .addCall resultType funcPtr args =>
    returning (p.emit pad ⟨.call, resultType, .call (addr funcPtr) (args.map IRValueRef.raw)⟩)
  | .patchPhiEntry phiRef entryIdx newValue fromBlock => do
    let q ← p.patchPhiEntry phiRef.raw entryIdx newValue.raw (BitVec.ofNat 32 fromBlock)
    return (none, q)

end

/-! ### Dead code elimination -/

section

variable (p : ByteProgram)

/-- The struct that the opcode at an offset stands for in the switches of the elimination. -/
def operandType (op : Opcode) : Option RecordType :=
  if op.isBinary then some .binary
  else if op.isUnary then some .unary
  else match op with
    | .rotateRight => some .rotateRight
    | .gep => some .gep
    | .branch => some .branch
    | .condBranch => some .condBranch
    | .ret => some .ret
    | .phi => some .phi
    | .call => some .call
    | _ => none

/-- The body that the elimination reads at an offset. -/
def bodyAt (off : Nat) : Option Body := do
  loadBody p.instrData off (← operandType (← loadOp p.instrData off))

def blockSuccessors (fn : IRFunction) (b : Nat) : List Nat :=
  match fn.blocks[b]? with
  | none => []
  | some blk =>
    match blk.instructions.getLast?.bind p.bodyAt with
    | some (.branch targetBlock) => [targetBlock.toNat]
    | some (.condBranch _ trueBlock falseBlock) => [falseBlock.toNat, trueBlock.toNat]
    | _ => []

def reachableBlocks (fn : IRFunction) : List Nat :=
  Worklist.explore (fun b => b < fn.blocks.length) (p.blockSuccessors fn)
    (2 * fn.blocks.length + 1) [0] []

def clearUnreachable (fn : IRFunction) : IRFunction :=
  { fn with blocks := fn.blocks.mapIdx fun b blk =>
      if b ∈ p.reachableBlocks fn then blk else { blk with instructions := [] } }

/-- The operands that are counted. -/
def uses (off : Nat) : List Raw :=
  match p.bodyAt off with
  | some (.binary arg0 arg1) => [arg0, arg1]
  | some (.unary arg0) => [arg0]
  | some (.rotateRight arg0 _) => [arg0]
  | some (.gep base _) => [base]
  | some (.condBranch cond _ _) => [cond]
  | some (.ret value) => [value]
  | some (.phi entries) => entries.map Prod.fst
  | some (.call _ args) => args
  | _ => []

/-- The keys of `useCounts`; `NullRef` is a parameter reference too. -/
def usedRefs (functions : List IRFunction) : List Nat :=
  functions.flatMap fun fn => fn.blocks.flatMap fun blk => blk.instructions.flatMap fun off =>
    ((p.uses off).filter fun ref => !isParamRef ref).map BitVec.toNat

def keepInstr (used : List Nat) (off : Nat) : Bool :=
  match loadOp p.instrData off with
  | some .branch | some .condBranch | some .ret | some .store | some .call => true
  | _ => decide (off ∈ used)

def eliminateDeadCode : ByteProgram :=
  let cleared := p.functions.map p.clearUnreachable
  let used := p.usedRefs cleared
  { p with functions := cleared.map fun fn =>
      { fn with blocks := fn.blocks.map fun blk =>
          { blk with instructions := blk.instructions.filter (p.keepInstr used) } } }

end

/-! ### Sequences of calls -/

/-- A call on the program. -/
inductive Step
  | call (call : BuilderCall)
  | eliminateDeadCode
deriving DecidableEq, Repr

/-- `patchPhiEntry` is handed what `addPhi` returned. -/
def Proper (p : ByteProgram) : Step → Prop
  | .call (.patchPhiEntry phiRef _ _ _) =>
    ∃ x ∈ p.records, x.1 = phiRef.raw.toNat ∧ x.2.body.type = .phi
  | _ => True

instance (p : ByteProgram) (s : Step) : Decidable (p.Proper s) := by
  unfold Proper
  split <;> infer_instance

/-- A step and what it returns. -/
def stepReturning (pad : Nat → UInt8) (addr : RuntimeFn → Word) (p : ByteProgram) (s : Step) :
    Option (Option Raw × ByteProgram) :=
  if p.Proper s then
    match s with
    | .call call => p.apply pad addr call
    | .eliminateDeadCode => some (none, p.eliminateDeadCode)
  else none

def step (pad : Nat → UInt8) (addr : RuntimeFn → Word) (p : ByteProgram) (s : Step) :
    Option ByteProgram :=
  (p.stepReturning pad addr s).map Prod.snd

/-- The program after the calls. -/
def run (pad : Nat → UInt8) (addr : RuntimeFn → Word) (steps : List Step) (p : ByteProgram) :
    Option ByteProgram :=
  steps.foldlM (step pad addr) p

end ByteProgram

end TidyTuples
