import TidyTuples.Basic

/-!
# The Umbra IR program and its builders (`umbra_ir.hpp`, `umbra_ir.cpp`)

`instrData` is the list of the records in the byte array, the newest first, each with its byte
offset. A value reference is one of three disjoint kinds: `NullRef`, a parameter, or an offset;
as in the source the encodings stay apart while the array is below `0xFF000000` bytes.
-/

namespace TidyTuples

inductive IRType
  | void | bool | int32 | int64 | uint64 | double | ptr
deriving DecidableEq, Repr

/-- `static_cast<uint8_t>(t)`. -/
def IRType.code : IRType → Nat
  | .void => 0
  | .bool => 1
  | .int32 => 2
  | .int64 => 3
  | .uint64 => 4
  | .double => 5
  | .ptr => 6

inductive Opcode
  | constInt | constBool
  | add | sub | mul | div | rem
  | and | or | xor | shl | shr | crc32
  | rotateRight | zExt | sExt
  | cmpEq | cmpNe | cmpLt | cmpGt | cmpLe | cmpGe
  | lAnd | lOr | lNot
  | load | store
  | gep
  | branch | condBranch | ret
  | phi
  | call
  | isNull
deriving DecidableEq, Repr

inductive IRValueRef
  | null
  | param (fnIdx paramIdx : Nat)
  | instr (offset : Nat)
deriving DecidableEq, Repr

/-- `(ref & 0xFF000000) == 0xFF000000`, which `NullRef` satisfies too. -/
def IRValueRef.isParam : IRValueRef → Bool
  | .null => true
  | .param _ _ => true
  | .instr _ => false

/-- The C++ functions whose addresses the generated code calls; `external` is any other one. -/
inductive RuntimeFn
  | loadColumnValue
  | insert | lookupAll | matchCount | matchAt | getKey | getPayload
  | printRow
  | external (address : Word)
deriving DecidableEq, Repr

/-- The record layouts of the instruction array. -/
inductive Instr
  | constInt (resultType : IRType) (value : Word)
  | constBool (value : Bool)
  | binary (op : Opcode) (resultType : IRType) (arg0 arg1 : IRValueRef)
  | unary (op : Opcode) (resultType : IRType) (arg0 : IRValueRef)
  | rotateRight (arg0 : IRValueRef) (shift : Nat)
  | gep (base : IRValueRef) (byteOffset : Word)
  | branch (targetBlock : Nat)
  | condBranch (cond : IRValueRef) (trueBlock falseBlock : Nat)
  | ret (value : IRValueRef)
  | phi (resultType : IRType) (entries : List (IRValueRef × Nat))
  | call (resultType : IRType) (funcPtr : RuntimeFn) (args : List IRValueRef)
deriving DecidableEq, Repr

namespace Instr

def op : Instr → Opcode
  | constInt _ _ => .constInt
  | constBool _ => .constBool
  | binary op _ _ _ => op
  | unary op _ _ => op
  | rotateRight _ _ => .rotateRight
  | gep _ _ => .gep
  | branch _ => .branch
  | condBranch _ _ _ => .condBranch
  | ret _ => .ret
  | phi _ _ => .phi
  | call _ _ _ => .call

def isConst : Instr → Bool
  | constInt _ _ => true
  | constBool _ => true
  | _ => false

/-- `sizeof` of the record written by the builder. -/
def byteSize : Instr → Nat
  | constInt _ _ => 16
  | constBool _ => 3
  | binary _ _ _ _ => 12
  | unary _ _ _ => 8
  | rotateRight _ _ => 12
  | gep _ _ => 16
  | branch _ => 8
  | condBranch _ _ _ => 16
  | ret _ => 8
  | phi _ entries => 8 + 8 * entries.length
  | call _ _ args => 24 + 4 * args.length

lemma byteSize_pos (i : Instr) : 0 < i.byteSize := by
  cases i <;> simp only [byteSize] <;> omega

end Instr

/-- `instructions` holds offsets into `instrData`. -/
structure BasicBlock where
  name : String
  instructions : List Nat
deriving DecidableEq, Repr

structure IRFunction where
  name : String
  returnType : IRType
  paramNames : List String
  paramTypes : List IRType
  blocks : List BasicBlock
  paramRefs : List IRValueRef
deriving DecidableEq, Repr

/-- One call `addConstInt(value, type)` and the offset it returned. -/
structure ConstRequest where
  type : IRType
  value : Word
  offset : Nat
deriving DecidableEq, Repr

/-- `constRequests` is not in the source: it records the `addConstInt` calls, to say what a
constant reference was requested for. -/
structure IRProgram where
  instrData : List (Nat × Instr) := []
  functions : List IRFunction := []
  currentFnIdx : Nat := 0
  currentBlkIdx : Nat := 0
  constIntCache : List (Word × Nat) := []
  constRequests : List ConstRequest := []
deriving DecidableEq, Repr

namespace IRProgram

/-- `instrData.size()`. -/
def dataSize (p : IRProgram) : Nat :=
  match p.instrData with
  | [] => 0
  | (offset, i) :: _ => offset + i.byteSize

def instrAt (p : IRProgram) (offset : Nat) : Option Instr := p.instrData.lookup offset

def getInstr (p : IRProgram) : IRValueRef → Option Instr
  | .instr offset => p.instrAt offset
  | _ => none

/-- The blocks of the function that is being built. -/
def blocks (p : IRProgram) : List BasicBlock :=
  match p.functions[p.currentFnIdx]? with
  | some fn => fn.blocks
  | none => []

/-- The instructions of block `b` of the function that is being built. -/
def blockAt (p : IRProgram) (b : Nat) : List Nat :=
  match p.blocks[b]? with
  | some blk => blk.instructions
  | none => []

def modifyBlocks (p : IRProgram) (f : List BasicBlock → List BasicBlock) : IRProgram :=
  { p with functions := p.functions.modify p.currentFnIdx fun fn => { fn with blocks := f fn.blocks } }

/-! ### Functions and blocks -/

def beginFunction (p : IRProgram) (name : String) (returnType : IRType)
    (params : List (String × IRType)) : Nat × IRProgram :=
  let fnIdx := p.functions.length
  let fn : IRFunction :=
    { name, returnType
      paramNames := params.map Prod.fst
      paramTypes := params.map Prod.snd
      blocks := [⟨"entry", []⟩]
      paramRefs := (List.range params.length).map (IRValueRef.param fnIdx) }
  (fnIdx, { p with functions := p.functions ++ [fn], currentFnIdx := fnIdx, currentBlkIdx := 0 })

def addBlock (p : IRProgram) (name : String) : Nat × IRProgram :=
  (p.blocks.length, p.modifyBlocks (· ++ [⟨name, []⟩]))

def setInsertionPoint (p : IRProgram) (fnIdx blkIdx : Nat) : IRProgram :=
  { p with currentFnIdx := fnIdx, currentBlkIdx := blkIdx }

/-! ### Instruction builders -/

/-- `emit`: write a record behind the last one and append its offset to the current block. -/
def emit (p : IRProgram) (i : Instr) : IRValueRef × IRProgram :=
  let offset := p.dataSize
  (.instr offset,
    { p.modifyBlocks (·.modify p.currentBlkIdx fun blk =>
        { blk with instructions := blk.instructions ++ [offset] }) with
      instrData := (offset, i) :: p.instrData })

/-- `(uint64_t(uint8_t(t)) << 56) ^ (uint64_t)value`. -/
def constKey (value : Word) (t : IRType) : Word :=
  (BitVec.ofNat 64 t.code <<< 56) ^^^ value

def addConstInt (p : IRProgram) (value : Word) (t : IRType) : IRValueRef × IRProgram :=
  let key := constKey value t
  match p.constIntCache.lookup key with
  | some offset =>
    (.instr offset, { p with constRequests := ⟨t, value, offset⟩ :: p.constRequests })
  | none =>
    let offset := p.dataSize
    let (ref, p') := p.emit (.constInt t value)
    (ref, { p' with
      constIntCache := (key, offset) :: p'.constIntCache
      constRequests := ⟨t, value, offset⟩ :: p'.constRequests })

def addConstBool (p : IRProgram) (value : Bool) : IRValueRef × IRProgram :=
  p.emit (.constBool value)

def isConstant (p : IRProgram) (ref : IRValueRef) : Bool :=
  match p.getInstr ref with
  | some (.constInt _ _) => true
  | some (.constBool _) => true
  | _ => false

/-- `constIntValue`; `none` is the `runtime_error` for a reference that is not constant. -/
def constIntValue (p : IRProgram) (ref : IRValueRef) : Option Word :=
  match p.getInstr ref with
  | some (.constInt _ value) => some value
  | some (.constBool value) => some (if value then 1 else 0)
  | _ => none

section

variable {p : IRProgram} {off : Nat} {i : Instr}

lemma constIntValue_constInt {t : IRType} {value : Word}
    (h : p.instrAt off = some (.constInt t value)) : p.constIntValue (.instr off) = some value := by
  simp only [constIntValue, getInstr, h]

lemma constIntValue_constBool {value : Bool} (h : p.instrAt off = some (.constBool value)) :
    p.constIntValue (.instr off) = some (if value then 1 else 0) := by
  simp only [constIntValue, getInstr, h]

lemma constIntValue_runTime (h : p.instrAt off = some i) (hi : i.isConst = false) :
    p.constIntValue (.instr off) = none := by
  simp only [constIntValue, getInstr, h]
  cases i <;> first | rfl | cases hi

end

def wordOfBool (b : Bool) : Word := if b then 1 else 0

/-- The value and type that `tryConstFold` computes for two constant operands. -/
def foldConstants (op : Opcode) (t : IRType) (va vb : Word) : Option (Word × IRType) :=
  match op with
  | .add => some (va + vb, t)
  | .sub => some (va - vb, t)
  | .mul => some (va * vb, t)
  | .div => if vb = 0 then none else some (va.sdiv vb, t)
  | .cmpEq => some (wordOfBool (va == vb), .bool)
  | .cmpNe => some (wordOfBool (va != vb), .bool)
  | .cmpLt => some (wordOfBool (va.slt vb), .bool)
  | .cmpGt => some (wordOfBool (vb.slt va), .bool)
  | .cmpLe => some (wordOfBool (va.sle vb), .bool)
  | .cmpGe => some (wordOfBool (vb.sle va), .bool)
  | .and => some (va &&& vb, t)
  | .or => some (va ||| vb, t)
  | .xor => some (va ^^^ vb, t)
  | .lAnd => some (wordOfBool (va != 0 && vb != 0), .bool)
  | .lOr => some (wordOfBool (va != 0 || vb != 0), .bool)
  | _ => none

/-- `tryConstFold`; `none` is the result `NullRef`. -/
def tryConstFold (p : IRProgram) (op : Opcode) (t : IRType) (a b : IRValueRef) :
    Option (IRValueRef × IRProgram) := do
  let va ← p.constIntValue a
  let vb ← p.constIntValue b
  let (result, rtype) ← foldConstants op t va vb
  if rtype = .bool then return p.addConstBool (result != 0)
  else return p.addConstInt result rtype

def addBinary (p : IRProgram) (op : Opcode) (resultType : IRType) (a b : IRValueRef) :
    IRValueRef × IRProgram :=
  match p.tryConstFold op resultType a b with
  | some folded => folded
  | none => p.emit (.binary op resultType a b)

def addUnary (p : IRProgram) (op : Opcode) (resultType : IRType) (a : IRValueRef) :
    IRValueRef × IRProgram :=
  p.emit (.unary op resultType a)

def addRotateRight (p : IRProgram) (val : IRValueRef) (shift : Nat) : IRValueRef × IRProgram :=
  p.emit (.rotateRight val shift)

def addGEP (p : IRProgram) (base : IRValueRef) (byteOffset : Word) : IRValueRef × IRProgram :=
  if byteOffset = 0 then (base, p) else p.emit (.gep base byteOffset)

def addLoad (p : IRProgram) (resultType : IRType) (ptr : IRValueRef) : IRValueRef × IRProgram :=
  p.emit (.unary .load resultType ptr)

def addStore (p : IRProgram) (ptr value : IRValueRef) : IRValueRef × IRProgram :=
  p.emit (.binary .store .void ptr value)

def addBranch (p : IRProgram) (targetBlock : Nat) : IRValueRef × IRProgram :=
  p.emit (.branch targetBlock)

def addCondBranch (p : IRProgram) (cond : IRValueRef) (trueBlock falseBlock : Nat) :
    IRValueRef × IRProgram :=
  p.emit (.condBranch cond trueBlock falseBlock)

/-- `addReturn(value)`; a void return passes `NullRef`. -/
def addReturn (p : IRProgram) (value : IRValueRef) : IRValueRef × IRProgram :=
  p.emit (.ret value)

def addPhi (p : IRProgram) (resultType : IRType) (incoming : List (IRValueRef × Nat)) :
    IRValueRef × IRProgram :=
  p.emit (.phi resultType incoming)

def addCall (p : IRProgram) (resultType : IRType) (funcPtr : RuntimeFn) (args : List IRValueRef) :
    IRValueRef × IRProgram :=
  p.emit (.call resultType funcPtr args)

/-- `patchPhiEntry`; `none` is a failed assertion. -/
def patchPhiEntry (p : IRProgram) (phiRef : IRValueRef) (entryIdx : Nat) (newValue : IRValueRef)
    (fromBlock : Nat) : Option IRProgram :=
  match phiRef, p.getInstr phiRef with
  | .instr offset, some (.phi ty entries) =>
    if entryIdx < entries.length then
      some { p with instrData := p.instrData.map fun record =>
        if record.1 = offset then (offset, .phi ty (entries.set entryIdx (newValue, fromBlock)))
        else record }
    else none
  | _, _ => none

end IRProgram

end TidyTuples
