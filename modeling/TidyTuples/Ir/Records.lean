import TidyTuples.Ir.Interp
import TidyTuples.Lib.Bytes

/-!
# The records in the instruction array (`umbra_ir.hpp`)

The structs as they lie in `instrData`, with the offsets and sizes of the x86-64 ABI. The bytes
between the fields of a struct are whatever the struct held there.
-/

namespace TidyTuples

/-- `IRValueRef`, a block index or a count: `uint32_t`. -/
abbrev Raw := BitVec 32

namespace Opcode

/-- The enumerators in order. -/
def all : List Opcode :=
  [.constInt, .constBool, .add, .sub, .mul, .div, .rem, .and, .or, .xor, .shl, .shr, .crc32,
    .rotateRight, .zExt, .sExt, .cmpEq, .cmpNe, .cmpLt, .cmpGt, .cmpLe, .cmpGe, .lAnd, .lOr, .lNot,
    .load, .store, .gep, .branch, .condBranch, .ret, .phi, .call, .isNull]

/-- `static_cast<uint8_t>(op)`. -/
def code (op : Opcode) : Nat := all.idxOf op

def ofCode (n : Nat) : Option Opcode := all[n]?

lemma ofCode_code (op : Opcode) : ofCode op.code = some op := by
  cases op <;> rfl

lemma code_lt (op : Opcode) : op.code < 256 := by
  cases op <;> decide

end Opcode

namespace IRType

def ofCode (n : Nat) : Option IRType := [void, bool, int32, int64, uint64, double, ptr][n]?

lemma ofCode_code (t : IRType) : ofCode t.code = some t := by
  cases t <;> rfl

lemma code_lt (t : IRType) : t.code < 256 := by
  cases t <;> decide

end IRType

/-- `paramRef` for a parameter, the offset for an instruction. -/
def IRValueRef.raw : IRValueRef → Raw
  | .null => 0xFFFFFFFF#32
  | .param fnIdx paramIdx =>
    0xFF000000#32 ||| (BitVec.ofNat 32 fnIdx &&& 0xFF#32) <<< 16 |||
      (BitVec.ofNat 32 paramIdx &&& 0xFFFF#32)
  | .instr offset => BitVec.ofNat 32 offset

/-- `isParam(ref)`. -/
def isParamRef (ref : Raw) : Bool := ref &&& 0xFF000000#32 == 0xFF000000#32

/-- The struct of a record, without its header. -/
inductive RecordType
  | constInt | constBool | binary | unary | rotateRight | gep | branch | condBranch | ret | phi | call
deriving DecidableEq, Repr

/-- The fields of a record behind opcode and type. -/
inductive Body
  | constInt (value : Word)
  | constBool (value : Bool)
  | binary (arg0 arg1 : Raw)
  | unary (arg0 : Raw)
  | rotateRight (arg0 shift : Raw)
  | gep (base : Raw) (byteOffset : Word)
  | branch (targetBlock : Raw)
  | condBranch (cond trueBlock falseBlock : Raw)
  | ret (value : Raw)
  | phi (entries : List (Raw × Raw))
  | call (funcPtr : Word) (args : List Raw)
deriving DecidableEq, Repr

structure Record where
  op : Opcode
  resultType : IRType
  body : Body
deriving DecidableEq, Repr

namespace Body

def type : Body → RecordType
  | constInt _ => .constInt
  | constBool _ => .constBool
  | binary _ _ => .binary
  | unary _ => .unary
  | rotateRight _ _ => .rotateRight
  | gep _ _ => .gep
  | branch _ => .branch
  | condBranch _ _ _ => .condBranch
  | ret _ => .ret
  | phi _ => .phi
  | call _ _ => .call

/-- `sizeof`, with the entries and arguments that follow. -/
def size : Body → Nat
  | constInt _ => 16
  | constBool _ => 3
  | binary _ _ => 12
  | unary _ => 8
  | rotateRight _ _ => 12
  | gep _ _ => 16
  | branch _ => 8
  | condBranch _ _ _ => 16
  | ret _ => 8
  | phi entries => 8 + 8 * entries.length
  | call _ args => 24 + 4 * args.length

end Body

open Bytes (Field load)

/-- A 32-bit field. -/
def rawField (distance : Nat) (v : Raw) : Field := ⟨distance, 4, v.toNat⟩

def wordField (distance : Nat) (v : Word) : Field := ⟨distance, 8, v.toNat⟩

/-- `PhiEntry`s behind each other. -/
def entryFields : Nat → List (Raw × Raw) → List Field
  | _, [] => []
  | distance, (value, fromBlock) :: entries =>
    rawField distance value :: rawField (distance + 4) fromBlock :: entryFields (distance + 8) entries

def argFields : Nat → List Raw → List Field
  | _, [] => []
  | distance, arg :: args => rawField distance arg :: argFields (distance + 4) args

namespace Record

/-- `opcode` and `resultType` come first in every struct. -/
def headerFields (r : Record) : List Field := [⟨0, 1, r.op.code⟩, ⟨1, 1, r.resultType.code⟩]

def bodyFields : Body → List Field
  | .constInt value => [wordField 8 value]
  | .constBool value => [⟨2, 1, if value then 1 else 0⟩]
  | .binary arg0 arg1 => [rawField 4 arg0, rawField 8 arg1]
  | .unary arg0 => [rawField 4 arg0]
  | .rotateRight arg0 shift => [rawField 4 arg0, rawField 8 shift]
  | .gep base byteOffset => [rawField 4 base, wordField 8 byteOffset]
  | .branch targetBlock => [rawField 4 targetBlock]
  | .condBranch cond trueBlock falseBlock =>
    [rawField 4 cond, rawField 8 trueBlock, rawField 12 falseBlock]
  | .ret value => [rawField 4 value]
  | .phi entries => rawField 4 (BitVec.ofNat 32 entries.length) :: entryFields 8 entries
  | .call funcPtr args =>
    wordField 8 funcPtr :: rawField 16 (BitVec.ofNat 32 args.length) :: argFields 24 args

def fields (r : Record) : List Field := r.headerFields ++ bodyFields r.body

end Record

/-! ### Reading -/

section

variable (data : List UInt8)

def loadRaw (off : Nat) : Option Raw := (load data off 4).map (BitVec.ofNat 32)

def loadWord (off : Nat) : Option Word := (load data off 8).map (BitVec.ofNat 64)

def loadOp (off : Nat) : Option Opcode := (load data off 1).bind Opcode.ofCode

def loadEntries : Nat → Nat → Option (List (Raw × Raw))
  | _, 0 => some []
  | off, n + 1 => do
    let value ← loadRaw data off
    let fromBlock ← loadRaw data (off + 4)
    return (value, fromBlock) :: (← loadEntries (off + 8) n)

def loadArgs : Nat → Nat → Option (List Raw)
  | _, 0 => some []
  | off, n + 1 => do
    let arg ← loadRaw data off
    return arg :: (← loadArgs (off + 4) n)

/-- The fields of a struct through a pointer to it. -/
def loadBody (off : Nat) : RecordType → Option Body
  | .constInt => return .constInt (← loadWord data (off + 8))
  | .constBool => return .constBool ((← load data (off + 2) 1) != 0)
  | .binary => return .binary (← loadRaw data (off + 4)) (← loadRaw data (off + 8))
  | .unary => return .unary (← loadRaw data (off + 4))
  | .rotateRight => return .rotateRight (← loadRaw data (off + 4)) (← loadRaw data (off + 8))
  | .gep => return .gep (← loadRaw data (off + 4)) (← loadWord data (off + 8))
  | .branch => return .branch (← loadRaw data (off + 4))
  | .condBranch => do
    let cond ← loadRaw data (off + 4)
    return .condBranch cond (← loadRaw data (off + 8)) (← loadRaw data (off + 12))
  | .ret => return .ret (← loadRaw data (off + 4))
  | .phi => do
    let numEntries ← loadRaw data (off + 4)
    return .phi (← loadEntries data (off + 8) numEntries.toNat)
  | .call => do
    let funcPtr ← loadWord data (off + 8)
    let numArgs ← loadRaw data (off + 16)
    return .call funcPtr (← loadArgs data (off + 24) numArgs.toNat)

/-- `reinterpret_cast` to the struct, and all its fields. -/
def loadRecord (off : Nat) (type : RecordType) : Option Record := do
  let op ← loadOp data off
  let resultType ← (load data (off + 1) 1).bind IRType.ofCode
  return ⟨op, resultType, ← loadBody data off type⟩

/-- The switch of `instrSize`. -/
def opSize (off : Nat) (op : Opcode) : Option Nat :=
  match op with
  | .constInt => return 16
  | .constBool => return 3
  | .rotateRight => return 12
  | .gep => return 16
  | .branch => return 8
  | .condBranch => return 16
  | .ret => return 8
  | .phi => return 8 + (← loadRaw data (off + 4)).toNat * 8
  | .call => return 24 + (← loadRaw data (off + 16)).toNat * 4
  | .add | .sub | .mul | .div | .rem | .and | .or | .xor | .shl | .shr | .crc32
  | .cmpEq | .cmpNe | .cmpLt | .cmpGt | .cmpLe | .cmpGe | .lAnd | .lOr | .store => return 12
  | .load | .zExt | .sExt | .lNot | .isNull => return 8

/-- `instrSize`: `none` is a read behind the array. -/
def instrSize (off : Nat) : Option Nat := do
  let code ← load data off 1
  match Opcode.ofCode code with
  | none => return 2
  | some op => opSize data off op

/-- The offsets that a walk in steps of `instrSize` visits, if it ends at the end of the array. -/
def walk : Nat → Nat → Option (List Nat)
  | 0, off => if off = data.length then some [] else none
  | fuel + 1, off =>
    if off = data.length then some []
    else do
      let size ← instrSize data off
      return off :: (← walk fuel (off + size))

end

end TidyTuples
