import TidyTuples.Ir.Interp
import TidyTuples.Operators.HashTable

/-!
# The runtime of a query: memory and precompiled functions

The functions whose addresses the operators embed in the code: the column load of a scan, the
trampolines of a hash join and of the result printer. Their arguments beyond the arity of the
trampoline are ignored, as in the calling convention.
-/

namespace TidyTuples

/-- What a virtual register holds; the null `HTEntry*` is the word 0. -/
inductive Value
  | word (w : Word)
  | entry (e : HTEntry)
deriving DecidableEq, Repr

namespace Value

/-- The register as an integer. No code computes with the address of an entry. -/
def toWord : Value → Word
  | word w => w
  | entry _ => 0

@[simp] lemma toWord_word (w : Word) : (word w).toWord = w := rfl

end Value

/-- Column arrays, hash tables and printed rows by the address of their object; `cells` is the
rest of memory. -/
structure Heap where
  columns : Word → List Word
  hashTables : Word → RuntimeHashTable
  rows : Word → List (List Word)
  cells : Word → Word

namespace Heap

def setHashTable (heap : Heap) (addr : Word) (ht : RuntimeHashTable) : Heap :=
  { heap with hashTables := Function.update heap.hashTables addr ht }

def appendRow (heap : Heap) (addr : Word) (row : List Word) : Heap :=
  { heap with rows := Function.update heap.rows addr (heap.rows addr ++ [row]) }

end Heap

def emptyHeap : Heap where
  columns _ := []
  hashTables _ := {}
  rows _ := []
  cells _ := 0

/-- `loadFn`: `ptr[idx]`. -/
def loadColumnValue (heap : Heap) (ptr idx : Word) : Option Word :=
  readVector (heap.columns ptr) idx.toInt

/-- `insertFn`: the slots 2 to 5 are the array `keys`, 6 to 9 the array `payload`. -/
def insertFn (heap : Heap) (args : List Word) : Option Heap :=
  match args with
  | [] => none
  | ht :: rest =>
    if rest.length < 9 then none
    else do
      let table := heap.hashTables ht
      let table ← table.insert rest.head! (rest.drop 1 |>.take 4) (rest.drop 5 |>.take 4)
        table.numKeyFields table.numPayloadFields
      return heap.setHashTable ht table

/-- `lookupAllFn`: the slots 2 to 5 are the array `keys`. -/
def lookupAllFn (heap : Heap) (args : List Word) : Option (Word × Heap) :=
  match args with
  | [] => none
  | ht :: rest =>
    if rest.length < 5 then none
    else do
      let table := heap.hashTables ht
      let table ← table.lookupAll rest.head! (rest.drop 1 |>.take 4) table.numKeyFields
      return (ht, heap.setHashTable ht table)

/-- `PrintTranslator`'s trampoline: `self->rows.emplace_back(vals, vals + nCols)`. -/
def printRow (heap : Heap) (args : List Word) : Option Heap :=
  match args with
  | self :: nCols :: vals =>
    if vals.length < 8 ∨ nCols.toInt < 0 ∨ 8 < nCols.toInt then none
    else some (heap.appendRow self (vals.take nCols.toNat))
  | _ => none

/-- Call a precompiled function. -/
def callRuntime (fn : RuntimeFn) (args : List Value) (heap : Heap) : Option (Value × Heap) :=
  match fn, args with
  | .loadColumnValue, ptr :: idx :: _ => do
    let v ← loadColumnValue heap ptr.toWord idx.toWord
    return (.word v, heap)
  | .insert, args => do
    let heap ← insertFn heap (args.map Value.toWord)
    return (.word 0, heap)
  | .lookupAll, args => do
    let (ht, heap) ← lookupAllFn heap (args.map Value.toWord)
    return (.word ht, heap)
  | .matchCount, ht :: _ => some (.word (heap.hashTables ht.toWord).matchCount, heap)
  | .matchAt, ht :: idx :: _ =>
    match (heap.hashTables ht.toWord).matchAt idx.toWord with
    | some e => some (.entry e, heap)
    | none => some (.word 0, heap)
  | .getKey, .entry e :: i :: _ => do
    let v ← readVector e.keyData (i.toWord.truncate 32).toInt
    return (.word v, heap)
  | .getPayload, .entry e :: i :: _ => do
    let v ← readVector e.payloadData (i.toWord.truncate 32).toInt
    return (.word v, heap)
  | .printRow, args => do
    let heap ← printRow heap (args.map Value.toWord)
    return (.word 0, heap)
  | _, _ => none

/-- The opcodes whose meaning is that of the host's instruction. -/
structure Arch where
  zExt : Word → Word
  crc32 : Word → Word → Word
  rotateRight : Nat → Word → Word

namespace Arch

/-- CRC-32C over the low `n` bits of the operand. -/
def crc32c : Nat → BitVec 32 → Word → BitVec 32
  | 0, crc, _ => crc
  | n + 1, crc, bits =>
    let shifted := crc >>> 1
    crc32c n (if crc.getLsbD 0 ^^ bits.getLsbD 0 then shifted ^^^ 0x82F63B78 else shifted) (bits >>> 1)

/-- The emission helpers for x86-64. `ZExt` is the `movzx` of 32-bit operands that the comment in
`emit_zext` asks for; the assembler encodes it as `0F B7`, whose source is 16 bits wide. -/
def x86 : Arch where
  zExt a := (a.truncate 32).zeroExtend 64
  crc32 a b := (crc32c 64 (a.truncate 32) b).zeroExtend 64
  rotateRight shift a := a.rotateRight shift

variable (arch : Arch)

def evalBinary (op : Opcode) (a b : Word) : Word :=
  match op with
  | .add => a + b
  | .sub => a - b
  | .mul => a * b
  | .div => a.sdiv b
  | .rem => a.srem b
  | .and => a &&& b
  | .or => a ||| b
  | .xor => a ^^^ b
  | .shl => a <<< (b % 64)
  | .shr => a >>> (b % 64)
  | .crc32 => arch.crc32 a b
  | .cmpEq => IRProgram.wordOfBool (a == b)
  | .cmpNe => IRProgram.wordOfBool (a != b)
  | .cmpLt => IRProgram.wordOfBool (a.slt b)
  | .cmpGt => IRProgram.wordOfBool (b.slt a)
  | .cmpLe => IRProgram.wordOfBool (a.sle b)
  | .cmpGe => IRProgram.wordOfBool (b.sle a)
  | .lAnd => IRProgram.wordOfBool (a != 0 && b != 0)
  | .lOr => IRProgram.wordOfBool (a != 0 || b != 0)
  | _ => 0

def evalUnary (op : Opcode) (a : Word) : Word :=
  match op with
  | .zExt => arch.zExt a
  | .sExt => (a.truncate 32).signExtend 64
  | .lNot => IRProgram.wordOfBool (a == 0)
  | _ => 0

/-- The IR of a query, run on its tables. -/
def machine : Machine Value Heap where
  const := .word
  binary op a b := .word (arch.evalBinary op a.toWord b.toWord)
  unary op a := .word (arch.evalUnary op a.toWord)
  rotateRight shift a := .word (arch.rotateRight shift a.toWord)
  gep byteOffset a := .word (a.toWord + byteOffset)
  truthy a := a != .word 0
  load ptr heap := .word (heap.cells ptr.toWord)
  store ptr v heap := { heap with cells := Function.update heap.cells ptr.toWord v.toWord }
  call := callRuntime

end Arch

end TidyTuples
