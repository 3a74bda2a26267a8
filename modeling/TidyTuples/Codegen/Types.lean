import TidyTuples.Operators.Runtime

/-!
# The wrapper types of the code generation layer (`codegen_types.hpp`)

A wrapper holds the reference of a value. Its operators add an instruction to the program. An
`OperatorTree` is an expression over values that are known at run time only.
-/

namespace TidyTuples

namespace Codegen

namespace Int64

/-- The operators with an `Int64` result. -/
inductive Op
  | add | sub | mul | div | rem | and | or | xor
deriving DecidableEq, Repr

def Op.opcode : Op → Opcode
  | .add => .add
  | .sub => .sub
  | .mul => .mul
  | .div => .div
  | .rem => .rem
  | .and => .and
  | .or => .or
  | .xor => .xor

/-- The operators with a `Bool` result. -/
inductive Comparison
  | eq | ne | lt | gt | le | ge
deriving DecidableEq, Repr

def Comparison.opcode : Comparison → Opcode
  | .eq => .cmpEq
  | .ne => .cmpNe
  | .lt => .cmpLt
  | .gt => .cmpGt
  | .le => .cmpLe
  | .ge => .cmpGe

def binary (p : IRProgram) (op : Op) (a b : IRValueRef) : IRValueRef × IRProgram :=
  p.addBinary op.opcode .int64 a b

def compare (p : IRProgram) (op : Comparison) (a b : IRValueRef) : IRValueRef × IRProgram :=
  p.addBinary op.opcode .bool a b

end Int64

namespace UInt64

inductive Op
  | add | mul | xor | and | crc32
deriving DecidableEq, Repr

def Op.opcode : Op → Opcode
  | .add => .add
  | .mul => .mul
  | .xor => .xor
  | .and => .and
  | .crc32 => .crc32

def binary (p : IRProgram) (op : Op) (a b : IRValueRef) : IRValueRef × IRProgram :=
  p.addBinary op.opcode .uint64 a b

def rotateRight (p : IRProgram) (a : IRValueRef) (bits : Nat) : IRValueRef × IRProgram :=
  p.addRotateRight a bits

def eq (p : IRProgram) (a b : IRValueRef) : IRValueRef × IRProgram :=
  p.addBinary .cmpEq .bool a b

end UInt64

namespace Bool

inductive Op
  | and | or
deriving DecidableEq, Repr

def Op.opcode : Op → Opcode
  | .and => .lAnd
  | .or => .lOr

def binary (p : IRProgram) (op : Op) (a b : IRValueRef) : IRValueRef × IRProgram :=
  p.addBinary op.opcode .bool a b

def lnot (p : IRProgram) (a : IRValueRef) : IRValueRef × IRProgram := p.addUnary .lNot .bool a

end Bool

def BytePtr.offset (p : IRProgram) (base : IRValueRef) (byteOffset : Word) :
    IRValueRef × IRProgram :=
  p.addGEP base byteOffset

end Codegen

open Codegen

/-- The wrapper types. -/
inductive WrapperType
  | int64 | uint64 | bool | bytePtr
deriving DecidableEq, Repr

/-- An expression built with the operators of the wrapper types. -/
inductive OperatorTree : WrapperType → Type
  | operand {k : WrapperType} (ref : IRValueRef) : OperatorTree k
  | int64 (op : Int64.Op) (a b : OperatorTree .int64) : OperatorTree .int64
  | compare (op : Int64.Comparison) (a b : OperatorTree .int64) : OperatorTree .bool
  | uint64 (op : UInt64.Op) (a b : OperatorTree .uint64) : OperatorTree .uint64
  | rotateRight (a : OperatorTree .uint64) (bits : Nat) : OperatorTree .uint64
  | equal (a b : OperatorTree .uint64) : OperatorTree .bool
  | logic (op : Bool.Op) (a b : OperatorTree .bool) : OperatorTree .bool
  | lnot (a : OperatorTree .bool) : OperatorTree .bool
  | offset (base : OperatorTree .bytePtr) (byteOffset : Word) : OperatorTree .bytePtr

namespace OperatorTree

/-- The C++ evaluation of the expression: the operands first, then the operator. -/
def generate {k : WrapperType} : OperatorTree k → IRProgram → IRValueRef × IRProgram
  | operand ref, p => (ref, p)
  | int64 op a b, p =>
    let (ra, p) := a.generate p
    let (rb, p) := b.generate p
    Int64.binary p op ra rb
  | compare op a b, p =>
    let (ra, p) := a.generate p
    let (rb, p) := b.generate p
    Int64.compare p op ra rb
  | uint64 op a b, p =>
    let (ra, p) := a.generate p
    let (rb, p) := b.generate p
    UInt64.binary p op ra rb
  | rotateRight a bits, p =>
    let (ra, p) := a.generate p
    UInt64.rotateRight p ra bits
  | equal a b, p =>
    let (ra, p) := a.generate p
    let (rb, p) := b.generate p
    UInt64.eq p ra rb
  | logic op a b, p =>
    let (ra, p) := a.generate p
    let (rb, p) := b.generate p
    Bool.binary p op ra rb
  | lnot a, p =>
    let (ra, p) := a.generate p
    Bool.lnot p ra
  | offset base byteOffset, p =>
    let (rbase, p) := base.generate p
    BytePtr.offset p rbase byteOffset

/-- The operands at the leaves. -/
def operands {k : WrapperType} : OperatorTree k → List IRValueRef
  | operand ref => [ref]
  | int64 _ a b => a.operands ++ b.operands
  | compare _ a b => a.operands ++ b.operands
  | uint64 _ a b => a.operands ++ b.operands
  | rotateRight a _ => a.operands
  | equal a b => a.operands ++ b.operands
  | logic _ a b => a.operands ++ b.operands
  | lnot a => a.operands
  | offset base _ => base.operands

end OperatorTree

end TidyTuples
