import TidyTuples.Backend.FlyingStart
import TidyTuples.Lib.Memory

/-!
# The two hosts (`emit_*` of `flying_start.cpp`)

The helpers for x86-64 and for arm64, each writing instructions of its host, and what these
instructions do to 64-bit registers, the flags and byte-addressed memory. The registers are virtual
ones still. What the assembler refuses to encode is an error of the compilation; on arm64 these are
immediates that are too wide. The `movzx` of 32-bit operands does what the comment in `emit_zext`
says; the assembler encodes it as `0F B7`, whose source is 16 bits wide.
-/

namespace TidyTuples

/-- The flags are known by the operands of the last comparison. -/
structure HostState where
  regs : VReg → Word
  mem : Memory 64
  flags : Word × Word

namespace HostState

def set (s : HostState) (r : VReg) (v : Word) : HostState :=
  { s with regs := Function.update s.regs r v }

def store64 (s : HostState) (ptr value : Word) : HostState :=
  { s with mem := s.mem.store ptr 8 value }

def load64 (s : HostState) (ptr : Word) : Word := s.mem.load ptr 8

end HostState

/-- The condition codes that the helpers name, as in `jl`, `setl`, `b_lt` and `kLT`. -/
inductive CondCode
  | eq | ne | lt | gt | le | ge
deriving DecidableEq, Repr

/-- The comparisons are signed. -/
def CondCode.holds (flags : Word × Word) : CondCode → Bool
  | eq => flags.1 == flags.2
  | ne => flags.1 != flags.2
  | lt => flags.1.slt flags.2
  | gt => flags.2.slt flags.1
  | le => flags.1.sle flags.2
  | ge => flags.2.sle flags.1

/-! ### x86-64 -/

/-- The instructions the helpers write. `movzx32` has 32-bit operands, as documented and not as
encoded; `movsxd` has a 32-bit source; `setcc` and the source of `movzx8` are 8 bits wide. -/
inductive X86Instr
  | mov (dst src : VReg)
  | movImm (dst : VReg) (value : Word)
  | add (dst src : VReg)
  | sub (dst src : VReg)
  | imul (dst src : VReg)
  | and (dst src : VReg)
  | or (dst src : VReg)
  | xor (dst src : VReg)
  | xorImm (dst : VReg) (value : Word)
  | crc32 (dst src : VReg)
  | ror (dst : VReg) (count : BitVec 8)
  | movzx32 (dst src : VReg)
  | movsxd (dst src : VReg)
  | load (dst ptr : VReg)
  | store (ptr src : VReg)
  | lea (dst base : VReg) (displacement : BitVec 32)
  | cmp (a b : VReg)
  | test (a b : VReg)
  | setcc (cond : CondCode) (dst : VReg)
  | movzx8 (dst src : VReg)
  | jcc (cond : CondCode) (label : Label)
  | jmp (label : Label)
deriving DecidableEq, Repr

namespace X86Instr

/-- An instruction with a 32-bit destination clears the upper half of the register. `test` compares
with 0 what the operands have in common. -/
def exec (s : HostState) : X86Instr → HostState
  | mov dst src => s.set dst (s.regs src)
  | movImm dst value => s.set dst value
  | add dst src => s.set dst (s.regs dst + s.regs src)
  | sub dst src => s.set dst (s.regs dst - s.regs src)
  | imul dst src => s.set dst (s.regs dst * s.regs src)
  | and dst src => s.set dst (s.regs dst &&& s.regs src)
  | or dst src => s.set dst (s.regs dst ||| s.regs src)
  | xor dst src => s.set dst (s.regs dst ^^^ s.regs src)
  | xorImm dst value => s.set dst (s.regs dst ^^^ value)
  | crc32 dst src =>
    s.set dst ((Arch.crc32c 64 ((s.regs dst).truncate 32) (s.regs src)).zeroExtend 64)
  | ror dst count => s.set dst ((s.regs dst).rotateRight (count.toNat % 64))
  | movzx32 dst src => s.set dst (((s.regs src).truncate 32).zeroExtend 64)
  | movsxd dst src => s.set dst (((s.regs src).truncate 32).signExtend 64)
  | load dst ptr => s.set dst (s.load64 (s.regs ptr))
  | store ptr src => s.store64 (s.regs ptr) (s.regs src)
  | lea dst base displacement => s.set dst (s.regs base + displacement.signExtend 64)
  | cmp a b => { s with flags := (s.regs a, s.regs b) }
  | test a b => { s with flags := (s.regs a &&& s.regs b, 0) }
  | setcc cond dst =>
    s.set dst ((s.regs dst >>> 8) <<< 8 ||| IRProgram.wordOfBool (cond.holds s.flags))
  | movzx8 dst src => s.set dst (((s.regs src).truncate 8).zeroExtend 64)
  | jcc _ _ => s
  | jmp _ => s

/-- The label that is jumped to. -/
def target (s : HostState) : X86Instr → Option Label
  | jcc cond label => if cond.holds s.flags then some label else none
  | jmp label => some label
  | _ => none

end X86Instr

namespace X86

open X86Instr

def emitMov (dst src : VReg) : List X86Instr := [mov dst src]

def emitMovImm (dst : VReg) (value : Word) : List X86Instr := [movImm dst value]

def emitAdd (dst a b : VReg) : List X86Instr := [mov dst a, add dst b]

def emitSub (dst a b : VReg) : List X86Instr := [mov dst a, sub dst b]

def emitMul (dst a b : VReg) : List X86Instr := [mov dst a, imul dst b]

def emitAnd (dst a b : VReg) : List X86Instr := [mov dst a, and dst b]

def emitOr (dst a b : VReg) : List X86Instr := [mov dst a, or dst b]

def emitXor (dst a b : VReg) : List X86Instr := [mov dst a, xor dst b]

def emitLnot (dst src : VReg) : List X86Instr := [mov dst src, xorImm dst 1]

def emitCrc32 (dst a b : VReg) : List X86Instr := [mov dst a, crc32 dst b]

/-- The count is encoded in one byte. -/
def emitRor (dst src : VReg) (shift : Nat) : List X86Instr :=
  [mov dst src, ror dst (BitVec.ofNat 8 shift)]

def emitZext (dst src : VReg) : List X86Instr := [movzx32 dst src]

def emitSext (dst src : VReg) : List X86Instr := [movsxd dst src]

def emitLoad64 (dst ptr : VReg) : List X86Instr := [load dst ptr]

def emitStore64 (ptr value : VReg) : List X86Instr := [store ptr value]

def emitLea (dst base : VReg) (offset : BitVec 32) : List X86Instr := [lea dst base offset]

/-- The jump that `emit_cmp_jump_true` chooses: `je`, `jne`, `jl`, `jg`, `jle`, `jge`, or `jnz`. -/
def jumpCode : Opcode → CondCode
  | .cmpEq => .eq
  | .cmpNe => .ne
  | .cmpLt => .lt
  | .cmpGt => .gt
  | .cmpLe => .le
  | .cmpGe => .ge
  | _ => .ne

/-- The instruction that `emit_cmp_set` chooses: `sete`, `setne`, `setl`, `setg`, `setle`, `setge`, or
`setne`. -/
def setCode : Opcode → CondCode
  | .cmpEq => .eq
  | .cmpNe => .ne
  | .cmpLt => .lt
  | .cmpGt => .gt
  | .cmpLe => .le
  | .cmpGe => .ge
  | _ => .ne

def emitCmpJumpTrue (cmpOp : Opcode) (a b : VReg) (trueLabel : Label) : List X86Instr :=
  [cmp a b, jcc (jumpCode cmpOp) trueLabel]

def emitCmpSet (cmpOp : Opcode) (dst a b : VReg) : List X86Instr :=
  [cmp a b, setcc (setCode cmpOp) dst, movzx8 dst dst]

/-- `jnz` is `jne`. -/
def emitTestJumpTrue (cond : VReg) (trueLabel : Label) : List X86Instr :=
  [test cond cond, jcc .ne trueLabel]

def emitJmp (target : Label) : List X86Instr := [jmp target]

end X86

/-! ### arm64 -/

inductive ArmInstr
  | mov (dst src : VReg)
  | movImm (dst : VReg) (value : Word)
  | add (dst a b : VReg)
  | sub (dst a b : VReg)
  | mul (dst a b : VReg)
  | and (dst a b : VReg)
  | orr (dst a b : VReg)
  | eor (dst a b : VReg)
  | eorOne (dst src : VReg)
  | crc32cx (dst a b : VReg)
  | rorImm (dst src : VReg) (amount : Nat)
  | sxtw (dst src : VReg)
  | ldr (dst ptr : VReg)
  | str (src ptr : VReg)
  | addImm (dst base : VReg) (value : Word)
  | cmp (a b : VReg)
  | cset (dst : VReg) (cond : CondCode)
  | bCond (cond : CondCode) (label : Label)
  | cbnz (reg : VReg) (label : Label)
  | branch (label : Label)
deriving DecidableEq, Repr

namespace ArmInstr

/-- `crc32cx` writes a 32-bit register, which clears the upper half. -/
def exec (s : HostState) : ArmInstr → HostState
  | mov dst src => s.set dst (s.regs src)
  | movImm dst value => s.set dst value
  | add dst a b => s.set dst (s.regs a + s.regs b)
  | sub dst a b => s.set dst (s.regs a - s.regs b)
  | mul dst a b => s.set dst (s.regs a * s.regs b)
  | and dst a b => s.set dst (s.regs a &&& s.regs b)
  | orr dst a b => s.set dst (s.regs a ||| s.regs b)
  | eor dst a b => s.set dst (s.regs a ^^^ s.regs b)
  | eorOne dst src => s.set dst (s.regs src ^^^ 1)
  | crc32cx dst a b =>
    s.set dst ((Arch.crc32c 64 ((s.regs a).truncate 32) (s.regs b)).zeroExtend 64)
  | rorImm dst src amount => s.set dst ((s.regs src).rotateRight amount)
  | sxtw dst src => s.set dst (((s.regs src).truncate 32).signExtend 64)
  | ldr dst ptr => s.set dst (s.load64 (s.regs ptr))
  | str src ptr => s.store64 (s.regs ptr) (s.regs src)
  | addImm dst base value => s.set dst (s.regs base + value)
  | cmp a b => { s with flags := (s.regs a, s.regs b) }
  | cset dst cond => s.set dst (IRProgram.wordOfBool (cond.holds s.flags))
  | bCond _ _ => s
  | cbnz _ _ => s
  | branch _ => s

/-- The label that is jumped to. -/
def target (s : HostState) : ArmInstr → Option Label
  | bCond cond label => if cond.holds s.flags then some label else none
  | cbnz reg label => if s.regs reg != 0 then some label else none
  | branch label => some label
  | _ => none

/-- An immediate of 12 bits, or one of 12 bits shifted by 12. -/
def isAddSubImm (value : Word) : Bool :=
  value.toNat ≤ 0xFFF || (value.toNat % 0x1000 == 0 && value.toNat < 0x1000000)

/-- The assembler has an encoding for the instruction. -/
def isEncodable : ArmInstr → Bool
  | rorImm _ _ amount => amount < 64
  | addImm _ _ value => isAddSubImm value
  | _ => true

end ArmInstr

namespace Arm64

open ArmInstr

def emitMov (dst src : VReg) : List ArmInstr := [mov dst src]

def emitMovImm (dst : VReg) (value : Word) : List ArmInstr := [movImm dst value]

def emitAdd (dst a b : VReg) : List ArmInstr := [add dst a b]

def emitSub (dst a b : VReg) : List ArmInstr := [sub dst a b]

def emitMul (dst a b : VReg) : List ArmInstr := [mul dst a b]

def emitAnd (dst a b : VReg) : List ArmInstr := [and dst a b]

def emitOr (dst a b : VReg) : List ArmInstr := [orr dst a b]

def emitXor (dst a b : VReg) : List ArmInstr := [eor dst a b]

def emitLnot (dst src : VReg) : List ArmInstr := [eorOne dst src]

def emitCrc32 (dst a b : VReg) : List ArmInstr := [crc32cx dst a b]

def emitRor (dst src : VReg) (shift : Nat) : List ArmInstr := [rorImm dst src shift]

/-- A copy of all 64 bits. -/
def emitZext (dst src : VReg) : List ArmInstr := [mov dst src]

def emitSext (dst src : VReg) : List ArmInstr := [sxtw dst src]

def emitLoad64 (dst ptr : VReg) : List ArmInstr := [ldr dst ptr]

def emitStore64 (ptr value : VReg) : List ArmInstr := [str value ptr]

def emitLea (dst base : VReg) (offset : BitVec 32) : List ArmInstr :=
  [addImm dst base (offset.signExtend 64)]

/-- The jump that `emit_cmp_jump_true` chooses: `b_eq`, `b_ne`, `b_lt`, `b_gt`, `b_le`, `b_ge`, or
`b_ne`. -/
def jumpCode : Opcode → CondCode
  | .cmpEq => .eq
  | .cmpNe => .ne
  | .cmpLt => .lt
  | .cmpGt => .gt
  | .cmpLe => .le
  | .cmpGe => .ge
  | _ => .ne

/-- The operand of `cset` that `emit_cmp_set` chooses: `kEQ`, `kNE`, `kLT`, `kGT`, `kLE`, `kGE`, or
`kNE`. -/
def setCode : Opcode → CondCode
  | .cmpEq => .eq
  | .cmpNe => .ne
  | .cmpLt => .lt
  | .cmpGt => .gt
  | .cmpLe => .le
  | .cmpGe => .ge
  | _ => .ne

def emitCmpJumpTrue (cmpOp : Opcode) (a b : VReg) (trueLabel : Label) : List ArmInstr :=
  [cmp a b, bCond (jumpCode cmpOp) trueLabel]

def emitCmpSet (cmpOp : Opcode) (dst a b : VReg) : List ArmInstr :=
  [cmp a b, cset dst (setCode cmpOp)]

def emitTestJumpTrue (cond : VReg) (trueLabel : Label) : List ArmInstr := [cbnz cond trueLabel]

def emitJmp (target : Label) : List ArmInstr := [branch target]

end Arm64

/-! ### Code on a host -/

/-- The helpers of a host. -/
structure Helpers (I : Type) where
  emitMov : VReg → VReg → List I
  emitMovImm : VReg → Word → List I
  emitAdd : VReg → VReg → VReg → List I
  emitSub : VReg → VReg → VReg → List I
  emitMul : VReg → VReg → VReg → List I
  emitAnd : VReg → VReg → VReg → List I
  emitOr : VReg → VReg → VReg → List I
  emitXor : VReg → VReg → VReg → List I
  emitLnot : VReg → VReg → List I
  emitCrc32 : VReg → VReg → VReg → List I
  emitRor : VReg → VReg → Nat → List I
  emitZext : VReg → VReg → List I
  emitSext : VReg → VReg → List I
  emitLoad64 : VReg → VReg → List I
  emitStore64 : VReg → VReg → List I
  emitLea : VReg → VReg → BitVec 32 → List I
  emitCmpJumpTrue : Opcode → VReg → VReg → Label → List I
  emitCmpSet : Opcode → VReg → VReg → VReg → List I
  emitTestJumpTrue : VReg → Label → List I
  emitJmp : Label → List I

/-- The call of a helper that an instruction stands for; the others jump or call a function. -/
def Helpers.write {I : Type} (H : Helpers I) : VInstr → Option (List I)
  | .mov dst src => some (H.emitMov dst src)
  | .movImm dst value => some (H.emitMovImm dst value)
  | .binary op dst a b =>
    match op with
    | .add => some (H.emitAdd dst a b)
    | .sub => some (H.emitSub dst a b)
    | .mul => some (H.emitMul dst a b)
    | .and => some (H.emitAnd dst a b)
    | .or => some (H.emitOr dst a b)
    | .xor => some (H.emitXor dst a b)
    | .crc32 => some (H.emitCrc32 dst a b)
    | _ => none
  | .lnot dst src => some (H.emitLnot dst src)
  | .extend op dst src =>
    match op with
    | .zExt => some (H.emitZext dst src)
    | .sExt => some (H.emitSext dst src)
    | _ => none
  | .ror dst src shift => some (H.emitRor dst src shift)
  | .load64 dst ptr => some (H.emitLoad64 dst ptr)
  | .store64 ptr value => some (H.emitStore64 ptr value)
  | .lea dst base offset => some (H.emitLea dst base (offset.truncate 32))
  | .cmpSet op dst a b => some (H.emitCmpSet op dst a b)
  | _ => none

/-- The call of a helper that a jump stands for. -/
def Helpers.writeJump {I : Type} (H : Helpers I) : VInstr → Option (List I)
  | .cmpJumpTrue op a b label => some (H.emitCmpJumpTrue op a b label)
  | .testJumpTrue cond label => some (H.emitTestJumpTrue cond label)
  | .jmp label => some (H.emitJmp label)
  | _ => none

/-- Run instructions up to the first jump that is taken. -/
def runTo {I : Type} (exec : HostState → I → HostState) (target : HostState → I → Option Label) :
    List I → HostState → HostState × Option Label
  | [], s => (s, none)
  | i :: rest, s =>
    match target s i with
    | some label => (s, some label)
    | none => runTo exec target rest (exec s i)

def X86.helpers : Helpers X86Instr where
  emitMov := X86.emitMov
  emitMovImm := X86.emitMovImm
  emitAdd := X86.emitAdd
  emitSub := X86.emitSub
  emitMul := X86.emitMul
  emitAnd := X86.emitAnd
  emitOr := X86.emitOr
  emitXor := X86.emitXor
  emitLnot := X86.emitLnot
  emitCrc32 := X86.emitCrc32
  emitRor := X86.emitRor
  emitZext := X86.emitZext
  emitSext := X86.emitSext
  emitLoad64 := X86.emitLoad64
  emitStore64 := X86.emitStore64
  emitLea := X86.emitLea
  emitCmpJumpTrue := X86.emitCmpJumpTrue
  emitCmpSet := X86.emitCmpSet
  emitTestJumpTrue := X86.emitTestJumpTrue
  emitJmp := X86.emitJmp

def Arm64.helpers : Helpers ArmInstr where
  emitMov := Arm64.emitMov
  emitMovImm := Arm64.emitMovImm
  emitAdd := Arm64.emitAdd
  emitSub := Arm64.emitSub
  emitMul := Arm64.emitMul
  emitAnd := Arm64.emitAnd
  emitOr := Arm64.emitOr
  emitXor := Arm64.emitXor
  emitLnot := Arm64.emitLnot
  emitCrc32 := Arm64.emitCrc32
  emitRor := Arm64.emitRor
  emitZext := Arm64.emitZext
  emitSext := Arm64.emitSext
  emitLoad64 := Arm64.emitLoad64
  emitStore64 := Arm64.emitStore64
  emitLea := Arm64.emitLea
  emitCmpJumpTrue := Arm64.emitCmpJumpTrue
  emitCmpSet := Arm64.emitCmpSet
  emitTestJumpTrue := Arm64.emitTestJumpTrue
  emitJmp := Arm64.emitJmp

inductive Host
  | x86 | arm64
deriving DecidableEq, Repr

namespace Host

/-- What the instructions written for `i` do. There is no result where the assembler refuses one
of them. -/
def effect (i : VInstr) (s : HostState) : Host → Option HostState
  | x86 => do
    let code ← X86.helpers.write i
    return code.foldl X86Instr.exec s
  | arm64 => do
    let code ← Arm64.helpers.write i
    if code.all ArmInstr.isEncodable then some (code.foldl ArmInstr.exec s) else none

/-- What the instructions written for the jump `i` do, and the label they jump to, if they do. -/
def jump (i : VInstr) (s : HostState) : Host → Option (HostState × Option Label)
  | x86 => do
    let code ← X86.helpers.writeJump i
    return runTo X86Instr.exec X86Instr.target code s
  | arm64 => do
    let code ← Arm64.helpers.writeJump i
    return runTo ArmInstr.exec ArmInstr.target code s

/-- Run straight-line code. -/
def run (host : Host) (code : List VInstr) (s : HostState) : Option HostState :=
  code.foldlM (fun s i => host.effect i s) s

end Host

end TidyTuples
