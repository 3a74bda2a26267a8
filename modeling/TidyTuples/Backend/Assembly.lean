import TidyTuples.Operators.Runtime

/-!
# The instructions of the emission helpers

What the helpers `emit_*` of `flying_start.cpp` write is one instruction here, on virtual registers.
The assembler, its register allocation and its calls are taken as correct: the register for the
address of a called function is left out.
-/

namespace TidyTuples

/-- A virtual register, by what `new_gp64` was called for. An instruction stands once in its
function, so no register is named twice. -/
inductive VReg
  | phi (ref : Nat)
  | result (ref : Nat)
  | argument (call index : Nat)
  /-- For an operand that had no register yet. -/
  | requested (ref : IRValueRef)
deriving DecidableEq, Repr

inductive Label
  | block (b : Nat)
  | trueEdge (condBranch : Nat)
deriving DecidableEq, Repr

inductive VInstr
  | bind (label : Label)
  | mov (dst src : VReg)
  | movImm (dst : VReg) (value : Word)
  | binary (op : Opcode) (dst a b : VReg)
  | lnot (dst src : VReg)
  | extend (op : Opcode) (dst src : VReg)
  | ror (dst src : VReg) (shift : Nat)
  | load64 (dst ptr : VReg)
  | store64 (ptr value : VReg)
  | lea (dst base : VReg) (offset : Word)
  | cmpSet (op : Opcode) (dst a b : VReg)
  | cmpJumpTrue (op : Opcode) (a b : VReg) (label : Label)
  | testJumpTrue (cond : VReg) (label : Label)
  | jmp (label : Label)
  | invoke (fn : RuntimeFn) (args : List VReg) (ret : Option VReg)
  | ret
deriving DecidableEq, Repr

/-- `CmpEq` to `CmpGe`. -/
def Opcode.isComparison : Opcode → Bool
  | .cmpEq | .cmpNe | .cmpLt | .cmpGt | .cmpLe | .cmpGe => true
  | _ => false

/-- A machine that sets flags: `compare` is the condition that `emit_cmp_set` and
`emit_cmp_jump_true` choose for an opcode, each with a table of its own for either host. -/
structure Target (V σ : Type) extends Machine V σ where
  compare : Opcode → V → V → Bool
  truthy_const : ∀ w, truthy (const w) = (w != 0)
  binary_compare : ∀ op a b, op.isComparison = true →
    binary op a b = const (IRProgram.wordOfBool (compare op a b))

structure VState (V σ : Type) where
  regs : VReg → V
  mem : σ
  trace : List (Event V)

def VState.setReg {V σ : Type} (s : VState V σ) (r : VReg) (v : V) : VState V σ :=
  { s with regs := Function.update s.regs r v }

/-- Where the code stands after a run of instructions: before a jump to a label, returned, or in
undefined behaviour. -/
inductive CodeOutcome (V σ : Type)
  | goto (label : Label) (s : VState V σ)
  | returned (s : VState V σ)
  | stuck (s : VState V σ)

namespace Target

variable {V σ : Type} (M : Target V σ)

/-- An instruction that does not jump. -/
def execVInstr (i : VInstr) (s : VState V σ) : Option (VState V σ) :=
  match i with
  | .mov dst src => some (s.setReg dst (s.regs src))
  | .movImm dst value => some (s.setReg dst (M.const value))
  | .binary op dst a b => some (s.setReg dst (M.binary op (s.regs a) (s.regs b)))
  | .lnot dst src => some (s.setReg dst (M.binary .xor (s.regs src) (M.const 1)))
  | .extend op dst src => some (s.setReg dst (M.unary op (s.regs src)))
  | .ror dst src shift => some (s.setReg dst (M.rotateRight shift (s.regs src)))
  | .load64 dst ptr => some (s.setReg dst (M.load (s.regs ptr) s.mem))
  | .store64 ptr value =>
    some { s with mem := M.store (s.regs ptr) (s.regs value) s.mem
                  trace := s.trace ++ [.store (s.regs ptr) (s.regs value)] }
  | .lea dst base offset => some (s.setReg dst (M.gep offset (s.regs base)))
  | .cmpSet op dst a b =>
    some (s.setReg dst (M.const (IRProgram.wordOfBool (M.compare op (s.regs a) (s.regs b)))))
  | .invoke fn args ret =>
    match M.call fn (args.map s.regs) s.mem with
    | none => none
    | some (v, mem) =>
      let s := { s with mem, trace := s.trace ++ [.call fn (args.map s.regs)] }
      some (match ret with
        | none => s
        | some r => s.setReg r v)
  | _ => some s

/-- Run instructions none of which jumps. -/
def execStraight (code : List VInstr) (s : VState V σ) : Option (VState V σ) :=
  code.foldlM (fun s i => M.execVInstr i s) s

/-- Run instructions up to the first jump that is taken. Behind the last one the function
returns. -/
def execCode : List VInstr → VState V σ → CodeOutcome V σ
  | [], s => .returned s
  | i :: rest, s =>
    match i with
    | .jmp label => .goto label s
    | .cmpJumpTrue op a b label =>
      if M.compare op (s.regs a) (s.regs b) then .goto label s else execCode rest s
    | .testJumpTrue cond label =>
      if M.truthy (s.regs cond) then .goto label s else execCode rest s
    | .ret => .returned s
    | i =>
      match M.execVInstr i s with
      | none => .stuck s
      | some s => execCode rest s

/-- The code behind a label. -/
def afterLabel : List VInstr → Label → Option (List VInstr)
  | [], _ => none
  | i :: rest, label => if i = .bind label then some rest else afterLabel rest label

/-- Run from a label on, at most `fuel` jumps far. -/
def runCode (code : List VInstr) : Nat → Label → VState V σ → CodeOutcome V σ
  | 0, label, s => .goto label s
  | fuel + 1, label, s =>
    match afterLabel code label with
    | none => .stuck s
    | some rest =>
      match M.execCode rest s with
      | .goto label s => runCode code fuel label s
      | o => o

end Target

namespace Arch

/-- The condition codes, signed. -/
def condition (op : Opcode) (a b : Word) : Bool :=
  match op with
  | .cmpEq => a == b
  | .cmpNe => a != b
  | .cmpLt => a.slt b
  | .cmpGt => b.slt a
  | .cmpLe => a.sle b
  | .cmpGe => b.sle a
  | _ => a != b

/-- The host as a target. -/
def target (arch : Arch) : Target Value Heap where
  toMachine := arch.machine
  compare op a b := condition op a.toWord b.toWord
  truthy_const w := by
    by_cases hw : w = 0
    · rw [hw]
      rfl
    · have hne : Value.word w ≠ .word 0 := fun h => hw (Value.word.inj h)
      change (Value.word w != .word 0) = (w != 0)
      rw [bne_iff_ne.mpr hne, bne_iff_ne.mpr hw]
  binary_compare op a b hop := by
    cases op <;> first | rfl | cases hop

end Arch

end TidyTuples
