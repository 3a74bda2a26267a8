import TidyTuples.Ir.Program

/-!
# Interpretation of Umbra IR

A `Machine` gives meaning to the opcodes over a type `V` of register values and a type `σ` of
memory and runtime state. Every value reference names a register; what a register holds before
its instruction has run is whatever the initial register file says. The PHIs of a block take their values together on
entry, a block without a terminator falls through to the next index.
-/

namespace TidyTuples

/-- `call` returns no value where the called function's behaviour is undefined. -/
structure Machine (V σ : Type) where
  const : Word → V
  binary : Opcode → V → V → V
  unary : Opcode → V → V
  rotateRight : Nat → V → V
  gep : Word → V → V
  truthy : V → Bool
  load : V → σ → V
  store : V → V → σ → σ
  call : RuntimeFn → List V → σ → Option (V × σ)

/-- What a run shows to the outside: the blocks it enters and its stores and calls. -/
inductive Event (V : Type)
  | enter (blk : Nat)
  | store (ptr value : V)
  | call (fn : RuntimeFn) (args : List V)
deriving DecidableEq, Repr

structure ExecState (V σ : Type) where
  regs : IRValueRef → V
  mem : σ
  trace : List (Event V)

namespace ExecState

variable {V σ : Type}

def setReg (s : ExecState V σ) (ref : Nat) (v : V) : ExecState V σ :=
  { s with regs := Function.update s.regs (.instr ref) v }

def emitEvent (s : ExecState V σ) (e : Event V) : ExecState V σ :=
  { s with trace := s.trace ++ [e] }

end ExecState

/-- Where control stands after a block: at the entry of the next one, returned, or in undefined
behaviour. -/
inductive Outcome (V σ : Type)
  | goto (blk : Nat) (s : ExecState V σ)
  | returned (value : Option V) (s : ExecState V σ)
  | stuck (s : ExecState V σ)

namespace Opcode

def isBinary : Opcode → Bool
  | .add | .sub | .mul | .div | .rem | .and | .or | .xor | .shl | .shr | .crc32
  | .cmpEq | .cmpNe | .cmpLt | .cmpGt | .cmpLe | .cmpGe | .lAnd | .lOr | .store => true
  | _ => false

def isUnary : Opcode → Bool
  | .load | .zExt | .sExt | .lNot | .isNull => true
  | _ => false

end Opcode

namespace Instr

def isPhi : Instr → Bool
  | phi _ _ => true
  | _ => false

def isTerminator : Instr → Bool
  | branch _ => true
  | condBranch _ _ _ => true
  | ret _ => true
  | _ => false

end Instr

section

variable {V σ : Type} (M : Machine V σ)

/-- The value of a unary opcode; a load reads memory. -/
def Machine.evalUnary (op : Opcode) (a : V) (mem : σ) : V :=
  if op = .load then M.load a mem else M.unary op a

/-- Execute an instruction that neither ends nor heads a block. A unary opcode in a binary
record has its operand in the first field; a record whose opcode does not fit is skipped. -/
def execInstr (ref : Nat) (i : Instr) (s : ExecState V σ) : Option (ExecState V σ) :=
  match i with
  | .constInt _ value => some (s.setReg ref (M.const value))
  | .constBool value => some (s.setReg ref (M.const (if value then 1 else 0)))
  | .binary op _ a b =>
    if op = .store then
      some ({ s with mem := M.store (s.regs a) (s.regs b) s.mem }.emitEvent
        (.store (s.regs a) (s.regs b)))
    else if op.isBinary then some (s.setReg ref (M.binary op (s.regs a) (s.regs b)))
    else if op.isUnary then some (s.setReg ref (M.evalUnary op (s.regs a) s.mem))
    else some s
  | .unary op _ a =>
    if op.isUnary then some (s.setReg ref (M.evalUnary op (s.regs a) s.mem)) else some s
  | .rotateRight a shift => some (s.setReg ref (M.rotateRight shift (s.regs a)))
  | .gep base byteOffset => some (s.setReg ref (M.gep byteOffset (s.regs base)))
  | .call ty fn args =>
    match M.call fn (args.map s.regs) s.mem with
    | none => none
    | some (v, mem) =>
      let s := { s with mem }.emitEvent (.call fn (args.map s.regs))
      some (if ty = .void then s else s.setReg ref v)
  | _ => some s

namespace IRProgram

variable (P : IRProgram)

/-- Run the rest of block `blk`. -/
def execInstrs (blk : Nat) : List Nat → ExecState V σ → Outcome V σ
  | [], s => .goto (blk + 1) s
  | ref :: rest, s =>
    match P.instrAt ref with
    | none => .stuck s
    | some (.branch target) => .goto target s
    | some (.condBranch cond trueBlock falseBlock) =>
      .goto (if M.truthy (s.regs cond) then trueBlock else falseBlock) s
    | some (.ret value) => .returned (if value = .null then none else some (s.regs value)) s
    | some (.phi _ _) => execInstrs blk rest s
    | some i =>
      match execInstr M ref i s with
      | none => .stuck s
      | some s => execInstrs blk rest s

def phisOf (instructions : List Nat) : List Nat :=
  instructions.filter fun ref => ((P.instrAt ref).map Instr.isPhi).getD false

/-- The operand a PHI takes from block `src`. -/
def incoming (src ref : Nat) : Option IRValueRef :=
  match P.instrAt ref with
  | some (.phi _ entries) => (entries.find? fun entry => entry.2 == src).map Prod.fst
  | _ => none

/-- All PHIs read the registers as they were on the edge. -/
def applyPhis (src : Nat) (old : IRValueRef → V) :
    List Nat → (IRValueRef → V) → (IRValueRef → V)
  | [], regs => regs
  | ref :: rest, regs =>
    applyPhis src old rest <| match P.incoming src ref with
      | some value => Function.update regs (.instr ref) (old value)
      | none => regs

/-- Enter block `blk` from block `src` (from nowhere at the function's start) and run it. -/
def stepBlock (fn : IRFunction) (src : Option Nat) (blk : Nat) (s : ExecState V σ) :
    Outcome V σ :=
  match fn.blocks[blk]? with
  | none => .stuck s
  | some bb =>
    let s := s.emitEvent (.enter blk)
    let s := match src with
      | none => s
      | some src =>
        { s with regs := P.applyPhis src s.regs (P.phisOf bb.instructions) s.regs }
    P.execInstrs M blk bb.instructions s

/-- Run at most `fuel` blocks; `goto` means that the run goes on. -/
def runBlocks (fn : IRFunction) : Nat → Option Nat → Nat → ExecState V σ → Outcome V σ
  | 0, _, blk, s => .goto blk s
  | fuel + 1, src, blk, s =>
    match P.stepBlock M fn src blk s with
    | .goto next s => runBlocks fn fuel (some blk) next s
    | o => o

/-- Run a function from its entry block. -/
def runFunction (fn : IRFunction) (fuel : Nat) (s : ExecState V σ) : Outcome V σ :=
  P.runBlocks M fn fuel none 0 s

end IRProgram

end

end TidyTuples
