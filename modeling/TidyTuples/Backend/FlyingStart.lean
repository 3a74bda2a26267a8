import TidyTuples.Backend.Assembly
import TidyTuples.Ir.DeadCode

/-!
# The Flying Start translator (`flying_start.cpp`)

Every step gives the instructions that it writes and the translator that it leaves. The counters for
the statistics are left out.
-/

namespace TidyTuples

structure Translator where
  regMap : IRValueRef → Option VReg
  phiRegs : IRValueRef → Option VReg
  deferredCmps : IRValueRef → Bool

namespace Translator

/-- `regMap[ref] = reg` -/
def assign (t : Translator) (ref : IRValueRef) (reg : VReg) : Translator :=
  { t with regMap := Function.update t.regMap ref (some reg) }

def setDeferred (t : Translator) (ref : IRValueRef) (deferred : Bool) : Translator :=
  { t with deferredCmps := Function.update t.deferredCmps ref deferred }

def getOrAlloc (t : Translator) (ref : IRValueRef) : VReg × Translator :=
  match t.regMap ref with
  | some reg => (reg, t)
  | none => (.requested ref, t.assign ref (.requested ref))

def getValue (t : Translator) (ref : IRValueRef) : VReg × Translator :=
  if ref.isParam then t.getOrAlloc ref
  else
    match t.phiRegs ref with
    | some reg => (reg, t)
    | none => t.getOrAlloc ref

def emitImm64 (t : Translator) (ref : Nat) (value : Word) : List VInstr × Translator :=
  match t.regMap (.instr ref) with
  | some _ => ([], t)
  | none => ([.movImm (.result ref) value], t.assign (.instr ref) (.result ref))

/-- The case of an opcode with two operands and a result. -/
def emitBinary (t : Translator) (ref : Nat) (a b : IRValueRef)
    (emit : VReg → VReg → VReg → VInstr) : List VInstr × Translator :=
  let (ra, t) := t.getValue a
  let (rb, t) := t.getValue b
  ([emit (.result ref) ra rb], t.assign (.instr ref) (.result ref))

/-- The case of an opcode with one operand and a result. -/
def emitUnary (t : Translator) (ref : Nat) (a : IRValueRef) (emit : VReg → VReg → VInstr) :
    List VInstr × Translator :=
  let (ra, t) := t.getValue a
  ([emit (.result ref) ra], t.assign (.instr ref) (.result ref))

section

variable (P : IRProgram) (fn : IRFunction)

/-- The operands of all instructions of the function. -/
def allUses : List IRValueRef :=
  fn.blocks.flatMap fun blk => blk.instructions.flatMap fun ref =>
    ((P.instrAt ref).map Instr.uses).getD []

/-- `useCounts[ref]` for an instruction. -/
def useCount (ref : Nat) : Nat := (allUses P fn).count (.instr ref)

def canDeferComparison (cmpRef blockIdx : Nat) : Bool :=
  useCount P fn cmpRef = 1 &&
  match (fn.blocks[blockIdx]?).bind fun blk => blk.instructions.getLast? with
  | none => false
  | some lastRef =>
    match P.instrAt lastRef with
    | some (.condBranch cond _ _) => cond = .instr cmpRef
    | _ => false

/-- Every PHI gets its register before any code is written. -/
def findPhis : Translator :=
  let phis := fn.blocks.flatMap fun blk => P.phisOf blk.instructions
  let regs : IRValueRef → Option VReg
    | .instr ref => if ref ∈ phis then some (.phi ref) else none
    | _ => none
  { regMap := regs, phiRegs := regs, deferredCmps := fun _ => false }

/-- The PHIs a block begins with. -/
def leadingPhis (instructions : List Nat) : List Nat :=
  instructions.takeWhile fun ref => ((P.instrAt ref).map Instr.isPhi).getD false

/-- The move of one PHI. An operand that is no constant and has no register is skipped. -/
def phiMove (t : Translator) (fromBlock ref : Nat) : List VInstr :=
  match P.incoming fromBlock ref with
  | none => []
  | some incoming =>
    if incoming = .null then []
    else
      let phiGp := (t.phiRegs (.instr ref)).getD (.phi ref)
      match P.constIntValue incoming with
      | some value => [.movImm phiGp value]
      | none =>
        match t.regMap incoming with
        | some reg => [.mov phiGp reg]
        | none => []

def emitPhiMovesForEdge (t : Translator) (fromBlock toBlock : Nat) : List VInstr :=
  match fn.blocks[toBlock]? with
  | none => []
  | some target => (leadingPhis P target.instructions).flatMap (phiMove P t fromBlock)

/-- The two edges of a conditional branch: the moves of the false one follow the jump. -/
def emitEdges (t : Translator) (ref trueBlock falseBlock blkIdx : Nat) : List VInstr :=
  emitPhiMovesForEdge P fn t blkIdx falseBlock ++ [.jmp (.block falseBlock)] ++
  [.bind (.trueEdge ref)] ++
  emitPhiMovesForEdge P fn t blkIdx trueBlock ++ [.jmp (.block trueBlock)]

/-- Only comparisons are deferred. -/
def translateCondBranch (t : Translator) (ref : Nat) (cond : IRValueRef)
    (trueBlock falseBlock blkIdx : Nat) : List VInstr × Translator :=
  if t.deferredCmps cond then
    match P.getInstr cond with
    | some (.binary op _ a b) =>
      let (ra, t) := t.getValue a
      let (rb, t) := t.getValue b
      (.cmpJumpTrue op ra rb (.trueEdge ref) :: emitEdges P fn t ref trueBlock falseBlock blkIdx,
        t.setDeferred cond false)
    | _ => ([], t)
  else
    let (rc, t) := t.getValue cond
    (.testJumpTrue rc (.trueEdge ref) :: emitEdges P fn t ref trueBlock falseBlock blkIdx, t)

/-- The registers of a call's arguments from the `index`-th on; constants go into new ones. -/
def argumentRegs (call : Nat) : Nat → List IRValueRef → Translator →
    List VInstr × List VReg × Translator
  | _, [], t => ([], [], t)
  | index, arg :: rest, t =>
    match P.constIntValue arg with
    | some value =>
      let (code, regs, t) := argumentRegs call (index + 1) rest t
      (.movImm (.argument call index) value :: code, .argument call index :: regs, t)
    | none =>
      let (reg, t) := t.getValue arg
      let (code, regs, t) := argumentRegs call (index + 1) rest t
      (code, reg :: regs, t)

def translateCall (t : Translator) (ref : Nat) (resultType : IRType) (funcPtr : RuntimeFn)
    (args : List IRValueRef) : List VInstr × Translator :=
  let (code, regs, t) := argumentRegs P ref 0 args t
  if resultType = .void then (code ++ [.invoke funcPtr regs none], t)
  else (code ++ [.invoke funcPtr regs (some (.result ref))],
    t.assign (.instr ref) (.result ref))

/-- The opcodes whose record is read as a `UnaryInstr`. -/
def translateUnary (t : Translator) (ref : Nat) (op : Opcode) (a : IRValueRef) :
    List VInstr × Translator :=
  match op with
  | .lNot => t.emitUnary ref a .lnot
  | .zExt | .sExt => t.emitUnary ref a (.extend op)
  | .load => t.emitUnary ref a .load64
  | .isNull => ([.movImm (.result ref) 0], t.assign (.instr ref) (.result ref))
  | _ => ([], t)

/-- `defer` says which comparisons wait for the branch. -/
def translateInstr (defer : Nat → Nat → Bool) (t : Translator) (ref blkIdx : Nat) :
    List VInstr × Translator :=
  match P.instrAt ref with
  | some (.constInt _ value) => t.emitImm64 ref value
  | some (.constBool value) => t.emitImm64 ref (if value then 1 else 0)
  | some (.binary op _ a b) =>
    match op with
    | .add | .sub | .mul | .xor | .crc32 => t.emitBinary ref a b (.binary op)
    | .and | .lAnd => t.emitBinary ref a b (.binary .and)
    | .or | .lOr => t.emitBinary ref a b (.binary .or)
    | .cmpEq | .cmpNe | .cmpLt | .cmpGt | .cmpLe | .cmpGe =>
      if defer ref blkIdx then ([], t.setDeferred (.instr ref) true)
      else t.emitBinary ref a b (.cmpSet op)
    | .store =>
      let (ra, t) := t.getValue a
      let (rb, t) := t.getValue b
      ([.store64 ra rb], t)
    | _ => t.translateUnary ref op a
  | some (.unary op _ a) => t.translateUnary ref op a
  | some (.rotateRight a shift) => t.emitUnary ref a fun dst src => .ror dst src shift
  | some (.gep base byteOffset) =>
    t.emitUnary ref base fun dst src => .lea dst src ((byteOffset.truncate 32).signExtend 64)
  | some (.branch targetBlock) =>
    (emitPhiMovesForEdge P fn t blkIdx targetBlock ++ [.jmp (.block targetBlock)], t)
  | some (.condBranch cond trueBlock falseBlock) =>
    translateCondBranch P fn t ref cond trueBlock falseBlock blkIdx
  | some (.call resultType funcPtr args) => translateCall P t ref resultType funcPtr args
  | some (.ret _) => ([.ret], t)
  | some (.phi _ _) => ([], t)
  | none => ([], t)

variable (defer : Nat → Nat → Bool)

def translateInstrs (blkIdx : Nat) : List Nat → Translator → List VInstr × Translator
  | [], t => ([], t)
  | ref :: rest, t =>
    let (code, t) := translateInstr P fn defer t ref blkIdx
    let (codes, t) := translateInstrs blkIdx rest t
    (code ++ codes, t)

def translateBlock (t : Translator) (blkIdx : Nat) (blk : BasicBlock) :
    List VInstr × Translator :=
  let (code, t) := translateInstrs P fn defer blkIdx blk.instructions t
  (.bind (.block blkIdx) :: code, t)

/-- The blocks from index `blkIdx` on. -/
def translateBlocks : Nat → List BasicBlock → Translator → List VInstr × Translator
  | _, [], t => ([], t)
  | blkIdx, blk :: rest, t =>
    let (code, t) := translateBlock P fn defer t blkIdx blk
    let (codes, t) := translateBlocks (blkIdx + 1) rest t
    (code ++ codes, t)

end

/-- `translateFunction`, with another choice of the comparisons to fuse. -/
def translateFunctionWith (P : IRProgram) (fn : IRFunction) (defer : Nat → Nat → Bool) :
    List VInstr :=
  (translateBlocks P fn defer 0 fn.blocks (findPhis P fn)).1

def translateFunction (P : IRProgram) (fn : IRFunction) : List VInstr :=
  translateFunctionWith P fn (canDeferComparison P fn)

end Translator

end TidyTuples
