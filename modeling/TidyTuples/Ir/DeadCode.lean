import TidyTuples.Ir.Interp
import TidyTuples.Lib.Worklist

/-!
# Dead code elimination (`IRProgram::eliminateDeadCode`)
-/

namespace TidyTuples

namespace Instr

/-- The blocks a block's last instruction pushes on the worklist, in the order they are popped. -/
def successors : Instr → List Nat
  | branch target => [target]
  | condBranch _ trueBlock falseBlock => [falseBlock, trueBlock]
  | _ => []

/-- The operands that the use count visits, by opcode. -/
def uses : Instr → List IRValueRef
  | binary op _ a b => if op.isBinary then [a, b] else if op.isUnary then [a] else []
  | unary op _ a => if op.isUnary then [a] else []
  | rotateRight a _ => [a]
  | gep base _ => [base]
  | condBranch cond _ _ => [cond]
  | ret value => [value]
  | phi _ entries => entries.map Prod.fst
  | call _ _ args => args
  | _ => []

/-- Terminators, stores and calls are never removed. -/
def hasSideEffect (i : Instr) : Bool :=
  match i.op with
  | .branch | .condBranch | .ret | .store | .call => true
  | _ => false

end Instr

/-- What the worklist loop works on: the bytes of `reachable` and the worklist, its back first. -/
structure ReachabilityWalk where
  reachable : List Bool
  worklist : List Nat
deriving DecidableEq, Repr

namespace IRProgram

variable (P : IRProgram)

/-- The targets of the instruction that ends block `b`; an empty block has none. -/
def blockSuccessors (fn : IRFunction) (b : Nat) : List Nat :=
  match fn.blocks[b]? with
  | none => []
  | some blk =>
    match blk.instructions.getLast? with
    | none => []
    | some ref => ((P.instrAt ref).map Instr.successors).getD []

/-- The worklist loop: a block is marked at most once and pushes at most two entries, so this
many iterations suffice. -/
def reachableBlocks (fn : IRFunction) : List Nat :=
  Worklist.explore (fun b => b < fn.blocks.length) (P.blockSuccessors fn)
    (2 * fn.blocks.length + 1) [0] []

def walkStart (fn : IRFunction) : ReachabilityWalk :=
  { reachable := List.replicate fn.blocks.length false, worklist := [0] }

/-- One iteration of the worklist loop; there is none once the worklist is empty. -/
def walkStep (fn : IRFunction) (w : ReachabilityWalk) : Option ReachabilityWalk :=
  match w.worklist with
  | [] => none
  | bi :: worklist =>
    if fn.blocks.length ≤ bi ∨ w.reachable[bi]? = some true then some { w with worklist }
    else some ⟨w.reachable.set bi true, P.blockSuccessors fn bi ++ worklist⟩

def clearUnreachable (fn : IRFunction) : IRFunction :=
  { fn with blocks := fn.blocks.mapIdx fun b blk =>
      if b ∈ P.reachableBlocks fn then blk else { blk with instructions := [] } }

/-- The offsets with a use in `functions`: the keys of `useCounts`. -/
def usedOffsets (functions : List IRFunction) : List Nat :=
  functions.flatMap fun fn => fn.blocks.flatMap fun blk => blk.instructions.flatMap fun ref =>
    (((P.instrAt ref).map Instr.uses).getD []).filterMap fun
      | .instr offset => some offset
      | _ => none

def keepInstr (used : List Nat) (ref : Nat) : Bool :=
  ((P.instrAt ref).map Instr.hasSideEffect).getD true || decide (ref ∈ used)

def removeUnused (used : List Nat) (fn : IRFunction) : IRFunction :=
  { fn with blocks := fn.blocks.map fun blk =>
      { blk with instructions := blk.instructions.filter (P.keepInstr used) } }

def eliminateDeadCode : IRProgram :=
  let cleared := P.functions.map P.clearUnreachable
  { P with functions := cleared.map (P.removeUnused (P.usedOffsets cleared)) }

end IRProgram

end TidyTuples
