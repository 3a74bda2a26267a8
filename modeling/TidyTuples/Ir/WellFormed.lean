import TidyTuples.Ir.DeadCode

/-!
# SSA form

Of the conditions on a function in SSA form these are the ones the backend relies on. They are
decidable.
-/

namespace TidyTuples

namespace IRFunction

/-- The instructions of block `b`. -/
def instructionsAt (fn : IRFunction) (b : Nat) : List Nat :=
  match fn.blocks[b]? with
  | none => []
  | some blk => blk.instructions

/-- The instructions of a function, block by block. -/
def refs (fn : IRFunction) : List Nat := fn.blocks.flatMap BasicBlock.instructions

end IRFunction

/-- An operand that is an instruction is one of `refs`. -/
def IRValueRef.IsAmong (refs : List Nat) : IRValueRef → Prop
  | .instr r => r ∈ refs
  | _ => True

instance (refs : List Nat) (x : IRValueRef) : Decidable (x.IsAmong refs) := by
  cases x <;> unfold IRValueRef.IsAmong <;> infer_instance

namespace IRProgram

variable (P : IRProgram)

def isPhiAt (ref : Nat) : Bool := ((P.instrAt ref).map Instr.isPhi).getD false

def isTerminatorAt (ref : Nat) : Bool := ((P.instrAt ref).map Instr.isTerminator).getD false

def usesAt (ref : Nat) : List IRValueRef := ((P.instrAt ref).map Instr.uses).getD []

def phiEntries (ref : Nat) : List (IRValueRef × Nat) :=
  match P.instrAt ref with
  | some (.phi _ entries) => entries
  | _ => []

/-- The PHIs come first, a terminator ends the block, there is no other one, and no value of the
block is read before it is computed (PHIs read on the edges). -/
structure WellFormedBlock (instructions : List Nat) : Prop where
  phisFirst : instructions.takeWhile P.isPhiAt = instructions.filter P.isPhiAt
  ended : instructions.getLast?.map P.isTerminatorAt = some true
  body : ∀ ref ∈ instructions.dropLast, P.isTerminatorAt ref = false
  ordered : instructions.Pairwise fun ref ref' =>
    P.isPhiAt ref = false → .instr ref' ∉ P.usesAt ref

/-- A PHI has one operand for every predecessor. -/
structure WellFormedPhi (fn : IRFunction) (b ref : Nat) : Prop where
  nodup : ((P.phiEntries ref).map Prod.snd).Nodup
  values : ∀ entry ∈ P.phiEntries ref, entry.1 ≠ .null
  sources : ∀ entry ∈ P.phiEntries ref, b ∈ P.blockSuccessors fn entry.2
  complete : ∀ src < fn.blocks.length, b ∈ P.blockSuccessors fn src →
    src ∈ (P.phiEntries ref).map Prod.snd

structure WellFormedSSA (fn : IRFunction) : Prop where
  /-- Every instruction stands in one place. -/
  nodup : fn.refs.Nodup
  operands : ∀ ref ∈ fn.refs, ∀ x ∈ P.usesAt ref, x.IsAmong fn.refs
  blocks : ∀ blk ∈ fn.blocks, P.WellFormedBlock blk.instructions
  phis : ∀ b < fn.blocks.length, ∀ ref ∈ P.phisOf (fn.instructionsAt b), P.WellFormedPhi fn b ref

instance (instructions : List Nat) : Decidable (P.WellFormedBlock instructions) :=
  decidable_of_iff (instructions.takeWhile P.isPhiAt = instructions.filter P.isPhiAt ∧
      instructions.getLast?.map P.isTerminatorAt = some true ∧
      (∀ ref ∈ instructions.dropLast, P.isTerminatorAt ref = false) ∧
      instructions.Pairwise fun ref ref' => P.isPhiAt ref = false → .instr ref' ∉ P.usesAt ref)
    ⟨fun ⟨h₁, h₂, h₃, h₄⟩ => ⟨h₁, h₂, h₃, h₄⟩, fun h => ⟨h.phisFirst, h.ended, h.body, h.ordered⟩⟩

instance (fn : IRFunction) (b ref : Nat) : Decidable (P.WellFormedPhi fn b ref) :=
  decidable_of_iff (((P.phiEntries ref).map Prod.snd).Nodup ∧
      (∀ entry ∈ P.phiEntries ref, entry.1 ≠ .null) ∧
      (∀ entry ∈ P.phiEntries ref, b ∈ P.blockSuccessors fn entry.2) ∧
      ∀ src < fn.blocks.length, b ∈ P.blockSuccessors fn src →
        src ∈ (P.phiEntries ref).map Prod.snd)
    ⟨fun ⟨h₁, h₂, h₃, h₄⟩ => ⟨h₁, h₂, h₃, h₄⟩, fun h => ⟨h.nodup, h.values, h.sources, h.complete⟩⟩

instance (fn : IRFunction) : Decidable (P.WellFormedSSA fn) :=
  decidable_of_iff (fn.refs.Nodup ∧ (∀ ref ∈ fn.refs, ∀ x ∈ P.usesAt ref, x.IsAmong fn.refs) ∧
      (∀ blk ∈ fn.blocks, P.WellFormedBlock blk.instructions) ∧
      ∀ b < fn.blocks.length, ∀ ref ∈ P.phisOf (fn.instructionsAt b), P.WellFormedPhi fn b ref)
    ⟨fun ⟨h₁, h₂, h₃, h₄⟩ => ⟨h₁, h₂, h₃, h₄⟩, fun h => ⟨h.nodup, h.operands, h.blocks, h.phis⟩⟩

end IRProgram

end TidyTuples
