import TidyTuples.Proofs.Builders
import TidyTuples.Proofs.InstrArray

/-!
# The records that the bytes stand for

The builders on the byte array and the builders on records run in step: as long as the array stays
below `0xFF000000` bytes, no offset looks like a parameter and no number is cut, so the bytes are those
of the records, and what is read from them is what the records say.
-/

namespace TidyTuples

/-- The struct that is written for a record. -/
def Instr.record (addr : RuntimeFn → Word) : Instr → Record
  | constInt t value => ⟨.constInt, t, .constInt value⟩
  | constBool value => ⟨.constBool, .bool, .constBool value⟩
  | binary op t a b => ⟨op, t, .binary a.raw b.raw⟩
  | unary op t a => ⟨op, t, .unary a.raw⟩
  | rotateRight a shift => ⟨.rotateRight, .uint64, .rotateRight a.raw (BitVec.ofNat 32 shift)⟩
  | gep base byteOffset => ⟨.gep, .ptr, .gep base.raw byteOffset⟩
  | branch targetBlock => ⟨.branch, .void, .branch (BitVec.ofNat 32 targetBlock)⟩
  | condBranch cond trueBlock falseBlock =>
    ⟨.condBranch, .void,
      .condBranch cond.raw (BitVec.ofNat 32 trueBlock) (BitVec.ofNat 32 falseBlock)⟩
  | ret value => ⟨.ret, .void, .ret value.raw⟩
  | phi t entries =>
    ⟨.phi, t, .phi (entries.map fun entry => (entry.1.raw, BitVec.ofNat 32 entry.2))⟩
  | call t fn args => ⟨.call, t, .call (addr fn) (args.map IRValueRef.raw)⟩

/-- What the dead code elimination reads of a record. -/
def Instr.readBody (addr : RuntimeFn → Word) : Instr → Option Body
  | constInt _ _ => none
  | constBool _ => none
  | binary op _ a b => some (if op.isUnary then .unary a.raw else .binary a.raw b.raw)
  | i => some (i.record addr).body

namespace BuilderCall

/-- What a call returns, as a number. -/
def returned (p : IRProgram) : BuilderCall → Option Raw
  | beginFunction name returnType params =>
    some (BitVec.ofNat 32 (p.beginFunction name returnType params).1)
  | addBlock name => some (BitVec.ofNat 32 (p.addBlock name).1)
  | setInsertionPoint _ _ => none
  | addConstInt value t => some (p.addConstInt value t).1.raw
  | addConstBool value => some (p.addConstBool value).1.raw
  | addBinary op resultType a b => some (p.addBinary op resultType a b).1.raw
  | addUnary op resultType a => some (p.addUnary op resultType a).1.raw
  | addRotateRight val shift => some (p.addRotateRight val shift).1.raw
  | addGEP base byteOffset => some (p.addGEP base byteOffset).1.raw
  | addLoad resultType ptr => some (p.addLoad resultType ptr).1.raw
  | addStore ptr value => some (p.addStore ptr value).1.raw
  | addBranch targetBlock => some (p.addBranch targetBlock).1.raw
  | addCondBranch cond trueBlock falseBlock =>
    some (p.addCondBranch cond trueBlock falseBlock).1.raw
  | addReturn value => some (p.addReturn value).1.raw
  | addPhi resultType incoming => some (p.addPhi resultType incoming).1.raw
  | addCall resultType funcPtr args => some (p.addCall resultType funcPtr args).1.raw
  | patchPhiEntry _ _ _ _ => none

end BuilderCall

namespace IRProgram

/-- A reference that is not `NullRef` or a parameter is that of a record. -/
def Refers (p : IRProgram) : IRValueRef → Prop
  | .instr off => ∃ i, p.instrAt off = some i
  | _ => True

instance (p : IRProgram) : (x : IRValueRef) → Decidable (p.Refers x)
  | .null => .isTrue trivial
  | .param _ _ => .isTrue trivial
  | .instr off => decidable_of_iff ((p.instrAt off).isSome = true) Option.isSome_iff_exists

/-- The references that are handed over have been returned by a builder, and the numbers have
32 bits. -/
def HandsOver (p : IRProgram) (c : BuilderCall) : Prop :=
  (∀ x ∈ c.operands, p.Refers x) ∧ ∀ n ∈ c.numbers, n < 2 ^ 32

instance (p : IRProgram) (c : BuilderCall) : Decidable (p.HandsOver c) := by
  unfold HandsOver
  infer_instance

/-- A step on the records. -/
def takeStep (p : IRProgram) : ByteProgram.Step → Option IRProgram
  | .call c => if p.HandsOver c then c.apply p else none
  | .eliminateDeadCode => some p.eliminateDeadCode

def takeSteps (steps : List ByteProgram.Step) (p : IRProgram) : Option IRProgram := steps.foldlM takeStep p

end IRProgram

namespace Proofs

open IRProgram ByteProgram

/-- The bytes are those of the records, and everything else is the same. -/
structure Decodes (addr : RuntimeFn → Word) (b : ByteProgram) (p : IRProgram) : Prop where
  functions : b.functions = p.functions
  currentFnIdx : b.currentFnIdx = p.currentFnIdx
  currentBlkIdx : b.currentBlkIdx = p.currentBlkIdx
  cache : b.constIntCache = p.constIntCache
  records : b.records = (p.instrData.map fun x => (x.1, x.2.record addr)).reverse
  size : b.instrData.length = p.dataSize
  recorded : Recorded b

/-- The blocks list records, and the records have operands that are records and numbers of 32 bits. -/
structure Coded (p : IRProgram) : Prop where
  listed : ∀ off f b, p.InBlock off f b → ∃ i, p.instrAt off = some i
  fits : ∀ off i, p.instrAt off = some i → i.Fits
  operands : ∀ off i, p.instrAt off = some i → ∀ x ∈ i.operands, p.Refers x
  numbers : ∀ off i, p.instrAt off = some i → ∀ n ∈ i.numbers, n < 2 ^ 32

section

variable {pad : Nat → UInt8} {addr : RuntimeFn → Word} {b b' : ByteProgram} {p q : IRProgram}
  {off : Nat} {i : Instr} {x y : IRValueRef}

/-! ### Reading a record -/

lemma record_size (i : Instr) : (i.record addr).body.size = i.byteSize := by
  cases i with
  | phi t entries =>
    change 8 + 8 * (entries.map _).length = 8 + 8 * entries.length
    rw [List.length_map]
  | call t fn args =>
    change 24 + 4 * (args.map _).length = 24 + 4 * args.length
    rw [List.length_map]
  | _ => rfl

lemma record_own (i : Instr) : (i.record addr).Own := by
  intro op hop
  cases i <;> cases hop <;> rfl

lemma record_op (i : Instr) : (i.record addr).op = i.op := by
  cases i <;> rfl

lemma Decodes.mem (h : Decodes addr b p) (hi : p.instrAt off = some i) :
    (off, i.record addr) ∈ b.records := by
  obtain ⟨before, after, hsplit, -⟩ := List.lookup_eq_some_iff.mp hi
  rw [h.records, List.mem_reverse, hsplit]
  exact List.mem_map.mpr ⟨(off, i), by simp, rfl⟩

/-- The record is read back from the array. -/
lemma Decodes.loadRecord (h : Decodes addr b p) (hsmall : p.dataSize < 0xFF000000)
    (hi : p.instrAt off = some i) :
    loadRecord b.instrData off (i.record addr).body.type = some (i.record addr) :=
  h.recorded.loadRecord_eq (by rw [h.size]; omega) (h.mem hi)

lemma Decodes.holds (h : Decodes addr b p) (hi : p.instrAt off = some i) :
    Bytes.Holds b.instrData off (i.record addr).fields := h.recorded.holds _ (h.mem hi)

lemma Decodes.lt (h : Decodes addr b p) (hi : p.instrAt off = some i) : off < p.dataSize := by
  have hin := h.recorded.in_array (h.mem hi)
  have hpos := body_size_pos (i.record addr).body
  rw [h.size] at hin
  dsimp only at hin
  omega

/-! ### Constants -/

lemma isParamRef_null : isParamRef (IRValueRef.raw .null) = true := by decide

lemma isParamRef_param (f k : Nat) : isParamRef (IRValueRef.param f k).raw = true := by
  have hmask : ∀ m x y : Raw, (m ||| x ||| y) &&& m = m := by
    intro m x y
    apply BitVec.eq_of_getLsbD_eq
    intro j _
    rw [BitVec.getLsbD_and, BitVec.getLsbD_or, BitVec.getLsbD_or]
    cases m.getLsbD j
    · rw [Bool.and_false]
    · rfl
  exact beq_iff_eq.mpr (hmask _ _ _)

/-- An offset has not all of the bits that mark a parameter. -/
lemma isParamRef_instr (h : off < 0xFF000000) : isParamRef (IRValueRef.instr off).raw = false := by
  apply beq_eq_false_iff_ne.mpr
  intro hmask
  have hle : (IRValueRef.instr off).raw.toNat &&& 0xFF000000 ≤ (IRValueRef.instr off).raw.toNat :=
    Nat.and_le_left
  have heq := congrArg BitVec.toNat hmask
  rw [BitVec.toNat_and] at heq
  change _ &&& 0xFF000000 = 0xFF000000 at heq
  have hraw : (IRValueRef.instr off).raw.toNat ≤ off := Nat.mod_le _ _
  omega

lemma raw_instr (h : off < 0xFF000000) : (IRValueRef.instr off).raw.toNat = off :=
  Nat.mod_eq_of_lt (by omega)

lemma Decodes.loadOp (h : Decodes addr b p) (hi : p.instrAt off = some i) :
    Bytes.load b.instrData off 1 = some i.op.code := by
  rw [load_op (h.holds hi), record_op]

lemma code_isConst (h : i.Fits) :
    (i.op.code == Opcode.constInt.code || i.op.code == Opcode.constBool.code) = i.isConst := by
  cases i with
  | binary op t a a' => cases op <;> first | rfl | cases h
  | unary op t a => cases op <;> first | rfl | cases h
  | _ => rfl

/-- A reference is a constant by its bytes where it is one by its record. -/
lemma Decodes.isConstant (h : Decodes addr b p) (hsmall : p.dataSize < 0xFF000000)
    (hcoded : Coded p) (hx : p.Refers x) : b.isConstant x.raw = some (p.isConstant x) := by
  unfold ByteProgram.isConstant
  cases x with
  | null => rw [if_pos isParamRef_null]; rfl
  | param f k => rw [if_pos (isParamRef_param f k)]; rfl
  | instr off =>
    obtain ⟨i, hi⟩ := hx
    have hlt := h.lt hi
    rw [isParamRef_instr (by omega), if_neg Bool.false_ne_true, raw_instr (by omega), h.loadOp hi]
    have hcode := code_isConst (hcoded.fits off i hi)
    have hconst : p.isConstant (.instr off) = i.isConst := by
      simp only [IRProgram.isConstant, getInstr, hi]
      cases i <;> rfl
    rw [hconst, ← hcode]
    rfl

/-- What is read of a constant is its value. -/
lemma Decodes.constIntValue (h : Decodes addr b p) (hsmall : p.dataSize < 0xFF000000)
    (hcoded : Coded p) (hi : p.instrAt off = some i) :
    b.constIntValue (IRValueRef.instr off).raw = p.constIntValue (.instr off) := by
  have hlt := h.lt hi
  have hfits := hcoded.fits off i hi
  unfold ByteProgram.constIntValue
  rw [raw_instr (by omega), h.loadOp hi]
  cases i with
  | constInt t v =>
    rw [constIntValue_constInt hi]
    have hword := loadWord_of_holds (body_holds (h.holds hi)) List.mem_cons_self
    exact hword
  | constBool v =>
    rw [constIntValue_constBool hi]
    have hload : Bytes.load b.instrData (off + 2) 1 = some ((if v then 1 else 0) % 256 ^ 1) :=
      body_holds (h.holds hi) ⟨2, 1, if v then 1 else 0⟩ List.mem_cons_self
    change (Bytes.load b.instrData (off + 2) 1).bind (fun n => some (if n ≠ 0 then 1 else 0)) = _
    rw [hload]
    cases v <;> rfl
  | binary op t a a' =>
    rw [constIntValue_runTime hi rfl]
    cases op <;> first | rfl | cases hfits
  | unary op t a =>
    rw [constIntValue_runTime hi rfl]
    cases op <;> first | rfl | cases hfits
  | _ =>
    rw [constIntValue_runTime hi rfl]
    rfl

/-- Two operands are read as their values if both are constants. -/
lemma Decodes.constOperands (h : Decodes addr b p) (hsmall : p.dataSize < 0xFF000000)
    (hcoded : Coded p) (hx : p.Refers x) (hy : p.Refers y) :
    b.constOperands x.raw y.raw = some ((p.constIntValue x).bind fun v =>
      (p.constIntValue y).map fun w => (v, w)) := by
  have hvalue : ∀ z : IRValueRef, p.Refers z → p.isConstant z = true →
      b.constIntValue z.raw = p.constIntValue z := by
    intro z hz hconst
    cases z with
    | instr off =>
      obtain ⟨i, hi⟩ := hz
      exact h.constIntValue hsmall hcoded hi
    | _ => cases hconst
  have hboth : ∀ z : IRValueRef, (p.constIntValue z).isSome = p.isConstant z := by
    intro z
    unfold IRProgram.constIntValue IRProgram.isConstant
    cases p.getInstr z with
    | none => rfl
    | some i => cases i <;> rfl
  have hnone : ∀ z : IRValueRef, p.isConstant z = false → p.constIntValue z = none := fun z hz =>
    Option.isNone_iff_eq_none.mp (Option.isSome_eq_false_iff.mp ((hboth z).trans hz))
  unfold ByteProgram.constOperands
  rw [h.isConstant hsmall hcoded hx, h.isConstant hsmall hcoded hy]
  cases hcx : p.isConstant x with
  | false =>
    rw [hnone x hcx]
    rfl
  | true =>
    obtain ⟨v, hv⟩ := Option.isSome_iff_exists.mp ((hboth x).trans hcx)
    cases hcy : p.isConstant y with
    | false =>
      rw [hnone y hcy, hv]
      rfl
    | true =>
      obtain ⟨w, hw⟩ := Option.isSome_iff_exists.mp ((hboth y).trans hcy)
      rw [hvalue x hx hcx, hvalue y hy hcy, hv, hw]
      rfl

/-! ### One builder call -/

lemma stepReturning_call {c : BuilderCall} (h : b.Proper (.call c)) :
    b.stepReturning pad addr (.call c) = b.apply pad addr c := if_pos h

lemma Decodes.blocks (h : Decodes addr b p) : b.blocks = p.blocks := by
  have hbytes : b.blocks = b.functions[b.currentFnIdx]?.elim [] IRFunction.blocks := by
    unfold ByteProgram.blocks
    cases b.functions[b.currentFnIdx]? <;> rfl
  have hrecords : p.blocks = p.functions[p.currentFnIdx]?.elim [] IRFunction.blocks := by
    unfold IRProgram.blocks
    cases p.functions[p.currentFnIdx]? <;> rfl
  rw [hbytes, hrecords, h.functions, h.currentFnIdx]

lemma Decodes.hasInsertionPoint (h : Decodes addr b p) :
    b.HasInsertionPoint ↔ p.HasInsertionPoint := by
  unfold ByteProgram.HasInsertionPoint IRProgram.HasInsertionPoint
  rw [h.blocks, h.functions, h.currentFnIdx, h.currentBlkIdx]

lemma apply_dataSize_le {c : BuilderCall} (h : c.apply p = some q) : p.dataSize ≤ q.dataSize := by
  rcases apply_cases h with hkeep | ⟨i, ⟨rfl, -⟩, -, -⟩ | ⟨v, t, rfl, -⟩ |
    ⟨r, idx, v, blk, -, hpatch⟩
  · unfold dataSize
    rw [hkeep.instrData]
  · exact Nat.le_add_right _ _
  · cases hlookup : p.constIntCache.lookup (constKey v t) with
    | some off =>
      rw [addConstInt_hit hlookup]
      exact Nat.le_refl _
    | none =>
      rw [addConstInt_miss hlookup]
      exact Nat.le_add_right _ _
  · obtain ⟨phi, ty, entries, -, hphi, -, rfl⟩ := patchPhiEntry_cases hpatch
    rw [patch_dataSize hphi (List.length_set ..)]

variable (pad) in
/-- Both builders append the record, at the same offset. -/
lemma Decodes.emit (h : Decodes addr b p) (hpoint : p.HasInsertionPoint) (i : Instr)
    (hsmall : (p.emit i).2.dataSize < 0xFF000000) :
    ∃ b', b.emit pad (i.record addr) = some ((p.emit i).1.raw, b') ∧
      Decodes addr b' (p.emit i).2 := by
  rw [emit_dataSize] at hsmall
  have hsize : (i.record addr).body.size = i.byteSize := record_size i
  have hnext : b.nextOffset = p.dataSize := by
    rw [nextOffset_eq (by rw [h.size]; omega), h.size]
  have href : b.nextRef = (p.emit i).1.raw := congrArg (BitVec.ofNat 32) h.size
  unfold ByteProgram.emit
  rw [if_pos (h.hasInsertionPoint.mpr hpoint), href]
  refine ⟨_, rfl, ?_⟩
  constructor
  · simp only [ByteProgram.modifyBlocks, h.functions, h.currentFnIdx, h.currentBlkIdx, hnext]
    rfl
  · exact h.currentFnIdx
  · exact h.currentBlkIdx
  · exact h.cache
  · change b.records ++ [(b.nextOffset, i.record addr)] = _
    rw [h.records, hnext]
    exact (List.reverse_cons ..).symm
  · change (Bytes.storeFields _ _ _).length = _
    rw [Bytes.length_storeFields, Bytes.length_grow, h.size, hsize]
    rfl
  · apply h.recorded.emitted (record_own i) rfl rfl
    change (Bytes.storeFields _ _ _).length ≤ _
    rw [Bytes.length_storeFields, Bytes.length_grow, h.size, hsize]
    omega

lemma Decodes.addConstInt (h : Decodes addr b p) (value : Word) (t : IRType)
    (hpoint : (p.addConstInt value t).2.dataSize = p.dataSize ∨ p.HasInsertionPoint)
    (hsmall : (p.addConstInt value t).2.dataSize < 0xFF000000) :
    ∃ b', b.addConstInt pad value t = some ((p.addConstInt value t).1.raw, b') ∧
      Decodes addr b' (p.addConstInt value t).2 := by
  unfold ByteProgram.addConstInt
  dsimp only
  rw [h.cache]
  cases hlookup : p.constIntCache.lookup (constKey value t) with
  | some off =>
    rw [addConstInt_hit hlookup]
    exact ⟨b, rfl, h.functions, h.currentFnIdx, h.currentBlkIdx, h.cache, h.records, h.size,
      h.recorded⟩
  | none =>
    rw [addConstInt_miss hlookup] at hpoint hsmall ⊢
    have hpoint' : p.HasInsertionPoint := by
      refine hpoint.resolve_left (Nat.ne_of_gt ?_)
      exact Nat.lt_add_of_pos_right (Instr.constInt t value).byteSize_pos
    obtain ⟨b', hemit, hd⟩ := h.emit pad hpoint' (.constInt t value) hsmall
    have hemit' : b.emit pad ⟨.constInt, t, .constInt value⟩ =
        some ((IRValueRef.instr p.dataSize).raw, b') := hemit
    have hsize : (IRValueRef.instr p.dataSize).raw.toNat = p.dataSize := by
      have hlt : p.dataSize + (Instr.constInt t value).byteSize < 0xFF000000 := hsmall
      exact raw_instr (by omega)
    dsimp only
    rw [hemit']
    refine ⟨_, rfl, hd.functions, hd.currentFnIdx, hd.currentBlkIdx, ?_, hd.records, hd.size,
      hd.recorded.contiguous, hd.recorded.holds, hd.recorded.own⟩
    change (_, (IRValueRef.instr p.dataSize).raw.toNat) :: b'.constIntCache = _
    rw [hsize, hd.cache]
    rfl

lemma Decodes.emitted (h : Decodes addr b p) {i : Instr} (he : p.emitted (p.emit i) = some q)
    (hsmall : q.dataSize < 0xFF000000) :
    ∃ b', b.emit pad (i.record addr) = some ((p.emit i).1.raw, b') ∧ Decodes addr b' q := by
  obtain ⟨rfl, hpoint⟩ := emit_point he rfl
  exact h.emit pad hpoint i hsmall

/-- Constants are folded in the same way. -/
lemma Decodes.addBinary (h : Decodes addr b p) (hp : p.dataSize < 0xFF000000) (hcoded : Coded p)
    (hx : p.Refers x) (hy : p.Refers y) {op : Opcode} {t : IRType}
    (he : p.emitted (p.addBinary op t x y) = some q) (hsmall : q.dataSize < 0xFF000000) :
    ∃ b', b.addBinary pad op t x.raw y.raw = some ((p.addBinary op t x y).1.raw, b') ∧
      Decodes addr b' q := by
  have hq := emitted_eq he
  have hfold : p.tryConstFold op t x y = (((p.constIntValue x).bind fun v =>
      (p.constIntValue y).map fun w => (v, w)).bind fun v => foldConstants op t v.1 v.2).map
        fun r => if r.2 = .bool then p.addConstBool (r.1 != 0) else p.addConstInt r.1 r.2 := by
    unfold IRProgram.tryConstFold
    cases p.constIntValue x with
    | none => rfl
    | some v =>
      cases p.constIntValue y with
      | none => rfl
      | some w =>
        change (foldConstants op t v w).bind _ = (foldConstants op t v w).map _
        cases foldConstants op t v w with
        | none => rfl
        | some r =>
          change (if r.2 = .bool then _ else _) = some (if r.2 = .bool then _ else _)
          split_ifs <;> rfl
  unfold ByteProgram.addBinary
  rw [h.constOperands hp hcoded hx hy]
  unfold IRProgram.addBinary at he hq ⊢
  rw [hfold] at he hq ⊢
  generalize ((p.constIntValue x).bind fun v => (p.constIntValue y).map fun w => (v, w)) = vals at *
  simp only [Option.bind_eq_bind, Option.bind_some]
  cases hfolded : vals.bind fun v => foldConstants op t v.1 v.2 with
  | none =>
    rw [hfolded] at he
    exact h.emitted (i := .binary op t x y) he hsmall
  | some r =>
    obtain ⟨result, rtype⟩ := r
    rw [hfolded] at he hq
    dsimp only [Option.map_some] at he hq ⊢
    split_ifs at he hq ⊢ with hbool
    · exact h.emitted (i := .constBool (result != 0)) he hsmall
    · subst hq
      exact h.addConstInt result rtype (emitted_point he) hsmall

/-- The entry of a PHI is set in its record and in its bytes. -/
lemma Decodes.patchPhiEntry (h : Decodes addr b p) (hsmall : p.dataSize < 0xFF000000)
    {phiRef newValue : IRValueRef} {entryIdx fromBlock : Nat}
    (hpatch : p.patchPhiEntry phiRef entryIdx newValue fromBlock = some q) :
    ∃ b', b.stepReturning pad addr (.call (.patchPhiEntry phiRef entryIdx newValue fromBlock)) =
      some (none, b') ∧ Decodes addr b' q := by
  obtain ⟨off, t, entries, rfl, hi, hidx, rfl⟩ := patchPhiEntry_cases hpatch
  have hlt := h.lt hi
  have hmem := h.mem hi
  have hraw : (IRValueRef.instr off).raw.toNat = off := raw_instr (by omega)
  have hproper : b.Proper (.call (.patchPhiEntry (.instr off) entryIdx newValue fromBlock)) :=
    ⟨_, hmem, hraw.symm, rfl⟩
  have hphi := h.recorded.patchPhiEntry_eq (by rw [h.size]; exact hsmall) (hraw.symm ▸ hmem)
    (by rw [List.length_map]; exact hidx) newValue.raw (BitVec.ofNat 32 fromBlock)
  rw [hraw] at hphi
  have happly : b.stepReturning pad addr
      (.call (.patchPhiEntry (.instr off) entryIdx newValue fromBlock)) = some (none, { b with
        instrData := Bytes.storeFields b.instrData off
          (entryFields (8 + 8 * entryIdx) [(newValue.raw, BitVec.ofNat 32 fromBlock)])
        records := b.records.map
          (patchRecord off entryIdx (newValue.raw, BitVec.ofNat 32 fromBlock)) }) := by
    rw [stepReturning_call hproper]
    change (b.patchPhiEntry _ _ _ _).bind _ = _
    rw [hphi]
    rfl
  refine ⟨_, happly, h.functions, h.currentFnIdx, h.currentBlkIdx, h.cache, ?_, ?_, ?_⟩
  · change b.records.map _ = (List.map _ (List.map _ p.instrData)).reverse
    rw [h.records, List.map_reverse, List.map_map, List.map_map]
    congr 1
    apply List.map_congr_left
    intro x hx
    have hx' : (x.1, x.2.record addr) ∈ b.records := by
      rw [h.records, List.mem_reverse]
      exact List.mem_map_of_mem hx
    dsimp only [Function.comp_apply]
    by_cases hoff : x.1 = off
    · have heq : (x.1, x.2.record addr) = (off, (Instr.phi t entries).record addr) := by
        have hpos := body_size_pos (x.2.record addr).body
        have hpos' := body_size_pos ((Instr.phi t entries).record addr).body
        rcases h.recorded.contiguous.disjoint hx' hmem with heq | hbefore | hbehind
        · exact heq
        · dsimp only at hbefore
          omega
        · dsimp only at hbehind
          omega
      rw [if_pos hoff, heq]
      change (off, (⟨.phi, t, .phi (if off = off then _ else _)⟩ : Record)) = _
      rw [if_pos rfl, ← List.map_set (f := fun entry : IRValueRef × Nat =>
        (entry.1.raw, BitVec.ofNat 32 entry.2)) (a := (newValue, fromBlock))]
      rfl
    · rw [if_neg hoff, patchRecord_of_ne hoff]
  · change (Bytes.storeFields _ _ _).length = _
    rw [Bytes.length_storeFields, h.size]
    exact (patch_dataSize hi (List.length_set ..)).symm
  · refine h.recorded.step (congrArg (Option.map Prod.snd) happly) ?_
    change (Bytes.storeFields _ _ _).length ≤ _
    rw [Bytes.length_storeFields, h.size]
    omega

variable (pad) in
/-- A builder call does the same to the bytes and to the records, and returns the same. -/
theorem Decodes.apply (h : Decodes addr b p) (hcoded : Coded p) {c : BuilderCall}
    (hover : p.HandsOver c) (hc : c.apply p = some q) (hsmall : q.dataSize < 0xFF000000) :
    ∃ b', b.stepReturning pad addr (.call c) = some (c.returned p, b') ∧ Decodes addr b' q := by
  have hp : p.dataSize < 0xFF000000 := Nat.lt_of_le_of_lt (apply_dataSize_le hc) hsmall
  have hstep : ∀ {c : BuilderCall} {ref : IRValueRef} {r : Option (Raw × ByteProgram)},
      (∃ b', r = some (ref.raw, b') ∧ Decodes addr b' q) → b.Proper (.call c) →
      b.apply pad addr c = returning r → c.returned p = some ref.raw →
      ∃ b', b.stepReturning pad addr (.call c) = some (c.returned p, b') ∧ Decodes addr b' q := by
    rintro c ref r ⟨b', hr, hd⟩ hproper happly hreturned
    refine ⟨b', ?_, hd⟩
    rw [stepReturning_call hproper, hreturned, happly, hr]
    rfl
  cases c with
  | beginFunction name returnType params =>
    cases hc
    refine ⟨(b.beginFunction name returnType params).2, ?_, ?_, ?_, rfl, h.cache, h.records, h.size,
      h.recorded.contiguous, h.recorded.holds, h.recorded.own⟩
    · have hindex : BitVec.ofNat 32 b.functions.length = BitVec.ofNat 32 p.functions.length :=
        congrArg (fun functions => BitVec.ofNat 32 functions.length) h.functions
      exact congrArg some (Prod.ext (congrArg some hindex) rfl)
    · simp only [ByteProgram.beginFunction, IRProgram.beginFunction, h.functions]
    · exact congrArg List.length h.functions
  | addBlock name =>
    have hpoint : p.currentFnIdx < p.functions.length := by
      unfold BuilderCall.apply at hc
      dsimp only at hc
      split_ifs at hc with hpoint
      exact hpoint
    unfold BuilderCall.apply at hc
    dsimp only at hc
    rw [if_pos hpoint] at hc
    cases hc
    refine ⟨(b.modifyBlocks (· ++ [⟨name, []⟩])), ?_, ?_, h.currentFnIdx, h.currentBlkIdx, h.cache,
      h.records, h.size, h.recorded.contiguous, h.recorded.holds, h.recorded.own⟩
    · have hadd : b.addBlock name =
          some (BitVec.ofNat 32 p.blocks.length, b.modifyBlocks (· ++ [⟨name, []⟩])) := by
        unfold ByteProgram.addBlock
        rw [h.functions, h.currentFnIdx, if_pos hpoint, h.blocks]
      rw [stepReturning_call (c := .addBlock name) trivial]
      change returning (b.addBlock name) = _
      rw [hadd]
      rfl
    · simp only [ByteProgram.modifyBlocks, IRProgram.addBlock, IRProgram.modifyBlocks, h.functions,
        h.currentFnIdx]
  | setInsertionPoint fnIdx blkIdx =>
    cases hc
    exact ⟨b.setInsertionPoint fnIdx blkIdx, rfl, h.functions, rfl, rfl, h.cache, h.records, h.size,
      h.recorded.contiguous, h.recorded.holds, h.recorded.own⟩
  | addConstInt value t =>
    have hq := emitted_eq hc
    subst hq
    exact hstep (h.addConstInt value t (emitted_point hc) hsmall) trivial rfl rfl
  | addConstBool value => exact hstep (h.emitted (i := .constBool value) hc hsmall) trivial rfl rfl
  | addBinary op t a a' =>
    unfold BuilderCall.apply at hc
    dsimp only at hc
    split_ifs at hc
    exact hstep (h.addBinary hp hcoded (hover.1 a (by simp [BuilderCall.operands]))
      (hover.1 a' (by simp [BuilderCall.operands])) hc hsmall) trivial rfl rfl
  | addUnary op t a =>
    unfold BuilderCall.apply at hc
    dsimp only at hc
    split_ifs at hc
    exact hstep (h.emitted (i := .unary op t a) hc hsmall) trivial rfl rfl
  | addRotateRight a shift =>
    exact hstep (h.emitted (i := .rotateRight a shift) hc hsmall) trivial rfl rfl
  | addGEP base byteOffset =>
    have hgep : ∃ b', b.addGEP pad base.raw byteOffset =
        some ((p.addGEP base byteOffset).1.raw, b') ∧ Decodes addr b' q := by
      unfold BuilderCall.apply at hc
      dsimp only at hc
      unfold IRProgram.addGEP at hc ⊢
      unfold ByteProgram.addGEP
      split_ifs at hc ⊢
      · have hq := emitted_eq hc
        subst hq
        exact ⟨b, rfl, h⟩
      · exact h.emitted (i := .gep base byteOffset) hc hsmall
    exact hstep hgep trivial rfl rfl
  | addLoad t ptr => exact hstep (h.emitted (i := .unary .load t ptr) hc hsmall) trivial rfl rfl
  | addStore ptr value =>
    exact hstep (h.emitted (i := .binary .store .void ptr value) hc hsmall) trivial rfl rfl
  | addBranch target => exact hstep (h.emitted (i := .branch target) hc hsmall) trivial rfl rfl
  | addCondBranch cond t f =>
    exact hstep (h.emitted (i := .condBranch cond t f) hc hsmall) trivial rfl rfl
  | addReturn value => exact hstep (h.emitted (i := .ret value) hc hsmall) trivial rfl rfl
  | addPhi t incoming => exact hstep (h.emitted (i := .phi t incoming) hc hsmall) trivial rfl rfl
  | addCall t fn args => exact hstep (h.emitted (i := .call t fn args) hc hsmall) trivial rfl rfl
  | patchPhiEntry phiRef entryIdx newValue fromBlock => exact h.patchPhiEntry hp hc

/-! ### What the records are made of -/

lemma Decodes.offsets (h : Decodes addr b p) : ∀ x ∈ p.instrData, x.1 < p.dataSize := by
  intro x hx
  have hmem : (x.1, x.2.record addr) ∈ b.records := by
    rw [h.records, List.mem_reverse]
    exact List.mem_map_of_mem hx
  have hin := h.recorded.in_array hmem
  have hpos := body_size_pos (x.2.record addr).body
  rw [h.size] at hin
  dsimp only at hin
  omega

lemma refers_of_keeps (hkeep : ∀ off i, p.instrAt off = some i → ∃ j, q.instrAt off = some j)
    (h : p.Refers x) : q.Refers x := by
  cases x with
  | instr off =>
    obtain ⟨i, hi⟩ := h
    exact hkeep off i hi
  | _ => trivial

lemma Coded.of_keeps (h : Coded p) (hdata : q.instrData = p.instrData)
    (hblocks : ∀ off f k, q.InBlock off f k → p.InBlock off f k) : Coded q := by
  have hat : q.instrAt = p.instrAt := by
    funext off
    unfold IRProgram.instrAt
    rw [hdata]
  constructor
  · intro off f k hin
    rw [hat]
    exact h.listed off f k (hblocks off f k hin)
  · rw [hat]
    exact h.fits
  · intro off i hi x hx
    rw [hat] at hi
    exact refers_of_keeps (fun off i hi => ⟨i, hat ▸ hi⟩) (h.operands off i hi x hx)
  · rw [hat]
    exact h.numbers

/-- A record with operands that are records is appended. -/
lemma Coded.emit (h : Coded p) (hoffsets : ∀ x ∈ p.instrData, x.1 < p.dataSize)
    (hpoint : p.HasInsertionPoint) (hfits : i.Fits) (hoperands : ∀ x ∈ i.operands, p.Refers x)
    (hnumbers : ∀ n ∈ i.numbers, n < 2 ^ 32) : Coded (p.emit i).2 := by
  have hkeep : ∀ off j, p.instrAt off = some j → ∃ j', (p.emit i).2.instrAt off = some j' :=
    fun off j hj => ⟨j, emit_keepsRecord hoffsets i hj⟩
  constructor
  · intro off f k hin
    rcases (emit_inBlock hpoint i off f k).mp hin with hold | ⟨rfl, -, -⟩
    · obtain ⟨j, hj⟩ := h.listed off f k hold
      exact hkeep off j hj
    · exact ⟨i, by rw [emit_instrAt, if_pos rfl]⟩
  · intro off j hj
    rw [emit_instrAt] at hj
    split_ifs at hj
    · cases hj
      exact hfits
    · exact h.fits off j hj
  · intro off j hj x hx
    rw [emit_instrAt] at hj
    split_ifs at hj
    · cases hj
      exact refers_of_keeps hkeep (hoperands x hx)
    · exact refers_of_keeps hkeep (h.operands off j hj x hx)
  · intro off j hj
    rw [emit_instrAt] at hj
    split_ifs at hj
    · cases hj
      exact hnumbers
    · exact h.numbers off j hj

lemma Coded.addConstInt (h : Coded p) (hoffsets : ∀ x ∈ p.instrData, x.1 < p.dataSize)
    {value : Word} {t : IRType}
    (hpoint : (p.addConstInt value t).2.dataSize = p.dataSize ∨ p.HasInsertionPoint) :
    Coded (p.addConstInt value t).2 := by
  cases hlookup : p.constIntCache.lookup (constKey value t) with
  | some off =>
    rw [addConstInt_hit hlookup]
    exact h.of_keeps rfl fun _ _ _ hin => hin
  | none =>
    rw [addConstInt_miss hlookup] at hpoint ⊢
    have hpoint' : p.HasInsertionPoint := by
      refine hpoint.resolve_left (Nat.ne_of_gt ?_)
      exact Nat.lt_add_of_pos_right (Instr.constInt t value).byteSize_pos
    have hemit : Coded (p.emit (.constInt t value)).2 := by
      refine h.emit hoffsets hpoint' trivial ?_ ?_
      · intro x hx
        cases hx
      · intro n hn
        cases hn
    exact hemit.of_keeps rfl fun _ _ _ hin => hin

/-- What a call hands over is what its record is made of. -/
lemma Coded.apply (h : Coded p) (hoffsets : ∀ x ∈ p.instrData, x.1 < p.dataSize) {c : BuilderCall}
    (hover : p.HandsOver c) (hc : c.apply p = some q) : Coded q := by
  rcases apply_cases hc with hkeep | ⟨i, ⟨rfl, hpoint⟩, -, hfits, hoperands, hnumbers⟩ |
    ⟨v, t, rfl, hpoint⟩ | ⟨r, idx, v, blk, rfl, hpatch⟩
  · exact h.of_keeps hkeep.instrData fun off f k hin => (hkeep.inBlock off f k).mp hin
  · exact h.emit hoffsets hpoint hfits (fun x hx => hover.1 x (hoperands x hx))
      fun n hn => hover.2 n (hnumbers n hn)
  · exact h.addConstInt hoffsets hpoint
  · obtain ⟨phi, ty, entries, -, hphi, -, rfl⟩ := patchPhiEntry_cases hpatch
    have hat := @patch_instrAt p phi ty entries (entries.set idx (v, blk)) hphi
    have hkeep : ∀ off i, p.instrAt off = some i →
        ∃ j, ({ p with instrData := p.instrData.map fun record =>
          if record.1 = phi then (phi, .phi ty (entries.set idx (v, blk))) else record } :
            IRProgram).instrAt off = some j := by
      intro off i hi
      rw [hat off]
      split_ifs
      · exact ⟨_, rfl⟩
      · exact ⟨i, hi⟩
    constructor
    · intro off f k hin
      obtain ⟨i, hi⟩ := h.listed off f k hin
      exact hkeep off i hi
    · intro off i hi
      rw [hat] at hi
      split_ifs at hi
      · cases hi
        trivial
      · exact h.fits off i hi
    · intro off i hi x hx
      rw [hat] at hi
      split_ifs at hi
      · cases hi
        obtain ⟨entry, hentry, rfl⟩ := List.mem_map.mp hx
        rcases List.mem_or_eq_of_mem_set hentry with hold | rfl
        · exact refers_of_keeps hkeep (h.operands phi _ hphi _ (List.mem_map_of_mem hold))
        · exact refers_of_keeps hkeep (hover.1 v List.mem_cons_self)
      · exact refers_of_keeps hkeep (h.operands off i hi x hx)
    · intro off i hi n hn
      rw [hat] at hi
      split_ifs at hi
      · cases hi
        obtain ⟨entry, hentry, rfl⟩ := List.mem_map.mp hn
        rcases List.mem_or_eq_of_mem_set hentry with hold | rfl
        · exact h.numbers phi _ hphi _ (List.mem_map_of_mem hold)
        · exact hover.2 blk List.mem_cons_self
      · exact h.numbers off i hi n hn

lemma coded_empty : Coded {} := by
  constructor
  · rintro off f k ⟨fn, blk, hfn, -⟩
    cases hfn
  · intro off i hi
    cases hi
  · intro off i hi
    cases hi
  · intro off i hi
    cases hi

lemma decodes_empty : Decodes addr {} {} := ⟨rfl, rfl, rfl, rfl, rfl, rfl, recorded_empty⟩

/-! ### Dead code elimination -/

lemma Decodes.loadBody (h : Decodes addr b p) (hsmall : p.dataSize < 0xFF000000)
    (hi : p.instrAt off = some i) :
    loadBody b.instrData off (i.record addr).body.type = some (i.record addr).body := by
  have hrecord := h.loadRecord hsmall hi
  unfold TidyTuples.loadRecord at hrecord
  obtain ⟨op, -, hrecord⟩ := Option.bind_eq_some_iff.mp hrecord
  obtain ⟨t, -, hrecord⟩ := Option.bind_eq_some_iff.mp hrecord
  obtain ⟨body, hbody, hrecord⟩ := Option.bind_eq_some_iff.mp hrecord
  rw [hbody]
  exact congrArg some (congrArg Record.body (Option.some.inj hrecord))

/-- The elimination reads what the record says, by the layout its opcode stands for. -/
lemma Decodes.bodyAt (h : Decodes addr b p) (hsmall : p.dataSize < 0xFF000000) (hcoded : Coded p)
    (hi : p.instrAt off = some i) : b.bodyAt off = i.readBody addr := by
  have hfits := hcoded.fits off i hi
  have hop := loadOp_of_holds (h.holds hi)
  have hbody := h.loadBody hsmall hi
  have hread : ∀ ty, operandType (i.record addr).op = ty →
      b.bodyAt off = ty.bind (TidyTuples.loadBody b.instrData off) := by
    intro ty hty
    unfold ByteProgram.bodyAt
    rw [hop, ← hty]
    rfl
  cases i with
  | binary op t a a' =>
    cases hunary : op.isUnary with
    | true =>
      have hty : operandType op = some .unary := by cases op <;> first | rfl | cases hunary
      have harg := loadRaw_of_holds (body_holds (h.holds hi)) List.mem_cons_self
      rw [hread _ hty, Option.bind_some, TidyTuples.loadBody, harg]
      change _ = some (if op.isUnary = true then _ else _)
      rw [if_pos hunary]
      rfl
    | false =>
      have hty : operandType op = some .binary := by
        have hbinary : op.isBinary = true := by rwa [Instr.Fits, hunary, Bool.or_false] at hfits
        cases op <;> first | rfl | cases hbinary
      rw [hread _ hty]
      change TidyTuples.loadBody b.instrData off .binary = some (if op.isUnary = true then _ else _)
      rw [hunary, if_neg Bool.false_ne_true]
      exact hbody
  | unary op t a =>
    have hty : operandType op = some .unary := by
      have hunary : op.isUnary = true := hfits
      cases op <;> first | rfl | cases hunary
    exact (hread _ hty).trans hbody
  | constInt t v => exact hread none rfl
  | constBool v => exact hread none rfl
  | _ => exact (hread _ rfl).trans hbody

lemma Decodes.uses (h : Decodes addr b p) (hsmall : p.dataSize < 0xFF000000) (hcoded : Coded p)
    (hi : p.instrAt off = some i) : b.uses off = i.uses.map IRValueRef.raw := by
  have hfits := hcoded.fits off i hi
  unfold ByteProgram.uses
  rw [h.bodyAt hsmall hcoded hi]
  cases i with
  | binary op t a a' => cases op <;> first | rfl | cases hfits
  | unary op t a => cases op <;> first | rfl | cases hfits
  | phi t entries =>
    change (entries.map _).map _ = (entries.map _).map _
    rw [List.map_map, List.map_map]
    rfl
  | _ => rfl

/-- The references that are counted are those of records. -/
lemma Decodes.counted (h : Decodes addr b p) (hsmall : p.dataSize < 0xFF000000)
    {refs : List IRValueRef} (hrefs : ∀ x ∈ refs, p.Refers x) :
    ((refs.map IRValueRef.raw).filter fun ref => !isParamRef ref).map BitVec.toNat =
      refs.filterMap fun
        | .instr offset => some offset
        | _ => none := by
  induction refs with
  | nil => rfl
  | cons x refs ih =>
    have hrest := ih fun y hy => hrefs y (List.mem_cons_of_mem _ hy)
    cases x with
    | null =>
      rw [List.map_cons, List.filter_cons_of_neg (by rw [isParamRef_null]; decide), hrest]
      rfl
    | param f k =>
      rw [List.map_cons, List.filter_cons_of_neg (by rw [isParamRef_param]; decide), hrest]
      rfl
    | instr off =>
      obtain ⟨i, hi⟩ := hrefs _ List.mem_cons_self
      have hlt : off < 0xFF000000 := (h.lt hi).trans hsmall
      rw [List.map_cons, List.filter_cons_of_pos (by rw [isParamRef_instr hlt]; rfl), List.map_cons,
        raw_instr hlt, hrest]
      rfl

lemma Decodes.usedRefs (h : Decodes addr b p) (hsmall : p.dataSize < 0xFF000000) (hcoded : Coded p)
    {functions : List IRFunction}
    (hlisted : ∀ fn ∈ functions, ∀ off, BelongsTo off fn → ∃ i, p.instrAt off = some i) :
    b.usedRefs functions = p.usedOffsets functions := by
  unfold ByteProgram.usedRefs IRProgram.usedOffsets
  apply List.flatMap_congr
  intro fn hfn
  apply List.flatMap_congr
  intro blk hblk
  apply List.flatMap_congr
  intro off hoff
  obtain ⟨i, hi⟩ := hlisted fn hfn off ⟨blk, hblk, hoff⟩
  have huses := Instr.uses_eq_operands (hcoded.fits off i hi)
  rw [h.uses hsmall hcoded hi, h.counted hsmall fun x hx => hcoded.operands off i hi x (huses ▸ hx),
    hi]
  rfl

lemma Decodes.blockSuccessors (h : Decodes addr b p) (hsmall : p.dataSize < 0xFF000000)
    (hcoded : Coded p) {fn : IRFunction}
    (hlisted : ∀ off, BelongsTo off fn → ∃ i, p.instrAt off = some i) :
    b.blockSuccessors fn = p.blockSuccessors fn := by
  funext k
  unfold ByteProgram.blockSuccessors IRProgram.blockSuccessors
  cases hblk : fn.blocks[k]? with
  | none => rfl
  | some blk =>
    dsimp only
    cases hlast : blk.instructions.getLast? with
    | none => rfl
    | some off =>
      obtain ⟨i, hi⟩ := hlisted off ⟨blk, List.mem_of_getElem? hblk, List.mem_of_getLast? hlast⟩
      have hnat : ∀ n ∈ i.numbers, (BitVec.ofNat 32 n).toNat = n :=
        fun n hn => Nat.mod_eq_of_lt (hcoded.numbers off i hi n hn)
      rw [Option.bind_some, h.bodyAt hsmall hcoded hi]
      dsimp only
      rw [hi]
      cases i with
      | branch target =>
        exact congrArg (fun n => [n]) (hnat target List.mem_cons_self)
      | condBranch cond t f =>
        have ht := hnat t List.mem_cons_self
        have hf := hnat f (List.mem_cons_of_mem _ List.mem_cons_self)
        exact congrArg₂ (fun m n => [m, n]) hf ht
      | binary op t a a' =>
        simp only [Instr.readBody]
        split_ifs <;> rfl
      | _ => rfl

lemma Decodes.keepInstr (h : Decodes addr b p) {used : List Nat} (hi : p.instrAt off = some i) :
    b.keepInstr used off = p.keepInstr used off := by
  unfold ByteProgram.keepInstr IRProgram.keepInstr
  rw [loadOp_of_holds (h.holds hi), record_op, hi]
  change _ = (i.hasSideEffect || decide (off ∈ used))
  unfold Instr.hasSideEffect
  cases i.op <;> rfl

/-- The elimination keeps the same instructions. -/
theorem Decodes.eliminateDeadCode (h : Decodes addr b p) (hsmall : p.dataSize < 0xFF000000)
    (hcoded : Coded p) : Decodes addr b.eliminateDeadCode p.eliminateDeadCode := by
  have hlisted : ∀ fn ∈ p.functions, ∀ off, BelongsTo off fn → ∃ i, p.instrAt off = some i := by
    rintro fn hfn off ⟨blk, hblk, hoff⟩
    obtain ⟨f, hf⟩ := List.mem_iff_getElem?.mp hfn
    obtain ⟨k, hk⟩ := List.mem_iff_getElem?.mp hblk
    exact hcoded.listed off f k ⟨fn, blk, hf, hk, hoff⟩
  have hcleared : b.functions.map b.clearUnreachable = p.functions.map p.clearUnreachable := by
    rw [h.functions]
    apply List.map_congr_left
    intro fn hfn
    unfold ByteProgram.clearUnreachable IRProgram.clearUnreachable ByteProgram.reachableBlocks
      IRProgram.reachableBlocks
    rw [h.blockSuccessors hsmall hcoded (hlisted fn hfn)]
  have hleft : ∀ fn ∈ p.functions.map p.clearUnreachable, ∀ off, BelongsTo off fn →
      ∃ i, p.instrAt off = some i := by
    intro fn' hfn' off hoff
    obtain ⟨fn, hfn, rfl⟩ := List.mem_map.mp hfn'
    obtain ⟨k, -, blk, hblk, hoff⟩ := belongsTo_cleared_iff.mp hoff
    exact hlisted fn hfn off ⟨blk, List.mem_of_getElem? hblk, hoff⟩
  refine ⟨?_, h.currentFnIdx, h.currentBlkIdx, h.cache, h.records, h.size, h.recorded.contiguous,
    h.recorded.holds, h.recorded.own⟩
  unfold ByteProgram.eliminateDeadCode IRProgram.eliminateDeadCode
  dsimp only
  rw [hcleared, h.usedRefs hsmall hcoded hleft]
  apply List.map_congr_left
  intro fn hfn
  unfold IRProgram.removeUnused
  congr 1
  apply List.map_congr_left
  intro blk hblk
  congr 1
  apply List.filter_congr
  intro off hoff
  obtain ⟨i, hi⟩ := hleft fn hfn off ⟨blk, hblk, hoff⟩
  exact h.keepInstr hi

/-- What is left was there. -/
lemma Coded.eliminateDeadCode (h : Coded p) : Coded p.eliminateDeadCode := by
  apply h.of_keeps (q := p.eliminateDeadCode) rfl
  rintro off f k ⟨fn, blk, hfn, hblk, hoff⟩
  rw [eliminateDeadCode_functions, List.getElem?_map] at hfn
  obtain ⟨fn, hf, rfl⟩ := Option.map_eq_some_iff.mp hfn
  simp only [eliminated, removeUnused, IRProgram.clearUnreachable, List.getElem?_map,
    List.getElem?_mapIdx] at hblk
  obtain ⟨blk', hblk', rfl⟩ := Option.map_eq_some_iff.mp hblk
  obtain ⟨blk, hk, rfl⟩ := Option.map_eq_some_iff.mp hblk'
  have hoff' := (List.mem_filter.mp hoff).1
  refine ⟨fn, blk, hf, hk, ?_⟩
  split_ifs at hoff'
  · exact hoff'
  · cases hoff'

/-! ### Sequences of calls -/

lemma takeStep_dataSize_le {s : ByteProgram.Step} (h : p.takeStep s = some q) : p.dataSize ≤ q.dataSize := by
  cases s with
  | call c =>
    unfold IRProgram.takeStep at h
    dsimp only at h
    split_ifs at h
    exact apply_dataSize_le h
  | eliminateDeadCode =>
    cases h
    exact Nat.le_refl _

lemma takeSteps_dataSize_le {steps : List ByteProgram.Step} (h : IRProgram.takeSteps steps p = some q) :
    p.dataSize ≤ q.dataSize := by
  induction steps generalizing p with
  | nil =>
    cases h
    exact Nat.le_refl _
  | cons s steps ih =>
    rw [IRProgram.takeSteps, List.foldlM_cons] at h
    obtain ⟨mid, hstep, hrest⟩ := Option.bind_eq_some_iff.mp h
    exact (takeStep_dataSize_le hstep).trans (ih hrest)

variable (pad) in
/-- A step does the same to the bytes and to the records. -/
lemma Decodes.step (h : Decodes addr b p) (hcoded : Coded p) {s : ByteProgram.Step}
    (hstep : p.takeStep s = some q) (hsmall : q.dataSize < 0xFF000000) :
    ∃ b', b.step pad addr s = some b' ∧ Decodes addr b' q ∧ Coded q := by
  cases s with
  | call c =>
    unfold IRProgram.takeStep at hstep
    dsimp only at hstep
    split_ifs at hstep with hover
    obtain ⟨b', hb, hd⟩ := h.apply pad hcoded hover hstep hsmall
    exact ⟨b', congrArg (Option.map Prod.snd) hb, hd, hcoded.apply h.offsets hover hstep⟩
  | eliminateDeadCode =>
    cases hstep
    exact ⟨b.eliminateDeadCode, rfl, h.eliminateDeadCode hsmall hcoded, hcoded.eliminateDeadCode⟩

variable (pad) in
/-- The builders on the bytes and on the records run in step. -/
theorem Decodes.run (h : Decodes addr b p) (hcoded : Coded p) {steps : List ByteProgram.Step}
    (hrun : IRProgram.takeSteps steps p = some q) (hsmall : q.dataSize < 0xFF000000) :
    ∃ b', ByteProgram.run pad addr steps b = some b' ∧ Decodes addr b' q := by
  induction steps generalizing b p with
  | nil =>
    cases hrun
    exact ⟨b, rfl, h⟩
  | cons s steps ih =>
    rw [IRProgram.takeSteps, List.foldlM_cons] at hrun
    obtain ⟨mid, hstep, hrest⟩ := Option.bind_eq_some_iff.mp hrun
    have hmid := Nat.lt_of_le_of_lt (takeSteps_dataSize_le hrest) hsmall
    obtain ⟨b', hb, hd, hcoded'⟩ := h.step pad hcoded hstep hmid
    obtain ⟨b'', hbytes, hd'⟩ := ih hd hcoded' hrest
    refine ⟨b'', ?_, hd'⟩
    rw [ByteProgram.run, List.foldlM_cons, hb]
    exact hbytes

variable (pad addr) in
/-- The bytes that a sequence of calls leaves behind are those of the records, which are read back
from them. -/
theorem run_decodes {steps : List ByteProgram.Step} (hrun : IRProgram.takeSteps steps {} = some q)
    (hsmall : q.dataSize < 0xFF000000) : ∃ b, ByteProgram.run pad addr steps {} = some b ∧
      b.functions = q.functions ∧ b.constIntCache = q.constIntCache ∧
      b.instrData.length = q.dataSize ∧ ∀ off i, q.instrAt off = some i →
        loadRecord b.instrData off (i.record addr).body.type = some (i.record addr) := by
  obtain ⟨b, hbytes, hd⟩ := (@decodes_empty addr).run pad coded_empty hrun hsmall
  exact ⟨b, hbytes, hd.functions, hd.cache, hd.size, fun off i hi => hd.loadRecord hsmall hi⟩

/-- A sum of two constants is folded, and the constants are left over: three records of 16 bytes and
a return. -/
example : (IRProgram.takeSteps [.call (.beginFunction "f" .int64 []), .call (.addConstInt 2 .int64),
    .call (.addConstInt 3 .int64), .call (.addBinary .add .int64 (.instr 0) (.instr 16)),
    .call (.addReturn (.instr 32)), .eliminateDeadCode] {}).map IRProgram.dataSize = some 56 := by
  decide

end

end Proofs

end TidyTuples
