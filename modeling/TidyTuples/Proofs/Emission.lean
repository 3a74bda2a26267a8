import TidyTuples.Proofs.Building
import TidyTuples.Operators.Translators
import TidyTuples.Ir.DeadCode

/-!
# Structured emission

The code generators never move the insertion point by hand: they emit straight-line code, put a
consumer's code under an `if`, or put it into a counted loop. `Emits p q` is the derivation of a
program from another by these moves.
-/

namespace TidyTuples

open IRProgram

namespace IRProgram

/-- Three new blocks, as an `if` and a loop begin with. -/
def newBlocks (name₁ name₂ name₃ : String) (p : IRProgram) : IRProgram :=
  (((p.addBlock name₁).2.addBlock name₂).2.addBlock name₃).2

/-- `IfStmt`'s constructor. -/
def openIf (cond : IRValueRef) (p : IRProgram) : IRProgram :=
  let p₃ := p.newBlocks "if_true" "if_false" "if_merge"
  let p₄ := (p₃.addCondBranch cond p.blocks.length (p.blocks.length + 1)).2
  p₄.setInsertionPoint p₄.currentFnIdx p.blocks.length

/-- The last instruction of the current block ends it. -/
def isTerminated (p : IRProgram) : Bool :=
  ((p.blockAt p.currentBlkIdx).getLast?.bind p.instrAt |>.map Instr.isTerminator).getD false

/-- `IfStmt`'s destructor. -/
def closeIf (mergeBlock : Nat) (q : IRProgram) : IRProgram :=
  let q₁ := if q.isTerminated then q else (q.addBranch mergeBlock).2
  q₁.setInsertionPoint q₁.currentFnIdx mergeBlock

/-- A counted loop up to the PHI of its index. -/
def openHeader (name : String) (zero : IRValueRef) (p : IRProgram) : IRProgram :=
  let p₃ := p.newBlocks (name ++ "_header") (name ++ "_body") (name ++ "_exit")
  let p₄ := (p₃.addBranch p.blocks.length).2
  let p₅ := p₄.setInsertionPoint p₄.currentFnIdx p.blocks.length
  (p₅.addPhi .int64 [(zero, p₃.currentBlkIdx), (.null, 0)]).2

/-- The PHI of the loop that is opened at `p`: it follows the branch to the header. -/
def loopIndex (p : IRProgram) : Nat := p.dataSize + 8

/-- A counted loop up to the start of its body. -/
def openLoop (name : String) (zero bound : IRValueRef) (p : IRProgram) : IRProgram :=
  let p₆ := p.openHeader name zero
  let p₇ := (p₆.addBinary .cmpLt .bool (.instr p.loopIndex) bound).2
  let hasMore := (p₆.addBinary .cmpLt .bool (.instr p.loopIndex) bound).1
  let p₈ := (p₇.addCondBranch hasMore (p.blocks.length + 1) (p.blocks.length + 2)).2
  p₈.setInsertionPoint p₈.currentFnIdx (p.blocks.length + 1)

/-- The back edge of a counted loop; code goes on behind the loop. -/
def closeHeader (header : Nat) (q : IRProgram) : IRProgram :=
  let q' := (q.addBranch header).2
  q'.setInsertionPoint q'.currentFnIdx (header + 2)

/-- The rest of a counted loop behind its body. -/
def closeLoop (header phi : Nat) (one : IRValueRef) (q : IRProgram) : Option IRProgram :=
  let q₁ := (q.addBinary .add .int64 (.instr phi) one).2
  let next := (q.addBinary .add .int64 (.instr phi) one).1
  (q₁.patchPhiEntry (.instr phi) 1 next q₁.currentBlkIdx).map (closeHeader header)

end IRProgram

namespace Proofs

/-! ### Running generators -/

section

variable {α β : Type} {ctx ctx' : CompilationContext}

lemma run_bind_ok {x : Gen α} {f : α → Gen β} {b : β} (h : (x >>= f) ctx = .ok (b, ctx')) :
    ∃ a ctx₁, x ctx = .ok (a, ctx₁) ∧ f a ctx₁ = .ok (b, ctx') := by
  change (x ctx >>= fun r => f r.1 r.2) = _ at h
  cases hx : x ctx with
  | error e => rw [hx] at h; cases h
  | ok r => rw [hx] at h; exact ⟨r.1, r.2, rfl, h⟩

lemma run_bind_of_ok {x : Gen α} {f : α → Gen β} {a : α} {ctx₁ : CompilationContext}
    (h : x ctx = .ok (a, ctx₁)) : (x >>= f) ctx = f a ctx₁ := by
  change (x ctx >>= fun r => f r.1 r.2) = _
  rw [h]
  rfl

lemma run_bind_of_error {x : Gen α} {k : α → Gen β} {e : CppError} (h : x ctx = .error e) :
    (x >>= k) ctx = .error e := by
  change (x ctx >>= fun r => k r.1 r.2) = _
  rw [h]
  rfl

lemma run_pure_ok {a b : α} (h : (pure a : Gen α) ctx = .ok (b, ctx')) : b = a ∧ ctx' = ctx := by
  cases h
  exact ⟨rfl, rfl⟩

lemma run_ofExcept_ok {x : Except CppError α} {a : α} (h : Gen.ofExcept x ctx = .ok (a, ctx')) :
    x = .ok a ∧ ctx' = ctx := by
  cases x with
  | ok b => cases h; exact ⟨rfl, rfl⟩
  | error e => cases h

lemma addBlock_length {p : IRProgram} (hv : Valid p) (name : String) :
    (p.addBlock name).2.blocks.length = p.blocks.length + 1 := by
  simp [addBlock_blocks hv.fnIdx]

section

variable (p : IRProgram)

@[simp] lemma program_withProgram : (ctx.withProgram p).program = p := rfl

lemma run_addBlock (name : String) : Gen.addBlock name (ctx.withProgram p) =
    .ok (p.blocks.length, ctx.withProgram (p.addBlock name).2) := rfl

lemma run_addBranch (b : Nat) : Gen.addBranch b (ctx.withProgram p) =
    .ok (.instr p.dataSize, ctx.withProgram (p.addBranch b).2) := rfl

lemma run_addCondBranch (cond : IRValueRef) (t f : Nat) :
    Gen.addCondBranch cond t f (ctx.withProgram p) =
      .ok (.instr p.dataSize, ctx.withProgram (p.addCondBranch cond t f).2) := rfl

lemma run_setBlock (b : Nat) : Gen.setBlock b (ctx.withProgram p) =
    .ok ((), ctx.withProgram (p.setInsertionPoint p.currentFnIdx b)) := rfl

lemma run_currentBlock : Gen.currentBlock (ctx.withProgram p) =
    .ok (p.currentBlkIdx, ctx.withProgram p) := rfl

lemma run_addPhi (t : IRType) (incoming : List (IRValueRef × Nat)) :
    Gen.addPhi t incoming (ctx.withProgram p) =
      .ok (.instr p.dataSize, ctx.withProgram (p.addPhi t incoming).2) := rfl

lemma run_addBinary (op : Opcode) (t : IRType) (a b : IRValueRef) :
    Gen.addBinary op t a b (ctx.withProgram p) =
      .ok ((p.addBinary op t a b).1, ctx.withProgram (p.addBinary op t a b).2) := rfl

lemma run_patchPhiEntry_iff (phi : IRValueRef) (i : Nat) (v : IRValueRef) (b : Nat) :
    Gen.patchPhiEntry phi i v b (ctx.withProgram p) = .ok ((), ctx') ↔
      ∃ q, p.patchPhiEntry phi i v b = some q ∧ ctx' = ctx.withProgram q := by
  simp only [Gen.patchPhiEntry, program_withProgram]
  cases p.patchPhiEntry phi i v b with
  | none => simp
  | some q => simp [CompilationContext.withProgram, eq_comm]

end

/-- An `if` is its constructor, the body and its destructor. -/
lemma run_ifStmt_iff (hv : Valid ctx.program) (cond : IRValueRef) (body : Gen Unit) :
    Gen.ifStmt cond body ctx = .ok ((), ctx') ↔
      ∃ ctx₁, body (ctx.withProgram (ctx.program.openIf cond)) = .ok ((), ctx₁) ∧
        ctx' = ctx₁.withProgram (ctx₁.program.closeIf (ctx.program.blocks.length + 2)) := by
  have hl₁ := addBlock_length hv "if_true"
  have hl₂ := addBlock_length (addBlock_valid hv "if_true") "if_false"
  have hclose : ∀ (m : Nat) (ctx₁ : CompilationContext), (Gen.isTerminated >>= fun b =>
      if (!b) = true then Gen.addBranch m >>= fun _ => Gen.setBlock m else Gen.setBlock m) ctx₁ =
        .ok ((), ctx₁.withProgram (ctx₁.program.closeIf m)) := by
    intro m ctx₁
    rw [run_bind_of_ok (a := ctx₁.program.isTerminated) rfl]
    cases hterm : ctx₁.program.isTerminated <;> simp only [closeIf, hterm] <;> rfl
  change Gen.ifStmt cond body (ctx.withProgram ctx.program) = _ ↔ _
  unfold Gen.ifStmt
  rw [run_bind_of_ok (run_addBlock _ _), run_bind_of_ok (run_addBlock _ _),
    run_bind_of_ok (run_addBlock _ _), run_bind_of_ok (run_addCondBranch _ _ _ _),
    run_bind_of_ok (run_setBlock _ _)]
  simp only [hl₁, hl₂]
  constructor
  · intro h
    obtain ⟨⟨⟩, ctx₁, hbody, hrest⟩ := run_bind_ok h
    rw [hclose] at hrest
    cases hrest
    exact ⟨ctx₁, hbody, rfl⟩
  · rintro ⟨ctx₁, hbody, rfl⟩
    exact (run_bind_of_ok hbody).trans (hclose _ ctx₁)

/-- The end of a counted loop. -/
lemma run_closeLoop_iff (header phi : Nat) (one : IRValueRef) (ctx₁ : CompilationContext) :
    (do
      let idxNext ← Gen.addBinary .add .int64 (.instr phi) one
      let backEdgeBlk ← Gen.currentBlock
      Gen.patchPhiEntry (.instr phi) 1 idxNext backEdgeBlk
      let _ ← Gen.addBranch header
      Gen.setBlock (header + 2) : Gen Unit) ctx₁ = .ok ((), ctx') ↔
      ∃ q, ctx₁.program.closeLoop header phi one = some q ∧ ctx' = ctx₁.withProgram q := by
  simp only [closeLoop, Option.map_eq_some_iff]
  change (_ : Gen Unit) (ctx₁.withProgram ctx₁.program) = _ ↔ _
  rw [run_bind_of_ok (run_addBinary _ _ _ _ _), run_bind_of_ok (run_currentBlock _)]
  constructor
  · intro h
    obtain ⟨⟨⟩, ctx₂, hpatch, hrest⟩ := run_bind_ok h
    obtain ⟨q, hq, rfl⟩ := (run_patchPhiEntry_iff _ _ _ _ _).mp hpatch
    rw [run_bind_of_ok (run_addBranch _ _), run_setBlock] at hrest
    cases hrest
    exact ⟨_, ⟨q, hq, rfl⟩, rfl⟩
  · rintro ⟨_, ⟨q, hq, rfl⟩, rfl⟩
    rw [run_bind_of_ok ((run_patchPhiEntry_iff _ _ _ _ _).mpr ⟨q, hq, rfl⟩),
      run_bind_of_ok (run_addBranch _ _), run_setBlock]
    rfl

/-- A counted loop is its opening, the body and its end. -/
lemma run_countedLoop_iff (hv : Valid ctx.program) (name : String) (zero bound one : IRValueRef)
    (body : IRValueRef → Gen Unit) :
    Gen.countedLoop name zero bound one body ctx = .ok ((), ctx') ↔
      ∃ ctx₁ q, body (.instr ctx.program.loopIndex)
          (ctx.withProgram (ctx.program.openLoop name zero bound)) = .ok ((), ctx₁) ∧
        ctx₁.program.closeLoop ctx.program.blocks.length ctx.program.loopIndex one = some q ∧
        ctx' = ctx₁.withProgram q := by
  have hl₁ := addBlock_length hv (name ++ "_header")
  have hl₂ := addBlock_length (addBlock_valid hv (name ++ "_header")) (name ++ "_body")
  change Gen.countedLoop name zero bound one body (ctx.withProgram ctx.program) = _ ↔ _
  unfold Gen.countedLoop
  rw [run_bind_of_ok (run_addBlock _ _), run_bind_of_ok (run_addBlock _ _),
    run_bind_of_ok (run_addBlock _ _), run_bind_of_ok (run_currentBlock _),
    run_bind_of_ok (run_addBranch _ _), run_bind_of_ok (run_setBlock _ _),
    run_bind_of_ok (run_addPhi _ _ _), run_bind_of_ok (run_addBinary _ _ _ _ _),
    run_bind_of_ok (run_addCondBranch _ _ _ _), run_bind_of_ok (run_setBlock _ _)]
  simp only [hl₁, hl₂]
  constructor
  · intro h
    obtain ⟨⟨⟩, ctx₁, hbody, hrest⟩ := run_bind_ok h
    obtain ⟨q, hq, rfl⟩ := (run_closeLoop_iff _ _ _ _).mp hrest
    exact ⟨ctx₁, q, hbody, hq, rfl⟩
  · rintro ⟨ctx₁, q, hbody, hclose, rfl⟩
    exact (run_bind_of_ok hbody).trans ((run_closeLoop_iff _ _ _ _).mpr ⟨q, hclose, rfl⟩)

end

/-! ### What the moves do to a program -/

/-- No block behind the current one has code. -/
def Fresh (p : IRProgram) : Prop := ∀ b, p.currentBlkIdx < b → p.blockAt b = []

section

variable {p : IRProgram}

structure NewBlocks (p q : IRProgram) : Prop where
  valid : Valid q
  loc : Local p q
  current : q.currentBlkIdx = p.currentBlkIdx
  length : q.blocks.length = p.blocks.length + 3
  size : q.dataSize = p.dataSize
  blockAt : ∀ b, q.blockAt b = p.blockAt b
  instrAt : ∀ off, q.instrAt off = p.instrAt off
  cache : q.constIntCache = p.constIntCache

lemma newBlocks_spec (hv : Valid p) (n₁ n₂ n₃ : String) : NewBlocks p (p.newBlocks n₁ n₂ n₃) := by
  have hv₁ := addBlock_valid hv n₁
  have hv₂ := addBlock_valid hv₁ n₂
  have hat : ∀ b, (p.newBlocks n₁ n₂ n₃).blockAt b = p.blockAt b := fun b => by
    rw [IRProgram.newBlocks, addBlock_blockAt hv₂.fnIdx, addBlock_blockAt hv₁.fnIdx,
      addBlock_blockAt hv.fnIdx]
  refine ⟨addBlock_valid hv₂ n₃, ⟨?_, .inl rfl, fun b _ _ => hat b, fun off i hi => hi⟩, rfl, ?_,
    rfl, hat, fun _ => rfl, rfl⟩
  · exact ((addBlock_extends hv n₁).trans (addBlock_extends hv₁ n₂)).trans (addBlock_extends hv₂ n₃)
  · rw [IRProgram.newBlocks, addBlock_length hv₂, addBlock_length hv₁, addBlock_length hv]

structure IfOpened (cond : IRValueRef) (p q : IRProgram) : Prop where
  valid : Valid q
  loc : Local p q
  isOpen : Open q
  current : q.currentBlkIdx = p.blocks.length
  length : q.blocks.length = p.blocks.length + 3
  size : q.dataSize = p.dataSize + 16
  blockAt : ∀ b, q.blockAt b =
    if b = p.currentBlkIdx then p.blockAt b ++ [p.dataSize] else p.blockAt b
  instrAt : ∀ off, q.instrAt off = if off = p.dataSize then
    some (.condBranch cond p.blocks.length (p.blocks.length + 1)) else p.instrAt off
  cache : q.constIntCache = p.constIntCache

lemma openIf_spec (hv : Valid p) (cond : IRValueRef) : IfOpened cond p (p.openIf cond) := by
  have h := newBlocks_spec hv "if_true" "if_false" "if_merge"
  unfold IRProgram.openIf
  generalize p.newBlocks "if_true" "if_false" "if_merge" = p₃ at h
  have hb := hv.blkIdx
  let i : Instr := .condBranch cond p.blocks.length (p.blocks.length + 1)
  have h₄ := emit_appended h.valid i
  have hloc₄ : Local p (p₃.emit i).2 := h.loc.trans (emit_local h.valid rfl)
  change IfOpened cond p ((p₃.emit i).2.setInsertionPoint (p₃.emit i).2.currentFnIdx p.blocks.length)
  generalize (p₃.emit i).2 = p₄ at h₄ hloc₄ ⊢
  have hlen₄ := h₄.length.trans h.length
  have hat₄ : ∀ b, p₄.blockAt b =
      if b = p.currentBlkIdx then p.blockAt b ++ [p.dataSize] else p.blockAt b := fun b => by
    rw [h₄.blockAt, h.current, h.blockAt, h.size]
  refine ⟨setBlock_valid h₄.valid (by omega), hloc₄.setBlock le_rfl, ?_, rfl, hlen₄, ?_, hat₄, ?_,
    h₄.cache.trans h.cache⟩
  · intro off hoff
    change off ∈ p₄.blockAt p.blocks.length at hoff
    rw [hat₄, if_neg (by omega), blockAt_of_length_le le_rfl] at hoff
    cases hoff
  · exact h₄.size.trans (congrArg (· + 16) h.size)
  · intro off
    exact (h₄.instrAt off).trans (by rw [h.size, h.instrAt])

/-- The header of a loop with the PHI of its index, and the branch into it. -/
structure HeaderOpened (zero : IRValueRef) (p q : IRProgram) : Prop where
  valid : Valid q
  loc : Local p q
  current : q.currentBlkIdx = p.blocks.length
  length : q.blocks.length = p.blocks.length + 3
  size : q.dataSize = p.dataSize + 32
  blockAt : ∀ b, q.blockAt b =
    if b = p.currentBlkIdx then p.blockAt b ++ [p.dataSize]
    else if b = p.blocks.length then [p.loopIndex] else p.blockAt b
  instrAt : ∀ off, q.instrAt off =
    if off = p.loopIndex then some (.phi .int64 [(zero, p.currentBlkIdx), (.null, 0)])
    else if off = p.dataSize then some (.branch p.blocks.length) else p.instrAt off
  cache : q.constIntCache = p.constIntCache

lemma openHeader_spec (hv : Valid p) (name : String) (zero : IRValueRef) :
    HeaderOpened zero p (p.openHeader name zero) := by
  have h := newBlocks_spec hv (name ++ "_header") (name ++ "_body") (name ++ "_exit")
  unfold IRProgram.openHeader
  generalize p.newBlocks (name ++ "_header") (name ++ "_body") (name ++ "_exit") = p₃ at h
  have hb := hv.blkIdx
  let entry : Instr := .branch p.blocks.length
  have h₄ := emit_appended h.valid entry
  have hl₄ := h.loc.trans (emit_local h.valid (i := entry) rfl)
  change HeaderOpened zero p ((((p₃.emit entry).2.setInsertionPoint (p₃.emit entry).2.currentFnIdx
    p.blocks.length).emit (.phi .int64 [(zero, p₃.currentBlkIdx), (.null, 0)])).2)
  generalize (p₃.emit entry).2 = p₄ at h₄ hl₄ ⊢
  have hlen₄ := h₄.length.trans h.length
  have hv₅ : Valid (p₄.setInsertionPoint p₄.currentFnIdx p.blocks.length) :=
    setBlock_valid h₄.valid (by omega)
  have hs₅ : (p₄.setInsertionPoint p₄.currentFnIdx p.blocks.length).dataSize = p.loopIndex :=
    h₄.size.trans (congrArg (· + 8) h.size)
  have h₆ := emit_appended hv₅ (.phi .int64 [(zero, p₃.currentBlkIdx), (.null, 0)])
  rw [h.current] at h₆ ⊢
  refine ⟨h₆.valid, (hl₄.setBlock le_rfl).emit_new hv₅ le_rfl _, rfl, h₆.length.trans hlen₄,
    h₆.size.trans (congrArg (· + 24) hs₅), fun b => (h₆.blockAt b).trans ?_,
    fun off => (h₆.instrAt off).trans ?_, h₄.cache.trans h.cache⟩
  · rw [hs₅]
    change (if b = p.blocks.length then p₄.blockAt b ++ _ else p₄.blockAt b) = _
    rw [h₄.blockAt, h.current, h.blockAt, h.size]
    by_cases hnew : b = p.blocks.length
    · rw [if_pos hnew, if_neg (by omega), if_neg (by omega), if_pos hnew, hnew,
        blockAt_of_length_le le_rfl]
      rfl
    · rw [if_neg hnew, if_neg hnew]
  · rw [hs₅]
    change (if _ then _ else p₄.instrAt off) = _
    rw [h₄.instrAt, h.size, h.instrAt]

/-- The branch into the loop, the header's PHI, comparison and branch follow each other. -/
structure LoopOpened (zero bound : IRValueRef) (p q : IRProgram) : Prop where
  valid : Valid q
  loc : Local p q
  isOpen : Open q
  current : q.currentBlkIdx = p.blocks.length + 1
  length : q.blocks.length = p.blocks.length + 3
  size : q.dataSize = p.dataSize + 60
  blockAt : ∀ b, q.blockAt b =
    if b = p.currentBlkIdx then p.blockAt b ++ [p.dataSize]
    else if b = p.blocks.length then [p.loopIndex, p.dataSize + 32, p.dataSize + 44]
    else p.blockAt b
  entry : q.instrAt p.dataSize = some (.branch p.blocks.length)
  phi : q.instrAt p.loopIndex =
    some (.phi .int64 [(zero, p.currentBlkIdx), (.null, 0)])
  hasMore : q.instrAt (p.dataSize + 32) =
    some (.binary .cmpLt .bool (.instr p.loopIndex) bound)
  exit : q.instrAt (p.dataSize + 44) = some (.condBranch (.instr (p.dataSize + 32))
    (p.blocks.length + 1) (p.blocks.length + 2))
  old : ∀ off < p.dataSize, q.instrAt off = p.instrAt off
  cache : q.constIntCache = p.constIntCache

/-- A binary operation is folded to a constant or emitted. -/
lemma addBinary_cases (op : Opcode) (t : IRType) (a b : IRValueRef) :
    (∃ v, p.addBinary op t a b = p.addConstBool v) ∨
    (∃ v t', p.addBinary op t a b = p.addConstInt v t') ∨
    p.addBinary op t a b = p.emit (.binary op t a b) := by
  unfold IRProgram.addBinary IRProgram.tryConstFold
  cases p.constIntValue a with
  | none => exact .inr (.inr rfl)
  | some va =>
    cases p.constIntValue b with
    | none => exact .inr (.inr rfl)
    | some vb =>
      cases hf : foldConstants op t va vb with
      | none =>
        refine .inr (.inr ?_)
        simp [hf]
      | some res =>
        obtain ⟨v, t'⟩ := res
        by_cases ht : t' = .bool
        · refine .inl ⟨v != 0, ?_⟩
          simp [hf, ht]
        · refine .inr (.inl ⟨v, t', ?_⟩)
          simp [hf, ht]

/-- With a PHI among its operands nothing is folded. -/
lemma addBinary_phi {off : Nat} {ty : IRType} {entries : List (IRValueRef × Nat)}
    (h : p.instrAt off = some (.phi ty entries)) (op : Opcode) (t : IRType) (b : IRValueRef) :
    p.addBinary op t (.instr off) b = p.emit (.binary op t (.instr off) b) := by
  simp [IRProgram.addBinary, IRProgram.tryConstFold, IRProgram.constIntValue, IRProgram.getInstr, h]

lemma openLoop_spec (hv : Valid p) (name : String) (zero bound : IRValueRef) :
    LoopOpened zero bound p (p.openLoop name zero bound) := by
  have h := openHeader_spec hv name zero
  unfold IRProgram.openLoop
  generalize p.openHeader name zero = p₆ at h
  have hb := hv.blkIdx
  have hidx : p.loopIndex = p.dataSize + 8 := rfl
  have hphi : p₆.instrAt p.loopIndex = some (.phi .int64 [(zero, p.currentBlkIdx), (.null, 0)]) := by
    rw [h.instrAt, if_pos rfl]
  simp only [addBinary_phi hphi, emit_ref, h.size]
  have h₇ := emit_appended h.valid (.binary .cmpLt .bool (.instr p.loopIndex) bound)
  have hl₇ := h.loc.emit_new h.valid h.current.ge (.binary .cmpLt .bool (.instr p.loopIndex) bound)
  generalize (p₆.emit (.binary .cmpLt .bool (.instr p.loopIndex) bound)).2 = p₇ at h₇ hl₇ ⊢
  have hcur₇ := h₇.current.trans h.current
  have hs₇ : p₇.dataSize = p.dataSize + 44 := h₇.size.trans (congrArg (· + 12) h.size)
  let br : Instr := .condBranch (.instr (p.dataSize + 32)) (p.blocks.length + 1) (p.blocks.length + 2)
  have h₈ := emit_appended h₇.valid br
  have hl₈ := hl₇.emit_new h₇.valid hcur₇.ge br
  change LoopOpened zero bound p ((p₇.emit br).2.setInsertionPoint (p₇.emit br).2.currentFnIdx
    (p.blocks.length + 1))
  generalize (p₇.emit br).2 = p₈ at h₈ hl₈ ⊢
  have hlen₈ := h₈.length.trans (h₇.length.trans h.length)
  have hat : ∀ b, p₈.blockAt b =
      if b = p.currentBlkIdx then p.blockAt b ++ [p.dataSize]
      else if b = p.blocks.length then [p.loopIndex, p.dataSize + 32, p.dataSize + 44]
      else p.blockAt b := by
    intro b
    rw [h₈.blockAt, h₇.blockAt, h.blockAt, hcur₇, h.current, hs₇, h.size]
    by_cases hnew : b = p.blocks.length
    · rw [if_pos hnew, if_pos hnew, if_neg (by omega), if_pos hnew, if_neg (by omega), if_pos hnew]
      rfl
    · rw [if_neg hnew, if_neg hnew, if_neg hnew, if_neg hnew]
  have hi : ∀ off, p₈.instrAt off =
      if off = p.dataSize + 44 then some br
      else if off = p.dataSize + 32 then some (.binary .cmpLt .bool (.instr p.loopIndex) bound)
      else p₆.instrAt off := by
    intro off
    rw [h₈.instrAt, h₇.instrAt, hs₇, h.size]
  refine ⟨setBlock_valid h₈.valid (by omega), hl₈.setBlock (by omega), ?_, rfl, hlen₈,
    h₈.size.trans (congrArg (· + 16) hs₇), hat, ?_, ?_, ?_, ?_, ?_,
    h₈.cache.trans (h₇.cache.trans h.cache)⟩
  · intro off hoff
    change off ∈ p₈.blockAt (p.blocks.length + 1) at hoff
    rw [hat, if_neg (by omega), if_neg (by omega), blockAt_of_length_le (by omega)] at hoff
    cases hoff
  · refine (hi _).trans ?_
    rw [if_neg (by omega), if_neg (by omega), h.instrAt, if_neg (by omega), if_pos rfl]
  · refine (hi _).trans ?_
    rw [if_neg (by omega), if_neg (by omega), hphi]
  · refine (hi _).trans ?_
    rw [if_neg (by omega), if_pos rfl]
  · refine (hi _).trans ?_
    rw [if_pos rfl]
  · intro off hoff
    refine (hi off).trans ?_
    rw [if_neg (by omega), if_neg (by omega), h.instrAt, if_neg (by omega), if_neg (by omega)]

/-! ### Closing moves -/

lemma isTerminated_of_open (ho : Open p) : p.isTerminated = false := by
  unfold IRProgram.isTerminated
  cases hlast : (p.blockAt p.currentBlkIdx).getLast? with
  | none => rfl
  | some off =>
    cases hi : p.instrAt off with
    | none => simp [hi]
    | some i => simpa [hi] using ho off (List.mem_of_getLast? hlast) i hi

/-- From an open block the destructor always branches. -/
structure IfClosed (mergeBlock : Nat) (q r : IRProgram) : Prop where
  valid : Valid r
  weak : Extends q r
  loc : ∀ p, Local p q → p.blocks.length ≤ mergeBlock → Local p r
  current : r.currentBlkIdx = mergeBlock
  length : r.blocks.length = q.blocks.length
  size : r.dataSize = q.dataSize + 8
  blockAt : ∀ b, r.blockAt b =
    if b = q.currentBlkIdx then q.blockAt b ++ [q.dataSize] else q.blockAt b
  instrAt : ∀ off, r.instrAt off =
    if off = q.dataSize then some (.branch mergeBlock) else q.instrAt off
  cache : r.constIntCache = q.constIntCache

lemma closeIf_spec {q : IRProgram} (hv : Valid q) (ho : Open q) {m : Nat}
    (hm : m < q.blocks.length) : IfClosed m q (q.closeIf m) := by
  have heq : q.closeIf m =
      (q.addBranch m).2.setInsertionPoint (q.addBranch m).2.currentFnIdx m := by
    simp only [closeIf, isTerminated_of_open ho, Bool.false_eq_true, if_false]
  rw [heq]
  have h := emit_appended hv (.branch m)
  have hext := emit_extends hv (i := .branch m) rfl
  exact ⟨setBlock_valid h.valid (h.length.symm ▸ hm), hext.trans (setBlock_extends m),
    fun p hp hle => (hp.trans (emit_local hv rfl)).setBlock hle, rfl, h.length, h.size, h.blockAt,
    h.instrAt, h.cache⟩

lemma lookup_map_replace {α : Type} (l : List (Nat × α)) (key : Nat) (x : α) (off : Nat) :
    (l.map fun record => if record.1 = key then (key, x) else record).lookup off =
      if off = key then (l.lookup key).map (fun _ => x) else l.lookup off := by
  induction l with
  | nil => simp
  | cons r l ih =>
    obtain ⟨k, y⟩ := r
    by_cases hk : k = key
    · subst hk
      by_cases hoff : off = k
      · simp [hoff]
      · simp only [List.map_cons, if_true, List.lookup_cons, beq_eq_false_iff_ne.mpr hoff, ih,
          if_neg hoff]
    · simp only [List.map_cons, if_neg hk, List.lookup_cons, ih,
        beq_eq_false_iff_ne.mpr (Ne.symm hk)]
      by_cases hoff : off = key
      · subst hoff
        simp [beq_eq_false_iff_ne.mpr (Ne.symm hk)]
      · simp only [if_neg hoff]

structure Patched (phi : Nat) (i : Instr) (q q' : IRProgram) : Prop where
  valid : Valid q'
  blocks : q'.blocks = q.blocks
  functions : q'.functions = q.functions
  current : q'.currentBlkIdx = q.currentBlkIdx
  fnIdx : q'.currentFnIdx = q.currentFnIdx
  size : q'.dataSize = q.dataSize
  instrAt : ∀ off, q'.instrAt off = if off = phi then some i else q.instrAt off
  cache : q'.constIntCache = q.constIntCache
  requests : q'.constRequests = q.constRequests

lemma patchPhiEntry_spec {q : IRProgram} (hv : Valid q) {phi : Nat} {ty : IRType}
    {a b : IRValueRef × Nat} (hphi : q.instrAt phi = some (.phi ty [a, b])) (v : IRValueRef)
    (blk : Nat) : ∃ q', q.patchPhiEntry (.instr phi) 1 v blk = some q' ∧
      Patched phi (.phi ty [a, (v, blk)]) q q' := by
  let f : Nat × Instr → Nat × Instr := fun record =>
    if record.1 = phi then (phi, .phi ty [a, (v, blk)]) else record
  let q' : IRProgram := { q with instrData := q.instrData.map f }
  have hq' : q.patchPhiEntry (.instr phi) 1 v blk = some q' := by
    simp only [IRProgram.patchPhiEntry, IRProgram.getInstr, hphi]
    rfl
  have hinstr : ∀ off, q'.instrAt off =
      if off = phi then some (.phi ty [a, (v, blk)]) else q.instrAt off := by
    intro off
    refine (lookup_map_replace q.instrData phi _ off).trans ?_
    change (if _ then (q.instrAt phi).map _ else _) = _
    rw [hphi]
    rfl
  have hsize : q'.dataSize = q.dataSize := by
    cases hd : q.instrData with
    | nil => simp [q', IRProgram.dataSize, hd]
    | cons r rest =>
      obtain ⟨k, i⟩ := r
      simp only [q', f, IRProgram.dataSize, hd, List.map_cons]
      by_cases hk : k = phi
      · have hi : i = .phi ty [a, b] := by
          simpa [IRProgram.instrAt, hd, List.lookup_cons, hk] using hphi
        rw [if_pos hk, hk, hi]
        rfl
      · rw [if_neg hk]
  have hconst : ∀ off, (∃ t w, q.instrAt off = some (.constInt t w)) →
      ∃ t w, q'.instrAt off = some (.constInt t w) := by
    rintro off ⟨t, w, hw⟩
    refine ⟨t, w, ?_⟩
    rw [hinstr, if_neg ?_, hw]
    rintro rfl
    rw [hphi] at hw
    cases hw
  refine ⟨q', hq', ⟨?_, hv.fnIdx, hv.blkIdx, ?_, fun key off hk => hconst off (hv.cache key off hk),
    fun r hr => hconst r.offset (hv.requests r hr)⟩, rfl, rfl, rfl, rfl, hsize, hinstr, rfl, rfl⟩
  · intro record hrecord
    obtain ⟨r, hr, rfl⟩ := List.mem_map.mp hrecord
    have hlt := hv.offsets r hr
    rw [hsize]
    simp only [f]
    split_ifs with h
    · exact h ▸ hlt
    · exact hlt
  · intro blk' off hoff
    obtain ⟨i, hi⟩ := hv.blockOffsets blk' off hoff
    rw [hinstr]
    split_ifs
    · exact ⟨_, rfl⟩
    · exact ⟨i, hi⟩

lemma Patched.extends {q q' : IRProgram} {phi : Nat} {i j : Instr} (h : Patched phi i q q')
    (hphi : q.instrAt phi = some j) (hj : ¬ j.IsComplete) : Extends q q' where
  fnIdx := h.fnIdx
  blocks := by rw [h.blocks]
  prefixes b := by
    simp only [IRProgram.blockAt, h.blocks]
    exact List.prefix_rfl
  records off k hk hc := by
    rw [h.instrAt, if_neg, hk]
    rintro rfl
    rw [hphi] at hk
    cases hk
    exact hj hc
  size := h.size.ge
  requests := by
    rw [h.requests]
    exact List.Subset.refl _
  addedOffsets b off hoff hnot := by
    rw [IRProgram.blockAt, h.blocks] at hoff
    exact absurd hoff hnot
  addedPhis b _ off hoff hnot := by
    rw [IRProgram.blockAt, h.blocks] at hoff
    exact absurd hoff hnot
  cache key off hk := by rw [h.cache, hk]

/-- A PHI that `p` does not know may be patched. -/
lemma Patched.local {p q q' : IRProgram} {phi : Nat} {i j : Instr} (h : Patched phi i q q')
    (hphi : q.instrAt phi = some j) (hj : ¬ j.IsComplete) (hv : Valid p) (hloc : Local p q)
    (hle : p.dataSize ≤ phi) : Local p q' where
  toExtends := hloc.toExtends.trans (h.extends hphi hj)
  current := by
    rw [h.current]
    exact hloc.current
  others b hb hne := by
    rw [IRProgram.blockAt, h.blocks]
    exact hloc.others b hb hne
  allRecords off k hk := by
    have hlt := hv.instrAt_lt hk
    rw [h.instrAt, if_neg (by omega), hloc.allRecords off k hk]

/-- What the end of a loop adds to the block the body ended in. -/
structure LoopClosed (header phi : Nat) (zero one : IRValueRef) (entry : Nat) (q r : IRProgram) :
    Prop where
  valid : Valid r
  weak : Extends q r
  loc : ∀ p, Valid p → Local p q → p.dataSize ≤ phi → p.blocks.length ≤ header → Local p r
  current : r.currentBlkIdx = header + 2
  length : r.blocks.length = q.blocks.length
  size : r.dataSize = q.dataSize + 20
  blockAt : ∀ b, r.blockAt b =
    if b = q.currentBlkIdx then q.blockAt b ++ [q.dataSize, q.dataSize + 12] else q.blockAt b
  patched : r.instrAt phi =
    some (.phi .int64 [(zero, entry), (.instr q.dataSize, q.currentBlkIdx)])
  next : r.instrAt q.dataSize = some (.binary .add .int64 (.instr phi) one)
  back : r.instrAt (q.dataSize + 12) = some (.branch header)
  old : ∀ off < q.dataSize, off ≠ phi → r.instrAt off = q.instrAt off
  cache : r.constIntCache = q.constIntCache

lemma closeLoop_spec {q : IRProgram} (hv : Valid q) {phi header entry : Nat} {zero : IRValueRef}
    (hphi : q.instrAt phi = some (.phi .int64 [(zero, entry), (.null, 0)]))
    (hh : header + 2 < q.blocks.length) (one : IRValueRef) :
    ∃ r, q.closeLoop header phi one = some r ∧ LoopClosed header phi zero one entry q r := by
  have hlt := hv.instrAt_lt hphi
  let next : Instr := .binary .add .int64 (.instr phi) one
  have h₁ := emit_appended hv next
  have hphi₁ := emit_instrAt_of_some hv next hphi
  obtain ⟨q₂, hq₂, h₂⟩ := patchPhiEntry_spec h₁.valid hphi₁ (.instr q.dataSize) q.currentBlkIdx
  refine ⟨q₂.closeHeader header, ?_, ?_⟩
  · simp only [closeLoop, addBinary_phi hphi]
    exact Option.map_eq_some_iff.mpr ⟨q₂, hq₂, rfl⟩
  · have hincomplete : ¬ (Instr.phi .int64 [(zero, entry), (.null, 0)]).IsComplete := by
      simp [Instr.IsComplete]
    have hext₂ := (emit_extends hv rfl).trans (h₂.extends hphi₁ hincomplete)
    have hloc₂ : ∀ p, Valid p → Local p q → p.dataSize ≤ phi → Local p q₂ := fun p hp hloc hle =>
      h₂.local hphi₁ hincomplete hp (hloc.trans (emit_local hv rfl)) hle
    have hs₂ : q₂.dataSize = q.dataSize + 12 := h₂.size.trans h₁.size
    have hb₂ : ∀ b, q₂.blockAt b = if b = q.currentBlkIdx then q.blockAt b ++ [q.dataSize]
        else q.blockAt b := fun b => by
      rw [← h₁.blockAt, IRProgram.blockAt, IRProgram.blockAt, h₂.blocks]
    have hl₂ : q₂.blocks.length = q.blocks.length := by rw [h₂.blocks, h₁.length]
    have h₃ := emit_appended h₂.valid (.branch header)
    have hi₃ : ∀ off, (q₂.emit (.branch header)).2.instrAt off =
        if off = q.dataSize + 12 then some (.branch header)
        else if off = phi then some (.phi .int64 [(zero, entry), (.instr q.dataSize, q.currentBlkIdx)])
        else if off = q.dataSize then some next else q.instrAt off := fun off => by
      rw [h₃.instrAt, hs₂, h₂.instrAt, h₁.instrAt]
    have hl₃ := h₃.length.trans hl₂
    refine ⟨setBlock_valid h₃.valid (by omega), ?_, fun p hp hloc hle hlb => ?_, rfl, hl₃,
      h₃.size.trans (congrArg (· + 8) hs₂), fun b => (h₃.blockAt b).trans ?_, ?_, ?_, ?_, ?_,
      h₃.cache.trans (h₂.cache.trans h₁.cache)⟩
    · exact (hext₂.trans (emit_extends h₂.valid rfl)).trans (setBlock_extends _)
    · have hloc₃ := emit_local h₂.valid (i := .branch header) rfl
      exact ((hloc₂ p hp hloc hle).trans hloc₃).setBlock (by omega)
    · rw [hb₂, hs₂, h₂.current]
      change (if b = q.currentBlkIdx then _ else _) = _
      split_ifs
      · rw [List.append_assoc]
        rfl
      · rfl
    · refine (hi₃ phi).trans ?_
      rw [if_neg (by omega), if_pos rfl]
    · refine (hi₃ q.dataSize).trans ?_
      rw [if_neg (by omega), if_neg (by omega), if_pos rfl]
    · refine (hi₃ (q.dataSize + 12)).trans ?_
      rw [if_pos rfl]
    · intro off hoff hne
      refine (hi₃ off).trans ?_
      rw [if_neg (by omega), if_neg hne, if_neg (by omega)]

/-- The blocks around the body of a loop. -/
structure LoopBuilt (zero one : IRValueRef) (p q r : IRProgram) : Prop extends
    LoopClosed p.blocks.length p.loopIndex zero one p.currentBlkIdx q r where
  behind : p.blocks.length + 2 < q.blocks.length
  latch : q.currentBlkIdx = p.blocks.length + 1 ∨ p.blocks.length + 3 ≤ q.currentBlkIdx
  opened : p.dataSize + 60 ≤ q.dataSize
  entryAt : r.blockAt p.currentBlkIdx = p.blockAt p.currentBlkIdx ++ [p.dataSize]
  headerAt : r.blockAt p.blocks.length = [p.loopIndex, p.dataSize + 32, p.dataSize + 44]
  exitAt : r.blockAt (p.blocks.length + 2) = []

lemma loopBuilt_of_close {q r : IRProgram} {name : String} {zero bound one : IRValueRef}
    (hv : Valid p) (hl : Local (p.openLoop name zero bound) q) (hvq : Valid q)
    (hclose : q.closeLoop p.blocks.length p.loopIndex one = some r) :
    LoopBuilt zero one p q r := by
  have hopen := openLoop_spec hv name zero bound
  have hb := hv.blkIdx
  have hlen := hopen.length
  have hblocks := hl.blocks
  have hcur := hl.current
  have hocur := hopen.current
  have hsize := hl.size
  have hosize := hopen.size
  have hbehind : p.blocks.length + 2 < q.blocks.length := by omega
  obtain ⟨r', hr', hcl⟩ := closeLoop_spec hvq (hl.allRecords _ _ hopen.phi) hbehind one
  rw [hclose] at hr'
  cases hr'
  have hat : ∀ b < p.blocks.length + 3, b ≠ p.blocks.length + 1 →
      r.blockAt b = (p.openLoop name zero bound).blockAt b := fun b hlt hne => by
    rw [hcl.blockAt, if_neg (by omega), hl.others b (by omega) (by omega)]
  refine ⟨hcl, hbehind, by omega, by omega, ?_, ?_, ?_⟩
  · rw [hat _ (by omega) (by omega), hopen.blockAt, if_pos rfl]
  · rw [hat _ (by omega) (by omega), hopen.blockAt, if_neg (by omega), if_pos rfl]
  · rw [hat _ (by omega) (by omega), hopen.blockAt, if_neg (by omega), if_neg (by omega),
      blockAt_of_length_le (by omega)]

end

end Proofs

/-! ### Derivations -/

namespace Instr

/-- The instruction has a result that can be an operand. -/
def definesReg : Instr → Bool
  | branch _ | condBranch _ _ _ | ret _ => false
  | binary op _ _ _ => op != .store
  | call ty _ _ => ty != .void
  | _ => true

/-- The result is 0 or 1. -/
def isBoolean : Instr → Bool
  | constBool _ => true
  | binary op _ _ _ =>
    match op with
    | .cmpEq | .cmpNe | .cmpLt | .cmpGt | .cmpLe | .cmpGe | .lAnd | .lOr => true
    | _ => false
  | _ => false

end Instr

namespace Proofs

def Available (p : IRProgram) (ref : IRValueRef) : Prop :=
  ∃ off i, ref = .instr off ∧ p.instrAt off = some i ∧ i.definesReg = true

def IsBoolRef (p : IRProgram) (ref : IRValueRef) : Prop :=
  ∃ off i, ref = .instr off ∧ p.instrAt off = some i ∧ i.isBoolean = true

/-- What the back end can translate: logical connectives need operands that are 0 or 1. -/
def Lowerable (p : IRProgram) : Instr → Prop
  | .constInt _ _ | .constBool _ | .rotateRight _ _ | .call _ _ _ => True
  | .unary op _ _ => op = .zExt
  | .binary op _ a b =>
    match op with
    | .lAnd | .lOr => IsBoolRef p a ∧ IsBoolRef p b
    | .add | .sub | .mul | .xor | .crc32 | .zExt
    | .cmpEq | .cmpNe | .cmpLt | .cmpGt | .cmpLe | .cmpGe => True
    | _ => False
  | _ => False

/-- `strict` is the assumption under which only lowerable instructions are emitted. -/
inductive Emits (strict : Prop) : IRProgram → IRProgram → Prop
  | refl (p : IRProgram) : Emits strict p p
  | trans {p q r : IRProgram} : Emits strict p q → Emits strict q r → Emits strict p r
  | const (p : IRProgram) (v : Word) (t : IRType) : Emits strict p (p.addConstInt v t).2
  | plain {p : IRProgram} {i : Instr} : i.isPhi = false → i.isTerminator = false → Fresh p →
      (∀ r ∈ i.uses, Available p r) → (strict → Lowerable p i) → Emits strict p (p.emit i).2
  | ifThen {p q : IRProgram} {cond : IRValueRef} : Fresh p → Available p cond →
      Emits strict (p.openIf cond) q → Emits strict p (q.closeIf (p.blocks.length + 2))
  | loop {p q r : IRProgram} {name : String} {zeroOff : Nat} {bound one : IRValueRef} :
      p.constIntCache.lookup (constKey 0 .int64) = some zeroOff →
      Available p bound → Available p one →
      Emits strict (p.openLoop name (.instr zeroOff) bound) q →
      q.closeLoop p.blocks.length p.loopIndex one = some r → Emits strict p r

/-- Every derivation keeps to the current block and new ones. -/
theorem Emits.grows {strict : Prop} {p q : IRProgram} (h : Emits strict p q) (hv : Valid p)
    (ho : Open p) : Local p q ∧ Valid q ∧ Open q := by
  induction h with
  | refl p => exact ⟨.refl p, hv, ho⟩
  | trans _ _ ih ih' =>
    obtain ⟨hl, hv', ho'⟩ := ih hv ho
    obtain ⟨hl', hv'', ho''⟩ := ih' hv' ho'
    exact ⟨hl.trans hl', hv'', ho''⟩
  | const p v t => exact ⟨addConstInt_local hv v t, addConstInt_valid hv v t, addConstInt_open hv ho v t⟩
  | plain hphi hterm =>
    exact ⟨emit_local hv hphi, emit_valid hv _, emit_open hv ho hterm⟩
  | @ifThen p q cond _ _ _ ih =>
    have hopen := openIf_spec hv cond
    obtain ⟨hl, hvq, hoq⟩ := ih hopen.valid hopen.isOpen
    have hb := hl.blocks
    have hlen := hopen.length
    have hlt := hv.blkIdx
    have hcl := closeIf_spec hvq hoq (m := p.blocks.length + 2) (by omega)
    refine ⟨hcl.loc p (hopen.loc.trans hl) (by omega), hcl.valid, ?_⟩
    intro off hoff
    have hcur := hl.current
    rw [hopen.current, hopen.length] at hcur
    rw [hcl.current, hcl.blockAt, if_neg (by omega), hl.others _ (by omega)
      (by rw [hopen.current]; omega), hopen.blockAt, if_neg (by omega),
      blockAt_of_length_le (by omega)] at hoff
    cases hoff
  | @loop p q r name zeroOff bound one _ _ _ _ hclose ih =>
    have hopen := openLoop_spec hv name (.instr zeroOff) bound
    obtain ⟨hl, hvq, hoq⟩ := ih hopen.valid hopen.isOpen
    have hb := hl.blocks
    have hlen := hopen.length
    have hlt := hv.blkIdx
    have hcl := loopBuilt_of_close hv hl hvq hclose
    refine ⟨hcl.loc p hv (hopen.loc.trans hl) (Nat.le_add_right _ _) le_rfl, hcl.valid, ?_⟩
    intro off hoff
    have hcur := hl.current
    rw [hopen.current, hopen.length] at hcur
    rw [hcl.current, hcl.blockAt, if_neg (by omega), hl.others _ (by omega)
      (by rw [hopen.current]; omega), hopen.blockAt, if_neg (by omega), if_neg (by omega),
      blockAt_of_length_le (by omega)] at hoff
    cases hoff

end Proofs

end TidyTuples
