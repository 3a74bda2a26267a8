import TidyTuples.Codegen.Context
import Mathlib.Data.Nat.Basic
import Mathlib.Order.Nat

/-!
# What the IR builders keep

`Extends p q` says that `q` was built from `p`: blocks only grow at their end, PHIs are added to
no block that exists already, and a record stays as it is once no operand of it is a placeholder.
-/

namespace TidyTuples

/-- No operand is the placeholder of a PHI that is still to be patched. -/
def Instr.IsComplete : Instr → Prop
  | phi _ entries => ∀ entry ∈ entries, entry.1 ≠ .null
  | _ => True

lemma Instr.isComplete_of_not_phi {i : Instr} (h : i.isPhi = false) : i.IsComplete := by
  cases i <;> simp_all [Instr.IsComplete, Instr.isPhi]

namespace Proofs

structure Valid (p : IRProgram) : Prop where
  offsets : ∀ record ∈ p.instrData, record.1 < p.dataSize
  fnIdx : p.currentFnIdx < p.functions.length
  blkIdx : p.currentBlkIdx < p.blocks.length
  blockOffsets : ∀ b, ∀ off ∈ p.blockAt b, ∃ i, p.instrAt off = some i
  cache : ∀ key off, p.constIntCache.lookup key = some off →
    ∃ t v, p.instrAt off = some (.constInt t v)
  requests : ∀ q ∈ p.constRequests, ∃ t v, p.instrAt q.offset = some (.constInt t v)

structure Extends (p q : IRProgram) : Prop where
  fnIdx : q.currentFnIdx = p.currentFnIdx
  blocks : p.blocks.length ≤ q.blocks.length
  prefixes : ∀ b, p.blockAt b <+: q.blockAt b
  records : ∀ off i, p.instrAt off = some i → i.IsComplete → q.instrAt off = some i
  size : p.dataSize ≤ q.dataSize
  requests : p.constRequests ⊆ q.constRequests
  addedOffsets : ∀ b, ∀ off ∈ q.blockAt b, off ∉ p.blockAt b → p.dataSize ≤ off
  addedPhis : ∀ b < p.blocks.length, ∀ off ∈ q.blockAt b, off ∉ p.blockAt b →
    ∃ i, q.instrAt off = some i ∧ i.isPhi = false
  cache : ∀ key off, p.constIntCache.lookup key = some off → q.constIntCache.lookup key = some off

lemma Extends.refl (p : IRProgram) : Extends p p where
  fnIdx := rfl
  blocks := le_rfl
  prefixes _ := List.prefix_rfl
  records _ _ h _ := h
  size := le_rfl
  requests := List.Subset.refl _
  addedOffsets _ _ h h' := absurd h h'
  addedPhis _ _ _ h h' := absurd h h'
  cache _ _ h := h

lemma Extends.trans {p q r : IRProgram} (h : Extends p q) (h' : Extends q r) : Extends p r where
  fnIdx := h'.fnIdx.trans h.fnIdx
  blocks := h.blocks.trans h'.blocks
  prefixes b := (h.prefixes b).trans (h'.prefixes b)
  records off i hi hc := h'.records off i (h.records off i hi hc) hc
  size := h.size.trans h'.size
  requests _ hq := h'.requests (h.requests hq)
  addedOffsets b off hoff hnot := by
    by_cases hq : off ∈ q.blockAt b
    · exact h.addedOffsets b off hq hnot
    · exact h.size.trans (h'.addedOffsets b off hoff hq)
  addedPhis b hb off hoff hnot := by
    by_cases hq : off ∈ q.blockAt b
    · obtain ⟨i, hi, hphi⟩ := h.addedPhis b hb off hq hnot
      exact ⟨i, h'.records off i hi (Instr.isComplete_of_not_phi hphi), hphi⟩
    · exact h'.addedPhis b (hb.trans_le h.blocks) off hoff hq
  cache key off hk := h'.cache key off (h.cache key off hk)

def PhiFree (q : IRProgram) (offsets : List Nat) : Prop :=
  ∀ off ∈ offsets, ∃ i, q.instrAt off = some i ∧ i.isPhi = false

/-- What is added to a block without PHIs brings none. -/
lemma Extends.phiFree {p q : IRProgram} (h : Extends p q) {b : Nat} (hb : b < p.blocks.length)
    (hp : PhiFree p (p.blockAt b)) : PhiFree q (q.blockAt b) := by
  intro off hoff
  by_cases hold : off ∈ p.blockAt b
  · obtain ⟨i, hi, hphi⟩ := hp off hold
    exact ⟨i, h.records off i hi (Instr.isComplete_of_not_phi hphi), hphi⟩
  · exact h.addedPhis b hb off hoff hold

lemma phiFree_nil (q : IRProgram) : PhiFree q [] := by simp [PhiFree]

/-- What code generated at the insertion point of `p` changes: that block and new ones. -/
structure Local (p q : IRProgram) : Prop extends Extends p q where
  current : q.currentBlkIdx = p.currentBlkIdx ∨ p.blocks.length ≤ q.currentBlkIdx
  others : ∀ b < p.blocks.length, b ≠ p.currentBlkIdx → q.blockAt b = p.blockAt b
  allRecords : ∀ off i, p.instrAt off = some i → q.instrAt off = some i

lemma Local.refl (p : IRProgram) : Local p p :=
  ⟨.refl p, .inl rfl, fun _ _ _ => rfl, fun _ _ h => h⟩

lemma Local.trans {p q r : IRProgram} (h : Local p q) (h' : Local q r) : Local p r where
  toExtends := h.toExtends.trans h'.toExtends
  current := by
    have hb := h.blocks
    rcases h'.current with hc | hc
    · rw [hc]
      exact h.current
    · exact .inr (by omega)
  others b hb hne := by
    have hb' := h.blocks
    have hcur := h.current
    rw [h'.others b (by omega) (by omega), h.others b hb hne]
  allRecords off i hi := h'.allRecords off i (h.allRecords off i hi)

/-- The insertion point may move to a block that is new. -/
lemma Local.setBlock {p q : IRProgram} (h : Local p q) {b : Nat} (hb : p.blocks.length ≤ b) :
    Local p (q.setInsertionPoint q.currentFnIdx b) where
  fnIdx := h.fnIdx
  blocks := h.blocks
  prefixes := h.prefixes
  records := h.records
  size := h.size
  requests := h.requests
  addedOffsets := h.addedOffsets
  addedPhis := h.addedPhis
  cache := h.cache
  current := .inr hb
  others := h.others
  allRecords := h.allRecords

/-- No instruction of the current block ends it. -/
def Open (p : IRProgram) : Prop :=
  ∀ off ∈ p.blockAt p.currentBlkIdx, ∀ i, p.instrAt off = some i → i.isTerminator = false

/-! ### The parts of a program after one builder call -/

section

variable {p : IRProgram}

lemma Valid.instrAt_lt (h : Valid p) {off : Nat} {i : Instr} (hi : p.instrAt off = some i) :
    off < p.dataSize := by
  have hmem : ∃ j, (off, j) ∈ p.instrData := by
    rw [IRProgram.instrAt, List.lookup_eq_some_iff] at hi
    obtain ⟨l₁, l₂, heq, -⟩ := hi
    exact ⟨i, heq ▸ by simp⟩
  obtain ⟨j, hj⟩ := hmem
  exact h.offsets (off, j) hj

lemma Valid.offset_lt (h : Valid p) {b off : Nat} (hoff : off ∈ p.blockAt b) : off < p.dataSize := by
  obtain ⟨_, hi⟩ := h.blockOffsets b off hoff
  exact h.instrAt_lt hi

lemma modifyBlocks_blocks (h : p.currentFnIdx < p.functions.length)
    (f : List BasicBlock → List BasicBlock) : (p.modifyBlocks f).blocks = f p.blocks := by
  simp [IRProgram.modifyBlocks, IRProgram.blocks, List.getElem?_eq_getElem h]

lemma emit_blocks (h : p.currentFnIdx < p.functions.length) (i : Instr) :
    (p.emit i).2.blocks = p.blocks.modify p.currentBlkIdx fun blk =>
      { blk with instructions := blk.instructions ++ [p.dataSize] } :=
  modifyBlocks_blocks h _

lemma emit_length (h : p.currentFnIdx < p.functions.length) (i : Instr) :
    (p.emit i).2.blocks.length = p.blocks.length := by
  rw [emit_blocks h, List.length_modify]

@[simp] lemma emit_ref (i : Instr) : (p.emit i).1 = .instr p.dataSize := rfl

@[simp] lemma emit_currentBlkIdx (i : Instr) : (p.emit i).2.currentBlkIdx = p.currentBlkIdx := rfl

@[simp] lemma emit_currentFnIdx (i : Instr) : (p.emit i).2.currentFnIdx = p.currentFnIdx := rfl

@[simp] lemma emit_dataSize (i : Instr) : (p.emit i).2.dataSize = p.dataSize + i.byteSize := rfl

@[simp] lemma emit_constRequests (i : Instr) : (p.emit i).2.constRequests = p.constRequests := rfl

@[simp] lemma emit_constIntCache (i : Instr) : (p.emit i).2.constIntCache = p.constIntCache := rfl

lemma emit_instrAt (i : Instr) (off : Nat) :
    (p.emit i).2.instrAt off = if off = p.dataSize then some i else p.instrAt off := by
  simp only [IRProgram.instrAt, IRProgram.emit, List.lookup_cons]
  by_cases h : off = p.dataSize
  · simp [h]
  · rw [if_neg h, beq_eq_false_iff_ne.mpr h]

lemma emit_self (i : Instr) : (p.emit i).2.instrAt p.dataSize = some i :=
  (emit_instrAt i _).trans (if_pos rfl)

lemma emit_instrAt_of_some (hv : Valid p) (i : Instr) {off : Nat} {j : Instr}
    (hj : p.instrAt off = some j) : (p.emit i).2.instrAt off = some j := by
  have hlt := hv.instrAt_lt hj
  rw [emit_instrAt, if_neg (by omega), hj]

lemma emit_blockAt (hv : Valid p) (i : Instr) (b : Nat) : (p.emit i).2.blockAt b =
    if b = p.currentBlkIdx then p.blockAt b ++ [p.dataSize] else p.blockAt b := by
  have hb := hv.blkIdx
  simp only [IRProgram.blockAt, emit_blocks hv.fnIdx, List.getElem?_modify]
  by_cases h : b = p.currentBlkIdx
  · subst h
    simp [List.getElem?_eq_getElem hb]
  · rw [if_neg h]
    simp only [if_neg (Ne.symm h), Option.map_eq_map, Option.map_id']

lemma emit_valid (hv : Valid p) (i : Instr) : Valid (p.emit i).2 where
  offsets := by
    intro record hrecord
    have hpos := i.byteSize_pos
    rw [emit_dataSize]
    rcases List.mem_cons.mp hrecord with rfl | hold
    · simpa using hpos
    · have := hv.offsets record hold
      omega
  fnIdx := by simpa [IRProgram.emit, IRProgram.modifyBlocks] using hv.fnIdx
  blkIdx := by
    rw [emit_length hv.fnIdx]
    exact hv.blkIdx
  blockOffsets := by
    intro b off hoff
    rw [emit_blockAt hv] at hoff
    by_cases hsize : off = p.dataSize
    · exact ⟨i, by rw [emit_instrAt, if_pos hsize]⟩
    · have hold : off ∈ p.blockAt b := by
        split_ifs at hoff
        · simpa [hsize] using hoff
        · exact hoff
      obtain ⟨j, hj⟩ := hv.blockOffsets b off hold
      exact ⟨j, emit_instrAt_of_some hv i hj⟩
  cache := by
    intro key off hkey
    obtain ⟨t, v, htv⟩ := hv.cache key off hkey
    exact ⟨t, v, emit_instrAt_of_some hv i htv⟩
  requests := by
    intro q hq
    obtain ⟨t, v, htv⟩ := hv.requests q hq
    exact ⟨t, v, emit_instrAt_of_some hv i htv⟩

/-- What emitting an instruction does to the rest of the program. -/
structure Appended (i : Instr) (p q : IRProgram) : Prop where
  valid : Valid q
  current : q.currentBlkIdx = p.currentBlkIdx
  length : q.blocks.length = p.blocks.length
  size : q.dataSize = p.dataSize + i.byteSize
  blockAt : ∀ b, q.blockAt b = if b = p.currentBlkIdx then p.blockAt b ++ [p.dataSize]
    else p.blockAt b
  instrAt : ∀ off, q.instrAt off = if off = p.dataSize then some i else p.instrAt off
  cache : q.constIntCache = p.constIntCache

lemma emit_appended (hv : Valid p) (i : Instr) : Appended i p (p.emit i).2 where
  valid := emit_valid hv i
  current := rfl
  length := emit_length hv.fnIdx i
  size := rfl
  blockAt := emit_blockAt hv i
  instrAt := emit_instrAt i
  cache := rfl

/-- Instructions other than PHIs may be added to any block. -/
lemma emit_extends (hv : Valid p) {i : Instr} (hi : i.isPhi = false) : Extends p (p.emit i).2 where
  fnIdx := rfl
  blocks := (emit_length hv.fnIdx i).ge
  prefixes b := by
    rw [emit_blockAt hv]
    split_ifs
    · exact List.prefix_append _ _
    · exact List.prefix_rfl
  records _ _ hj _ := emit_instrAt_of_some hv i hj
  size := by simp
  requests := List.Subset.refl _
  addedOffsets b off hoff hnot := by
    rw [emit_blockAt hv] at hoff
    split_ifs at hoff
    · rcases List.mem_append.mp hoff with hold | hnew
      · exact absurd hold hnot
      · exact (List.mem_singleton.mp hnew).ge
    · exact absurd hoff hnot
  addedPhis b _ off hoff hnot := by
    rw [emit_blockAt hv] at hoff
    have hoff' : off = p.dataSize := by
      split_ifs at hoff
      · rcases List.mem_append.mp hoff with hold | hnew
        · exact absurd hold hnot
        · exact List.mem_singleton.mp hnew
      · exact absurd hoff hnot
    exact ⟨i, by rw [emit_instrAt, if_pos hoff'], hi⟩
  cache _ _ h := h

lemma emit_local (hv : Valid p) {i : Instr} (hi : i.isPhi = false) : Local p (p.emit i).2 where
  toExtends := emit_extends hv hi
  current := .inl rfl
  others b _ hne := by rw [emit_blockAt hv, if_neg hne]
  allRecords _ _ hj := emit_instrAt_of_some hv i hj

/-- Anything may be emitted into a block that is new. -/
lemma Local.emit_new {p q : IRProgram} (h : Local p q) (hv : Valid q)
    (hcur : p.blocks.length ≤ q.currentBlkIdx) (i : Instr) : Local p (q.emit i).2 where
  fnIdx := h.fnIdx
  blocks := by
    rw [emit_length hv.fnIdx]
    exact h.blocks
  prefixes b := by
    rw [emit_blockAt hv]
    split_ifs
    · exact (h.prefixes b).trans (List.prefix_append _ _)
    · exact h.prefixes b
  records off j hj hc := emit_instrAt_of_some hv i (h.records off j hj hc)
  size := by
    have := h.size
    rw [emit_dataSize]
    omega
  requests := h.requests
  addedOffsets b off hoff hnot := by
    rw [emit_blockAt hv] at hoff
    split_ifs at hoff
    · rcases List.mem_append.mp hoff with hold | hnew
      · exact h.addedOffsets b off hold hnot
      · rw [List.mem_singleton.mp hnew]
        exact h.size
    · exact h.addedOffsets b off hoff hnot
  addedPhis b hb off hoff hnot := by
    rw [emit_blockAt hv, if_neg (by omega)] at hoff
    obtain ⟨j, hj, hphi⟩ := h.addedPhis b hb off hoff hnot
    exact ⟨j, emit_instrAt_of_some hv i hj, hphi⟩
  cache := h.cache
  current := .inr hcur
  others b hb hne := by rw [emit_blockAt hv, if_neg (by omega), h.others b hb hne]
  allRecords off j hj := emit_instrAt_of_some hv i (h.allRecords off j hj)

lemma emit_open (hv : Valid p) (ho : Open p) {i : Instr} (hi : i.isTerminator = false) :
    Open (p.emit i).2 := by
  intro off hoff j hj
  rw [emit_currentBlkIdx, emit_blockAt hv, if_pos rfl] at hoff
  rw [emit_instrAt] at hj
  split_ifs at hj with hsize
  · cases hj
    exact hi
  · refine ho off ?_ j hj
    simpa [hsize] using hoff

/-! ### Constants -/

@[simp] lemma addConstInt_currentBlkIdx (v : Word) (t : IRType) :
    (p.addConstInt v t).2.currentBlkIdx = p.currentBlkIdx := by
  simp only [IRProgram.addConstInt]
  split <;> rfl

/-- The offset `addConstInt` answers with. -/
def constOffset (p : IRProgram) (v : Word) (t : IRType) : Nat :=
  (p.constIntCache.lookup (IRProgram.constKey v t)).getD p.dataSize

lemma addConstInt_ref (v : Word) (t : IRType) :
    (p.addConstInt v t).1 = .instr (constOffset p v t) := by
  simp only [IRProgram.addConstInt, constOffset]
  split <;> rename_i h <;> simp [h]

lemma addConstInt_request (v : Word) (t : IRType) :
    ⟨t, v, constOffset p v t⟩ ∈ (p.addConstInt v t).2.constRequests := by
  simp only [IRProgram.addConstInt, constOffset]
  split <;> rename_i h <;> simp [h]

lemma addConstInt_valid (hv : Valid p) (v : Word) (t : IRType) : Valid (p.addConstInt v t).2 := by
  simp only [IRProgram.addConstInt]
  split
  · rename_i off hoff
    refine ⟨hv.offsets, hv.fnIdx, hv.blkIdx, hv.blockOffsets, hv.cache, fun q hq => ?_⟩
    rcases List.mem_cons.mp hq with rfl | hold
    · exact hv.cache _ _ hoff
    · exact hv.requests q hold
  · have he := emit_valid hv (.constInt t v)
    have hself := emit_self (p := p) (.constInt t v)
    refine ⟨he.offsets, he.fnIdx, he.blkIdx, he.blockOffsets, fun key off hkey => ?_,
      fun q hq => ?_⟩
    · simp only [List.lookup_cons] at hkey
      split at hkey
      · cases hkey
        exact ⟨t, v, hself⟩
      · exact he.cache key off hkey
    · rcases List.mem_cons.mp hq with rfl | hold
      · exact ⟨t, v, hself⟩
      · exact he.requests q hold

lemma addConstInt_extends (hv : Valid p) (v : Word) (t : IRType) :
    Extends p (p.addConstInt v t).2 := by
  simp only [IRProgram.addConstInt]
  split
  · have h := Extends.refl p
    exact ⟨h.fnIdx, h.blocks, h.prefixes, h.records, h.size, List.subset_cons_self _ _,
      h.addedOffsets, h.addedPhis, h.cache⟩
  · rename_i hnone
    have h := emit_extends hv (i := .constInt t v) rfl
    refine ⟨h.fnIdx, h.blocks, h.prefixes, h.records, h.size, List.subset_cons_self _ _,
      h.addedOffsets, h.addedPhis, fun key off hkey => ?_⟩
    simp only [List.lookup_cons]
    split
    · rename_i heq
      rw [beq_iff_eq] at heq
      subst heq
      rw [hnone] at hkey
      cases hkey
    · exact hkey

lemma addConstInt_local (hv : Valid p) (v : Word) (t : IRType) :
    Local p (p.addConstInt v t).2 where
  toExtends := addConstInt_extends hv v t
  current := .inl (addConstInt_currentBlkIdx v t)
  others b hb hne := by
    simp only [IRProgram.addConstInt]
    split
    · rfl
    · exact (emit_local hv (i := .constInt t v) rfl).others b hb hne
  allRecords off i hi := by
    simp only [IRProgram.addConstInt]
    split
    · exact hi
    · exact emit_instrAt_of_some hv _ hi

lemma addConstInt_open (hv : Valid p) (ho : Open p) (v : Word) (t : IRType) :
    Open (p.addConstInt v t).2 := by
  simp only [IRProgram.addConstInt]
  split
  · exact ho
  · exact emit_open hv ho (i := .constInt t v) rfl

/-- Afterwards the cache knows the constant. -/
lemma addConstInt_length (h : p.currentFnIdx < p.functions.length) (v : Word) (t : IRType) :
    (p.addConstInt v t).2.blocks.length = p.blocks.length := by
  simp only [IRProgram.addConstInt]
  split
  · rfl
  · exact emit_length h (.constInt t v)

lemma addConstInt_cache (v : Word) (t : IRType) :
    (p.addConstInt v t).2.constIntCache.lookup (IRProgram.constKey v t) =
      some (constOffset p v t) := by
  simp only [IRProgram.addConstInt, constOffset]
  split
  · rename_i h
    simp [h]
  · rename_i h
    simp [h]

/-! ### Blocks -/

lemma addBlock_blocks (h : p.currentFnIdx < p.functions.length) (name : String) :
    (p.addBlock name).2.blocks = p.blocks ++ [⟨name, []⟩] :=
  modifyBlocks_blocks h _

lemma addBlock_blockAt (h : p.currentFnIdx < p.functions.length) (name : String) (b : Nat) :
    (p.addBlock name).2.blockAt b = p.blockAt b := by
  simp only [IRProgram.blockAt, addBlock_blocks h]
  rcases lt_trichotomy b p.blocks.length with hlt | heq | hgt
  · rw [List.getElem?_append_left hlt]
  · subst heq
    simp
  · rw [List.getElem?_eq_none (by simp; omega), List.getElem?_eq_none (by omega)]

lemma blockAt_of_length_le {b : Nat} (h : p.blocks.length ≤ b) : p.blockAt b = [] := by
  simp only [IRProgram.blockAt, List.getElem?_eq_none h]

lemma addBlock_valid (hv : Valid p) (name : String) : Valid (p.addBlock name).2 where
  offsets := hv.offsets
  fnIdx := by simpa [IRProgram.addBlock, IRProgram.modifyBlocks] using hv.fnIdx
  blkIdx := by
    rw [addBlock_blocks hv.fnIdx, List.length_append]
    exact Nat.lt_add_right _ hv.blkIdx
  blockOffsets b off hoff := hv.blockOffsets b off (addBlock_blockAt hv.fnIdx name b ▸ hoff)
  cache := hv.cache
  requests := hv.requests

lemma addBlock_extends (hv : Valid p) (name : String) : Extends p (p.addBlock name).2 where
  fnIdx := rfl
  blocks := by simp [addBlock_blocks hv.fnIdx]
  prefixes b := addBlock_blockAt hv.fnIdx name b ▸ List.prefix_rfl
  records _ _ h _ := h
  size := le_rfl
  requests := List.Subset.refl _
  addedOffsets b off hoff hnot := absurd (addBlock_blockAt hv.fnIdx name b ▸ hoff) hnot
  addedPhis b _ off hoff hnot := absurd (addBlock_blockAt hv.fnIdx name b ▸ hoff) hnot
  cache _ _ h := h

lemma setBlock_valid (hv : Valid p) {b : Nat} (hb : b < p.blocks.length) :
    Valid (p.setInsertionPoint p.currentFnIdx b) :=
  ⟨hv.offsets, hv.fnIdx, hb, hv.blockOffsets, hv.cache, hv.requests⟩

lemma setBlock_extends (b : Nat) : Extends p (p.setInsertionPoint p.currentFnIdx b) :=
  have h := Extends.refl p
  ⟨h.fnIdx, h.blocks, h.prefixes, h.records, h.size, h.requests, h.addedOffsets, h.addedPhis,
    h.cache⟩

end

end Proofs

end TidyTuples
