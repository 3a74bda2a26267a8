import TidyTuples.Ir.Builder
import TidyTuples.Ir.DeadCode
import TidyTuples.Proofs.Emission

/-!
# What holds of every program the builders make

A builder call either leaves the records alone, appends one, asks for a constant or patches a PHI.
The cache of constants answers with what the first request under a key asked for.
-/

namespace TidyTuples

namespace Instr

def isConstInt : Instr → Bool
  | constInt _ _ => true
  | _ => false

/-- The operands a record has room for are those its opcode reads. -/
def Fits : Instr → Prop
  | binary op _ _ _ => (op.isBinary || op.isUnary) = true
  | unary op _ _ => op.isUnary = true
  | _ => True

/-- The operands of a record, by the layout its opcode stands for. -/
def operands : Instr → List IRValueRef
  | constInt _ _ => []
  | constBool _ => []
  | binary op _ a b => if op.isUnary then [a] else [a, b]
  | unary _ _ a => [a]
  | rotateRight a _ => [a]
  | gep base _ => [base]
  | branch _ => []
  | condBranch cond _ _ => [cond]
  | ret value => [value]
  | phi _ entries => entries.map Prod.fst
  | call _ _ args => args

/-- The numbers in a record that have 32 bits. -/
def numbers : Instr → List Nat
  | rotateRight _ shift => [shift]
  | branch targetBlock => [targetBlock]
  | condBranch _ trueBlock falseBlock => [trueBlock, falseBlock]
  | phi _ entries => entries.map Prod.snd
  | _ => []

lemma uses_eq_operands {i : Instr} (h : i.Fits) : i.uses = i.operands := by
  cases i with
  | binary op t a b =>
    unfold uses operands
    unfold Fits at h
    cases op <;> first | rfl | cases h
  | unary op t a =>
    have hop : op.isUnary = true := h
    simp only [uses, operands, hop, if_true]
  | _ => rfl

end Instr

namespace BuilderCall

/-- The references that a call hands over. -/
def operands : BuilderCall → List IRValueRef
  | addBinary _ _ a b => [a, b]
  | addUnary _ _ a => [a]
  | addRotateRight val _ => [val]
  | addGEP base _ => [base]
  | addLoad _ ptr => [ptr]
  | addStore ptr value => [ptr, value]
  | addCondBranch cond _ _ => [cond]
  | addReturn value => [value]
  | addPhi _ incoming => incoming.map Prod.fst
  | addCall _ _ args => args
  | patchPhiEntry _ _ newValue _ => [newValue]
  | _ => []

/-- The numbers that a call hands over as `uint32_t`. -/
def numbers : BuilderCall → List Nat
  | addRotateRight _ shift => [shift]
  | addBranch targetBlock => [targetBlock]
  | addCondBranch _ trueBlock falseBlock => [trueBlock, falseBlock]
  | addPhi _ incoming => incoming.map Prod.snd
  | patchPhiEntry _ _ _ fromBlock => [fromBlock]
  | _ => []

/-- The operands and the numbers of a record come from the call. -/
def Supplies (c : BuilderCall) (i : Instr) : Prop :=
  (∀ x ∈ i.operands, x ∈ c.operands) ∧ ∀ n ∈ i.numbers, n ∈ c.numbers

end BuilderCall

namespace IRProgram

/-- The first `addConstInt` call with this key. -/
def firstRequest (p : IRProgram) (key : Word) : Option ConstRequest :=
  p.constRequests.reverse.find? fun r => constKey r.value r.type = key

/-- The instruction stands in block `b` of function `f`. -/
def InBlock (p : IRProgram) (off f b : Nat) : Prop :=
  ∃ fn blk, p.functions[f]? = some fn ∧ fn.blocks[b]? = some blk ∧ off ∈ blk.instructions

end IRProgram

namespace Proofs

open IRProgram

section

variable {p q : IRProgram}

/-! ### The kinds of calls -/

/-- The records, their places and the constants are as they were. -/
structure Keeps (p q : IRProgram) : Prop where
  instrData : q.instrData = p.instrData
  cache : q.constIntCache = p.constIntCache
  requests : q.constRequests = p.constRequests
  inBlock : ∀ off f b, q.InBlock off f b ↔ p.InBlock off f b

lemma emitted_eq {r : IRValueRef × IRProgram} (h : p.emitted r = some q) : q = r.2 := by
  unfold IRProgram.emitted at h
  split_ifs at h
  exact (Option.some.inj h).symm

/-- A record was emitted into a block. -/
lemma emitted_point {r : IRValueRef × IRProgram} (h : p.emitted r = some q) :
    q.dataSize = p.dataSize ∨ p.HasInsertionPoint := by
  have heq := emitted_eq h
  unfold IRProgram.emitted at h
  split_ifs at h with hpoint
  rwa [heq]

lemma emit_point {r : IRValueRef × IRProgram} {i : Instr} (h : p.emitted r = some q)
    (hr : r.2 = (p.emit i).2) : q = (p.emit i).2 ∧ p.HasInsertionPoint := by
  have heq := (emitted_eq h).trans hr
  refine ⟨heq, (emitted_point h).resolve_left ?_⟩
  rw [heq]
  exact Nat.ne_of_gt (Nat.lt_add_of_pos_right i.byteSize_pos)

lemma beginFunction_inBlock (name : String) (t : IRType) (params : List (String × IRType))
    (off f b : Nat) : (p.beginFunction name t params).2.InBlock off f b ↔ p.InBlock off f b := by
  unfold IRProgram.InBlock IRProgram.beginFunction
  by_cases hf : f < p.functions.length
  · simp only [List.getElem?_append_left hf]
  · have hnone : p.functions[f]? = none := List.getElem?_eq_none (Nat.not_lt.mp hf)
    simp only [List.getElem?_append_right (Nat.not_lt.mp hf), hnone]
    constructor
    · rintro ⟨fn, blk, hfn, hblk, hoff⟩
      -- the entry block of the new function is empty
      rw [List.getElem?_singleton] at hfn
      split_ifs at hfn
      cases hfn
      rw [List.getElem?_singleton] at hblk
      split_ifs at hblk
      cases hblk
      cases hoff
    · rintro ⟨fn, blk, hfn, -⟩
      cases hfn

/-- An instruction of a program whose blocks are changed by `g`. -/
lemma modifyBlocks_inBlock {g : List BasicBlock → List BasicBlock} {off f b : Nat} :
    (p.modifyBlocks g).InBlock off f b ↔ ∃ fn, p.functions[f]? = some fn ∧
      ∃ blk, (if p.currentFnIdx = f then g fn.blocks else fn.blocks)[b]? = some blk ∧
        off ∈ blk.instructions := by
  unfold IRProgram.InBlock IRProgram.modifyBlocks
  rw [List.getElem?_modify]
  constructor
  · rintro ⟨fn', blk, hfn', hblk, hoff⟩
    obtain ⟨fn, hfn, rfl⟩ := Option.map_eq_some_iff.mp hfn'
    refine ⟨fn, hfn, blk, ?_, hoff⟩
    split_ifs at hblk ⊢ <;> exact hblk
  · rintro ⟨fn, hfn, blk, hblk, hoff⟩
    refine ⟨_, blk, Option.map_eq_some_iff.mpr ⟨fn, hfn, rfl⟩, ?_, hoff⟩
    split_ifs at hblk ⊢ <;> exact hblk

lemma addBlock_inBlock (name : String) (off f b : Nat) :
    (p.addBlock name).2.InBlock off f b ↔ p.InBlock off f b := by
  refine modifyBlocks_inBlock.trans ⟨?_, ?_⟩
  · rintro ⟨fn, hfn, blk, hblk, hoff⟩
    split_ifs at hblk
    · rcases List.mem_append.mp (List.mem_of_getElem? hblk) with hold | hnew
      · by_cases hb : b < fn.blocks.length
        · exact ⟨fn, blk, hfn, by rwa [List.getElem?_append_left hb] at hblk, hoff⟩
        · rw [List.getElem?_append_right (Nat.not_lt.mp hb), List.getElem?_singleton] at hblk
          split_ifs at hblk
          cases hblk
          cases hoff
      · rw [List.mem_singleton.mp hnew] at hoff
        cases hoff
    · exact ⟨fn, blk, hfn, hblk, hoff⟩
  · rintro ⟨fn, blk, hfn, hblk, hoff⟩
    refine ⟨fn, hfn, blk, ?_, hoff⟩
    split_ifs
    · rwa [List.getElem?_append_left (List.getElem?_eq_some_iff.mp hblk).1]
    · exact hblk

lemma emit_inBlock (hpoint : p.HasInsertionPoint) (i : Instr) (off f b : Nat) :
    (p.emit i).2.InBlock off f b ↔ p.InBlock off f b ∨
      off = p.dataSize ∧ f = p.currentFnIdx ∧ b = p.currentBlkIdx := by
  obtain ⟨hfn, hblk⟩ := hpoint
  have hblocks : p.blocks = p.functions[p.currentFnIdx].blocks := by
    unfold IRProgram.blocks
    rw [List.getElem?_eq_getElem hfn]
  rw [hblocks] at hblk
  refine (modifyBlocks_inBlock (g := fun blocks => blocks.modify p.currentBlkIdx fun blk =>
    { blk with instructions := blk.instructions ++ [p.dataSize] })).trans ⟨?_, ?_⟩
  · rintro ⟨fn, hf, blk, hb, hoff⟩
    split_ifs at hb with hcur
    · rw [List.getElem?_modify] at hb
      obtain ⟨blk', hb', rfl⟩ := Option.map_eq_some_iff.mp hb
      split_ifs at hoff with hcur'
      · rcases List.mem_append.mp hoff with hold | hnew
        · exact .inl ⟨fn, blk', hf, hb', hold⟩
        · exact .inr ⟨List.mem_singleton.mp hnew, hcur.symm, hcur'.symm⟩
      · exact .inl ⟨fn, blk', hf, hb', hoff⟩
    · exact .inl ⟨fn, blk, hf, hb, hoff⟩
  · rintro (⟨fn, blk, hf, hb, hoff⟩ | ⟨rfl, rfl, rfl⟩)
    · refine ⟨fn, hf, ?_⟩
      split_ifs
      · refine ⟨_, by rw [List.getElem?_modify, hb]; rfl, ?_⟩
        split_ifs
        · exact List.mem_append_left _ hoff
        · exact hoff
      · exact ⟨blk, hb, hoff⟩
    · refine ⟨_, List.getElem?_eq_getElem hfn, ?_⟩
      rw [if_pos rfl]
      refine ⟨_, by rw [List.getElem?_modify, List.getElem?_eq_getElem hblk]; rfl, ?_⟩
      dsimp only
      rw [if_pos rfl]
      exact List.mem_append_right _ List.mem_cons_self

lemma supplies_of_eq {c : BuilderCall} {i : Instr} (hoperands : i.operands = c.operands)
    (hnumbers : i.numbers = c.numbers) : c.Supplies i :=
  ⟨fun _ hx => hoperands ▸ hx, fun _ hn => hnumbers ▸ hn⟩

/-- What a builder call does to the records. -/
lemma apply_cases {c : BuilderCall} (h : c.apply p = some q) :
    Keeps p q ∨ (∃ i, (q = (p.emit i).2 ∧ p.HasInsertionPoint) ∧ i.isConstInt = false ∧
      i.Fits ∧ c.Supplies i) ∨
    (∃ v t, q = (p.addConstInt v t).2 ∧ (q.dataSize = p.dataSize ∨ p.HasInsertionPoint)) ∨
    ∃ r idx v b, c = .patchPhiEntry r idx v b ∧ p.patchPhiEntry r idx v b = some q := by
  unfold BuilderCall.apply at h
  cases c with
  | beginFunction name t params =>
    cases h
    exact .inl ⟨rfl, rfl, rfl, beginFunction_inBlock name t params⟩
  | addBlock name =>
    dsimp only at h
    split_ifs at h
    cases h
    exact .inl ⟨rfl, rfl, rfl, addBlock_inBlock name⟩
  | setInsertionPoint f b =>
    cases h
    exact .inl ⟨rfl, rfl, rfl, fun _ _ _ => Iff.rfl⟩
  | addConstInt v t => exact .inr (.inr (.inl ⟨v, t, emitted_eq h, emitted_point h⟩))
  | addConstBool v => exact .inr (.inl ⟨_, emit_point h rfl, rfl, trivial, supplies_of_eq rfl rfl⟩)
  | addBinary op t a b =>
    dsimp only at h
    split_ifs at h with hop
    rcases addBinary_cases (p := p) op t a b with ⟨v, hv⟩ | ⟨v, t', hv⟩ | hv
    · have hnone : ∀ {α : Type} {s : List α}, ∀ x ∈ ([] : List α), x ∈ s := fun _ hx => by cases hx
      exact .inr (.inl ⟨.constBool v, emit_point h (by rw [hv]; rfl), rfl, trivial, hnone, hnone⟩)
    · exact .inr (.inr (.inl ⟨v, t', by rw [emitted_eq h, hv], emitted_point h⟩))
    · exact .inr (.inl ⟨.binary op t a b, emit_point h (by rw [hv]), rfl, hop,
        fun x hx => by grind [Instr.operands, BuilderCall.operands], fun _ hx => hx⟩)
  | addUnary op t a =>
    dsimp only at h
    split_ifs at h with hop
    exact .inr (.inl ⟨_, emit_point h rfl, rfl, hop, supplies_of_eq rfl rfl⟩)
  | addRotateRight a n => exact .inr (.inl ⟨_, emit_point h rfl, rfl, trivial, supplies_of_eq rfl rfl⟩)
  | addGEP base off =>
    dsimp only at h
    unfold IRProgram.addGEP at h
    split_ifs at h
    · have hq : q = p := emitted_eq h
      rw [hq]
      exact .inl ⟨rfl, rfl, rfl, fun _ _ _ => Iff.rfl⟩
    · exact .inr (.inl ⟨_, emit_point h rfl, rfl, trivial, supplies_of_eq rfl rfl⟩)
  | addLoad t ptr => exact .inr (.inl ⟨_, emit_point h rfl, rfl, by rfl, supplies_of_eq rfl rfl⟩)
  | addStore ptr v => exact .inr (.inl ⟨_, emit_point h rfl, rfl, by rfl, supplies_of_eq rfl rfl⟩)
  | addBranch b => exact .inr (.inl ⟨_, emit_point h rfl, rfl, trivial, supplies_of_eq rfl rfl⟩)
  | addCondBranch c b b' => exact .inr (.inl ⟨_, emit_point h rfl, rfl, trivial, supplies_of_eq rfl rfl⟩)
  | addReturn v => exact .inr (.inl ⟨_, emit_point h rfl, rfl, trivial, supplies_of_eq rfl rfl⟩)
  | addPhi t incoming => exact .inr (.inl ⟨_, emit_point h rfl, rfl, trivial, supplies_of_eq rfl rfl⟩)
  | addCall t fn args => exact .inr (.inl ⟨_, emit_point h rfl, rfl, trivial, supplies_of_eq rfl rfl⟩)
  | patchPhiEntry r idx v b => exact .inr (.inr (.inr ⟨r, idx, v, b, rfl, h⟩))

/-- What holds of the empty program and is kept by every call holds of every program. -/
theorem build_invariant {I : IRProgram → Prop} (hinit : I {})
    (hstep : ∀ p c q, I p → BuilderCall.apply p c = some q → I q) {calls : List BuilderCall}
    (h : BuilderCall.build calls = some p) : I p := by
  have hrun : ∀ p₀, I p₀ → calls.foldlM BuilderCall.apply p₀ = some p → I p := by
    clear h
    induction calls with
    | nil =>
      intro p₀ h₀ h
      cases h
      exact h₀
    | cons c rest ih =>
      intro p₀ h₀ h
      rw [List.foldlM_cons] at h
      obtain ⟨p₁, h₁, hrest⟩ := Option.bind_eq_some_iff.mp h
      exact ih p₁ (hstep p₀ c p₁ h₀ h₁) hrest
  exact hrun {} hinit h

/-! ### The cache of constants -/

/-- The cache answers with the constant of the first request under the key. -/
structure CacheFaithful (p : IRProgram) : Prop where
  offsets : ∀ record ∈ p.instrData, record.1 < p.dataSize
  lookup : ∀ key, p.constIntCache.lookup key = (p.firstRequest key).map ConstRequest.offset
  record : ∀ key r, p.firstRequest key = some r →
    p.instrAt r.offset = some (.constInt r.type r.value)

lemma instrAt_lt (h : ∀ record ∈ p.instrData, record.1 < p.dataSize) {off : Nat} {i : Instr}
    (hi : p.instrAt off = some i) : off < p.dataSize := by
  rw [IRProgram.instrAt, List.lookup_eq_some_iff] at hi
  obtain ⟨l₁, l₂, heq, -⟩ := hi
  exact h (off, i) (heq ▸ by simp)

lemma emit_offsets (h : ∀ record ∈ p.instrData, record.1 < p.dataSize) (i : Instr) :
    ∀ record ∈ (p.emit i).2.instrData, record.1 < (p.emit i).2.dataSize := by
  intro record hrecord
  have hpos := i.byteSize_pos
  rw [emit_dataSize]
  rcases List.mem_cons.mp hrecord with rfl | hold
  · exact Nat.lt_add_of_pos_right hpos
  · exact Nat.lt_add_right _ (h record hold)

lemma emit_keepsRecord (h : ∀ record ∈ p.instrData, record.1 < p.dataSize) (i : Instr) {off : Nat}
    {j : Instr} (hj : p.instrAt off = some j) : (p.emit i).2.instrAt off = some j := by
  have hlt := instrAt_lt h hj
  rw [emit_instrAt, if_neg (Nat.ne_of_lt hlt), hj]

lemma CacheFaithful.of_keeps (h : CacheFaithful p) (hk : Keeps p q) : CacheFaithful q := by
  obtain ⟨hdata, hcache, hreq, -⟩ := hk
  have hfirst : ∀ key, q.firstRequest key = p.firstRequest key := by
    intro key
    rw [IRProgram.firstRequest, hreq, IRProgram.firstRequest]
  constructor
  · rw [IRProgram.dataSize, hdata]
    exact h.offsets
  · intro key
    rw [hcache, hfirst, h.lookup]
  · intro key r hr
    rw [IRProgram.instrAt, hdata]
    exact h.record key r (by rw [← hfirst, hr])

lemma CacheFaithful.emit (h : CacheFaithful p) (i : Instr) : CacheFaithful (p.emit i).2 where
  offsets := emit_offsets h.offsets i
  lookup key := h.lookup key
  record key r hr := emit_keepsRecord h.offsets i (h.record key r hr)

/-- One more request under a key. -/
lemma firstRequest_cons (r : ConstRequest) (key : Word) (hreq : q.constRequests = r :: p.constRequests) :
    q.firstRequest key = (p.firstRequest key).or
      (if constKey r.value r.type = key then some r else none) := by
  unfold IRProgram.firstRequest
  rw [hreq, List.reverse_cons, List.find?_append]
  congr 1
  by_cases hk : constKey r.value r.type = key
  · rw [List.find?_cons_of_pos (by simpa using hk), if_pos hk]
  · rw [List.find?_cons_of_neg (by simpa using hk), List.find?_nil, if_neg hk]

lemma addConstInt_hit {v : Word} {t : IRType} {off : Nat}
    (h : p.constIntCache.lookup (constKey v t) = some off) : p.addConstInt v t =
      (.instr off, { p with constRequests := ⟨t, v, off⟩ :: p.constRequests }) := by
  simp only [IRProgram.addConstInt, h]

lemma addConstInt_miss {v : Word} {t : IRType}
    (h : p.constIntCache.lookup (constKey v t) = none) : p.addConstInt v t =
      (.instr p.dataSize, { (p.emit (.constInt t v)).2 with
        constIntCache := (constKey v t, p.dataSize) :: p.constIntCache
        constRequests := ⟨t, v, p.dataSize⟩ :: p.constRequests }) := by
  simp only [IRProgram.addConstInt, h]
  rfl

lemma CacheFaithful.addConstInt (h : CacheFaithful p) (v : Word) (t : IRType) :
    CacheFaithful (p.addConstInt v t).2 := by
  cases hl : p.constIntCache.lookup (constKey v t) with
  | some off =>
    obtain ⟨r, hr, hoff⟩ := Option.map_eq_some_iff.mp ((h.lookup _).symm.trans hl)
    let q : IRProgram := { p with constRequests := ⟨t, v, off⟩ :: p.constRequests }
    have hfirst : ∀ key, q.firstRequest key = p.firstRequest key := by
      intro key
      rw [firstRequest_cons (p := p) ⟨t, v, off⟩ key rfl]
      by_cases hk : constKey v t = key
      · rw [← hk, hr, Option.some_or]
      · rw [if_neg hk, Option.or_none]
    rw [addConstInt_hit hl]
    constructor
    · exact h.offsets
    · intro key
      exact (h.lookup key).trans (by rw [← hfirst])
    · intro key r' hr'
      exact h.record key r' ((hfirst key).symm.trans hr')
  | none =>
    have hnone : p.firstRequest (constKey v t) = none := by
      have hmap := (h.lookup _).symm.trans hl
      exact Option.map_eq_none_iff.mp hmap
    let q : IRProgram := { (p.emit (.constInt t v)).2 with
      constIntCache := (constKey v t, p.dataSize) :: p.constIntCache
      constRequests := ⟨t, v, p.dataSize⟩ :: p.constRequests }
    have hfirst : ∀ key, q.firstRequest key = (p.firstRequest key).or
        (if constKey v t = key then some ⟨t, v, p.dataSize⟩ else none) :=
      fun key => firstRequest_cons (p := p) ⟨t, v, p.dataSize⟩ key rfl
    rw [addConstInt_miss hl]
    change CacheFaithful q
    constructor
    · exact emit_offsets h.offsets _
    · intro key
      change List.lookup key ((constKey v t, p.dataSize) :: p.constIntCache) = _
      rw [hfirst, List.lookup_cons]
      by_cases hk : key = constKey v t
      · simp [hk, hnone]
      · rw [beq_eq_false_iff_ne.mpr hk, if_neg (Ne.symm hk), Option.or_none]
        exact h.lookup key
    · intro key r hr
      rw [hfirst] at hr
      change (p.emit (.constInt t v)).2.instrAt r.offset = _
      cases hold : p.firstRequest key with
      | some r₀ =>
        rw [hold, Option.some_or] at hr
        cases hr
        exact emit_keepsRecord h.offsets _ (h.record key r hold)
      | none =>
        rw [hold, Option.none_or] at hr
        split_ifs at hr
        cases hr
        rw [emit_instrAt, if_pos rfl]

/-- What a patch does: an entry of one PHI record changes. -/
lemma patchPhiEntry_cases {r : IRValueRef} {idx : Nat} {v : IRValueRef} {b : Nat}
    (h : p.patchPhiEntry r idx v b = some q) : ∃ phi ty entries, r = .instr phi ∧
      p.instrAt phi = some (.phi ty entries) ∧ idx < entries.length ∧
      q = { p with instrData := p.instrData.map fun record =>
        if record.1 = phi then (phi, .phi ty (entries.set idx (v, b))) else record } := by
  unfold IRProgram.patchPhiEntry at h
  split at h
  · rename_i phi ty entries hget
    split_ifs at h with hidx
    cases h
    exact ⟨phi, ty, entries, rfl, hget, hidx, rfl⟩
  · cases h

lemma patch_instrAt {phi : Nat} {ty : IRType} {entries entries' : List (IRValueRef × Nat)}
    (hphi : p.instrAt phi = some (.phi ty entries)) (off : Nat) :
    ({ p with instrData := p.instrData.map fun record =>
        if record.1 = phi then (phi, .phi ty entries') else record } : IRProgram).instrAt off =
      if off = phi then some (.phi ty entries') else p.instrAt off := by
  refine (lookup_map_replace p.instrData phi _ off).trans ?_
  change (if _ then (p.instrAt phi).map _ else _) = _
  rw [hphi]
  rfl

lemma patch_dataSize {phi : Nat} {ty : IRType} {entries entries' : List (IRValueRef × Nat)}
    (hphi : p.instrAt phi = some (.phi ty entries)) (hlen : entries'.length = entries.length) :
    ({ p with instrData := p.instrData.map fun record =>
        if record.1 = phi then (phi, .phi ty entries') else record } : IRProgram).dataSize =
      p.dataSize := by
  cases hd : p.instrData with
  | nil => simp [IRProgram.dataSize, hd]
  | cons r rest =>
    obtain ⟨k, i⟩ := r
    simp only [IRProgram.dataSize, hd, List.map_cons]
    by_cases hk : k = phi
    · have hi : i = .phi ty entries := by
        simpa [IRProgram.instrAt, hd, List.lookup_cons, hk] using hphi
      rw [if_pos hk, hk, hi]
      simp only [Instr.byteSize, hlen]
    · rw [if_neg hk]

lemma CacheFaithful.patch (h : CacheFaithful p) {r : IRValueRef} {idx : Nat} {v : IRValueRef}
    {b : Nat} (hpatch : p.patchPhiEntry r idx v b = some q) : CacheFaithful q := by
  obtain ⟨phi, ty, entries, -, hphi, -, rfl⟩ := patchPhiEntry_cases hpatch
  have hsize := @patch_dataSize p phi ty entries (entries.set idx (v, b)) hphi (List.length_set ..)
  constructor
  · intro record hrecord
    obtain ⟨record₀, hmem, rfl⟩ := List.mem_map.mp hrecord
    have hlt := h.offsets record₀ hmem
    rw [hsize]
    split_ifs with hk
    · exact hk ▸ hlt
    · exact hlt
  · exact h.lookup
  · intro key r hr
    have hrec := h.record key r hr
    rw [patch_instrAt hphi, if_neg ?_]
    · exact hrec
    · intro heq
      rw [heq, hphi] at hrec
      cases hrec

lemma CacheFaithful.apply (h : CacheFaithful p) {c : BuilderCall} (hc : c.apply p = some q) :
    CacheFaithful q := by
  rcases apply_cases hc with hkeep | ⟨i, ⟨rfl, -⟩, -, -⟩ | ⟨v, t, rfl, -⟩ |
    ⟨r, idx, v, b, -, hpatch⟩
  · exact h.of_keeps hkeep
  · exact h.emit i
  · exact h.addConstInt v t
  · exact h.patch hpatch

/-- The cache is faithful after every sequence of calls. -/
lemma build_cacheFaithful {calls : List BuilderCall} (h : BuilderCall.build calls = some p) :
    CacheFaithful p := by
  apply build_invariant (I := CacheFaithful) _ _ h
  · exact ⟨fun _ hr => (by cases hr), fun _ => rfl, fun _ _ hr => (by cases hr)⟩
  · exact fun p c q hp hq => hp.apply hq

/-- A request is answered with its own constant exactly if no other one came first under its
key. -/
theorem addConstInt_faithful_iff {calls : List BuilderCall}
    (h : BuilderCall.build calls = some p) (v : Word) (t : IRType) :
    (p.addConstInt v t).2.getInstr (p.addConstInt v t).1 = some (.constInt t v) ↔
      ∀ r, p.firstRequest (constKey v t) = some r → r.type = t ∧ r.value = v := by
  have hcache := build_cacheFaithful h
  cases hl : p.constIntCache.lookup (constKey v t) with
  | some off =>
    obtain ⟨r, hr, rfl⟩ := Option.map_eq_some_iff.mp ((hcache.lookup _).symm.trans hl)
    rw [addConstInt_hit hl, hr]
    change p.instrAt r.offset = _ ↔ _
    rw [hcache.record _ r hr]
    simp
  | none =>
    have hnone := Option.map_eq_none_iff.mp ((hcache.lookup _).symm.trans hl)
    rw [addConstInt_miss hl, hnone]
    change (p.emit (.constInt t v)).2.instrAt p.dataSize = _ ↔ _
    rw [emit_instrAt, if_pos rfl]
    simp

/-- The 64-bit constant 5 was requested before. -/
def repeatedCalls : List BuilderCall :=
  [.beginFunction "f" .void [], .addConstInt 5 .int64, .addConstInt 7 .int32]

theorem addConstInt_faithful_iff_repeated : ∃ p, BuilderCall.build repeatedCalls = some p ∧
    p.firstRequest (constKey 5 .int64) = some ⟨.int64, 5, 0⟩ ∧
    (p.addConstInt 5 .int64).2.getInstr (p.addConstInt 5 .int64).1 = some (.constInt .int64 5) := by
  have hbuild : BuilderCall.build repeatedCalls = some
      ((BuilderCall.build repeatedCalls).get (by decide)) := (Option.some_get _).symm
  have hfirst : ((BuilderCall.build repeatedCalls).get (by decide)).firstRequest
      (constKey 5 .int64) = some ⟨.int64, 5, 0⟩ := by decide
  refine ⟨_, hbuild, hfirst, (addConstInt_faithful_iff hbuild 5 .int64).mpr ?_⟩
  intro r hr
  cases hfirst.symm.trans hr
  exact ⟨rfl, rfl⟩

/-- One request, for the 32-bit constant 0. -/
def collidingCalls : List BuilderCall :=
  [.beginFunction "f" .void [], .addConstInt 0 .int32]

/-- The literal 2^56 is answered with the 32-bit constant 0. -/
theorem addConstInt_collides : ¬ ∀ calls p, BuilderCall.build calls = some p → ∀ v t,
    (p.addConstInt v t).2.getInstr (p.addConstInt v t).1 = some (.constInt t v) := by
  intro h
  have hbuild : BuilderCall.build collidingCalls = some
      ((BuilderCall.build collidingCalls).get (by decide)) := (Option.some_get _).symm
  have hbad := h _ _ hbuild (2 ^ 56) .int64
  revert hbad
  decide

/-! ### What dead code elimination leaves -/

lemma build_fits {calls : List BuilderCall} (h : BuilderCall.build calls = some p) {off : Nat}
    {i : Instr} (hi : p.instrAt off = some i) : i.Fits := by
  have hfits : ∀ off i, p.instrAt off = some i → i.Fits := by
    apply build_invariant (I := fun p => ∀ off i, p.instrAt off = some i → i.Fits) _ _ h
    · intro off i hi
      cases hi
    · intro p c q hp hq
      have hemit : ∀ j : Instr, j.Fits → ∀ off i, (p.emit j).2.instrAt off = some i → i.Fits := by
        intro j hj off i hi
        rw [emit_instrAt] at hi
        split_ifs at hi
        · cases hi
          exact hj
        · exact hp off i hi
      rcases apply_cases hq with hkeep | ⟨j, ⟨rfl, -⟩, -, hj, -⟩ | ⟨v, t, rfl, -⟩ |
        ⟨r, idx, v, b, -, hpatch⟩
      · intro off i hi
        rw [IRProgram.instrAt, hkeep.instrData] at hi
        exact hp off i hi
      · exact hemit j hj
      · cases hl : p.constIntCache.lookup (constKey v t) with
        | some off =>
          rw [addConstInt_hit hl]
          exact hp
        | none =>
          rw [addConstInt_miss hl]
          exact hemit (.constInt t v) trivial
      · obtain ⟨phi, ty, entries, -, hphi, -, rfl⟩ := patchPhiEntry_cases hpatch
        intro off i hi
        rw [patch_instrAt hphi] at hi
        split_ifs at hi
        · cases hi
          trivial
        · exact hp off i hi
  exact hfits off i hi

/-- The instruction is in a block of the function that control can reach. -/
def Reached (p : IRProgram) (fn : IRFunction) (off : Nat) : Prop :=
  ∃ b ∈ p.reachableBlocks fn, ∃ blk, fn.blocks[b]? = some blk ∧ off ∈ blk.instructions

/-- The offsets with a use in reachable code. -/
def usedInReachable (p : IRProgram) : List Nat := p.usedOffsets (p.functions.map p.clearUnreachable)

/-- A function after dead code elimination. -/
def eliminated (p : IRProgram) (fn : IRFunction) : IRFunction :=
  p.removeUnused (usedInReachable p) (p.clearUnreachable fn)

lemma eliminateDeadCode_functions : p.eliminateDeadCode.functions = p.functions.map (eliminated p) :=
  List.map_map

/-- The instruction belongs to a block of the function. -/
def BelongsTo (off : Nat) (fn : IRFunction) : Prop := ∃ blk ∈ fn.blocks, off ∈ blk.instructions

instance (off : Nat) (fn : IRFunction) : Decidable (BelongsTo off fn) := by
  unfold BelongsTo
  infer_instance

lemma belongsTo_cleared_iff {fn : IRFunction} {off : Nat} :
    BelongsTo off (p.clearUnreachable fn) ↔ Reached p fn off := by
  unfold BelongsTo IRProgram.clearUnreachable Reached
  constructor
  · rintro ⟨blk, hblk, hoff⟩
    obtain ⟨b, hb, rfl⟩ := List.mem_mapIdx.mp hblk
    split_ifs at hoff with hreach
    · exact ⟨b, hreach, fn.blocks[b], List.getElem?_eq_getElem hb, hoff⟩
    · cases hoff
  · rintro ⟨b, hreach, blk, hblk, hoff⟩
    obtain ⟨hb, rfl⟩ := List.getElem?_eq_some_iff.mp hblk
    refine ⟨_, List.mem_mapIdx.mpr ⟨b, hb, rfl⟩, ?_⟩
    rw [if_pos hreach]
    exact hoff

lemma belongsTo_eliminated_iff {fn : IRFunction} {off : Nat} :
    BelongsTo off (eliminated p fn) ↔
      Reached p fn off ∧ p.keepInstr (usedInReachable p) off = true := by
  rw [← belongsTo_cleared_iff]
  unfold BelongsTo eliminated IRProgram.removeUnused
  constructor
  · rintro ⟨blk, hblk, hoff⟩
    obtain ⟨blk', hblk', rfl⟩ := List.mem_map.mp hblk
    obtain ⟨hmem, hkeep⟩ := List.mem_filter.mp hoff
    exact ⟨⟨blk', hblk', hmem⟩, hkeep⟩
  · rintro ⟨⟨blk, hblk, hoff⟩, hkeep⟩
    exact ⟨_, List.mem_map_of_mem hblk, List.mem_filter.mpr ⟨hoff, hkeep⟩⟩

/-- What an instruction in reachable code uses is counted. -/
lemma mem_usedInReachable {fn : IRFunction} (hfn : fn ∈ p.functions) {off o : Nat} {i : Instr}
    (hoff : Reached p fn off) (hi : p.instrAt off = some i) (ho : .instr o ∈ i.uses) :
    o ∈ usedInReachable p := by
  obtain ⟨blk, hblk, hmem⟩ := belongsTo_cleared_iff.mpr hoff
  unfold usedInReachable IRProgram.usedOffsets
  apply List.mem_flatMap.mpr
  refine ⟨p.clearUnreachable fn, List.mem_map_of_mem hfn, ?_⟩
  apply List.mem_flatMap.mpr
  refine ⟨blk, hblk, List.mem_flatMap.mpr ⟨off, hmem, ?_⟩⟩
  apply List.mem_filterMap.mpr
  refine ⟨.instr o, ?_, rfl⟩
  rw [hi]
  exact ho

end

end Proofs

end TidyTuples
