import TidyTuples.Proofs.Evaluation
import TidyTuples.Sql.Runner

/-!
# The code of an operator tree does what its push semantics says
-/

namespace TidyTuples.Proofs

open IRProgram

/-- Wherever it is emitted, the code of a consumer does `effect` to memory. -/
def ConsumerRuns (C : Compiled) (consume : Consumer) (child : Nat) (effect : Effect) : Prop :=
  ∀ (ctx ctx' : CompilationContext) (scope : ConsumerScope) (row : Row) (s : QueryState)
    (heap : Heap) (pending : List Nat), Ready ctx.program → ScopeOk ctx.program scope →
    ScopeHolds ctx.program s scope row → ConstRegs C.program s.regs →
    Final C.program ctx'.program pending → (∀ b ∈ pending, b < ctx.program.blocks.length) →
    consume scope child ctx = .ok ((), ctx') → effect row s.mem = some heap →
    ∃ s', C.Reaches ctx.program s ctx'.program s' ∧ s'.mem = heap

section

variable {C : Compiled} {ctx ctx' : CompilationContext} {s : QueryState} {heap : Heap}

lemma Final.of_closeIf {P q : IRProgram} {m : Nat} {pending : List Nat} (hv : Valid q) (ho : Open q)
    (hm : m < q.blocks.length) (h : Final P (q.closeIf m) pending) : Final P q (m :: pending) := by
  have hcl := closeIf_spec hv ho hm
  refine ⟨hcl.weak.trans h.ext, fun b hb hne hnot => ?_⟩
  obtain ⟨hbm, hnot⟩ := not_or.mp (mt List.mem_cons.mpr hnot)
  rw [h.sealed b (by rw [hcl.length]; exact hb) (by rw [hcl.current]; exact hbm) hnot, hcl.blockAt,
    if_neg hne]

lemma Final.of_closeLoop {P q r : IRProgram} {header phi entry : Nat} {zero one : IRValueRef}
    {pending : List Nat} (hv : Valid q)
    (hphi : q.instrAt phi = some (.phi .int64 [(zero, entry), (.null, 0)]))
    (hh : header + 2 < q.blocks.length) (hclose : q.closeLoop header phi one = some r)
    (h : Final P r pending) : Final P q ((header + 2) :: pending) := by
  obtain ⟨r', hr', hcl⟩ := closeLoop_spec hv hphi hh one
  rw [hclose] at hr'
  cases hr'
  refine ⟨hcl.weak.trans h.ext, fun b hb hne hnot => ?_⟩
  obtain ⟨hbm, hnot⟩ := not_or.mp (mt List.mem_cons.mpr hnot)
  rw [h.sealed b (by rw [hcl.length]; exact hb) (by rw [hcl.current]; exact hbm) hnot, hcl.blockAt,
    if_neg hne]

/-! ### Filters -/

lemma exists_ne_zero {o : Option Word} (h : o.any (· != 0) = true) : ∃ w, o = some w ∧ w ≠ 0 := by
  cases o with
  | none => cases h
  | some w => exact ⟨w, rfl, by simpa using h⟩

lemma select_runs {id child : Nat} {pred : Predicate} {parent : Consumer} {effect : Effect}
    (he : ConsumerEmits False parent) (hp : ConsumerRuns C parent id effect) :
    ConsumerRuns C (selectConsume id pred parent) child (selectEffect pred effect) := by
  intro ctx ctx' scope row s heap pending hready hscope hrow hc hfin hpend h heff
  simp only [selectConsume] at h
  obtain ⟨cond, ctx₁, hcond, h⟩ := run_bind_ok h
  obtain ⟨v, hv, heff⟩ := Option.bind_eq_some_iff.mp heff
  obtain ⟨a₁, hav⟩ := Predicate.eval_advances False hready hscope False.elim hcond
  rw [run_bind_of_ok (show Gen.program ctx₁ = .ok (ctx₁.program, ctx₁) from rfl)] at h
  have hpend₁ : ∀ b ∈ pending, b < ctx₁.program.blocks.length := fun b hb =>
    (hpend b hb).trans_le a₁.loc.blocks
  have hscope₁ := hscope.mono a₁.loc
  split_ifs at h with hconst
  · -- the predicate is a constant other than 0
    obtain ⟨hl, -, -⟩ := (he _ _ _ _ a₁.ready hscope₁ h).grows a₁.ready.valid a₁.ready.isOpen
    obtain ⟨s₁, r₁, m₁, k₁⟩ := Predicate.eval_computes hready hscope hrow hc
      (hl.toExtends.trans hfin.ext) hcond hv
    have hne : v ≠ 0 := by
      obtain ⟨w, hw, hw0⟩ := exists_ne_zero hconst
      obtain ⟨off, hoff, -, hreg⟩ := k₁
      rw [hoff] at hw hreg
      rw [r₁.consts off w (constIntValue_mono (hl.toExtends.trans hfin.ext) hw)] at hreg
      cases hreg
      exact hw0
    rw [if_neg hne, ← m₁] at heff
    obtain ⟨s₂, r₂, m₂⟩ := hp ctx₁ ctx' scope row s₁ heap pending a₁.ready hscope₁
      (hrow.reaches r₁ a₁.loc) r₁.consts hfin hpend₁ h heff
    exact ⟨s₂, r₁.trans r₂ a₁.loc.size, m₂⟩
  · obtain ⟨ctx₂, hbody, rfl⟩ := (run_ifStmt_iff a₁.ready.valid _ _).mp h
    have hopen := openIf_spec a₁.ready.valid cond.valueRef
    have hready₂ := openIf_ready a₁.ready.valid cond.valueRef
    have hscope₂ := hscope₁.mono hopen.loc
    obtain ⟨hl, hvq, hoq⟩ := (he _ _ _ _ hready₂ hscope₂ hbody).grows hopen.valid hopen.isOpen
    have hblocks : (ctx₁.program.openIf cond.valueRef).blocks.length ≤ ctx₂.program.blocks.length :=
      hl.blocks
    have hlen := hopen.length
    have hm : ctx₁.program.blocks.length + 2 < ctx₂.program.blocks.length := by omega
    have hcl := closeIf_spec hvq hoq hm
    have hfinq : Final C.program ctx₂.program _ := Final.of_closeIf hvq hoq hm hfin
    have hext₁ : Extends ctx₁.program C.program :=
      (hopen.loc.trans hl).toExtends.trans hfinq.ext
    obtain ⟨s₁, r₁, m₁, k₁⟩ := Predicate.eval_computes hready hscope hrow hc hext₁ hcond hv
    have hk : s₁.regs cond.valueRef = .word v := k₁.same fun _ _ => rfl
    obtain ⟨s₂, r₂, m₂⟩ := ifThen_reaches heap a₁.ready.valid hl hvq hoq hfin hpend₁ r₁.consts hk
      (fun hne s₃ hregs hmem => by
        have hv0 : v ≠ 0 := fun h0 => hne (by rw [h0])
        rw [if_neg hv0, ← m₁, ← hmem] at heff
        refine hp _ ctx₂ scope row s₃ heap _ hready₂ hscope₂ ?_ (hregs ▸ r₁.consts) hfinq ?_ hbody heff
        · intro id v' hv'
          obtain ⟨w, hw, off, hoff, hlt, hreg⟩ := (hrow.reaches r₁ a₁.loc) id v' hv'
          exact ⟨w, hw, off, hoff, hlt.trans_le hopen.loc.size, by rw [hregs]; exact hreg⟩
        · intro b hb
          change b < (ctx₁.program.openIf cond.valueRef).blocks.length
          rcases List.mem_cons.mp hb with rfl | hb
          · omega
          · have := hpend₁ b hb
            omega)
      (fun h0 => by
        have hv0 : v = 0 := by simpa using h0
        rw [if_pos hv0] at heff
        cases heff
        exact m₁)
    exact ⟨s₂, r₁.trans r₂ a₁.loc.size, m₂⟩

/-! ### Loops -/

lemma Holds.same_below {p q : IRProgram} {s' : QueryState} {ref : IRValueRef} {v : Value}
    (h : Holds p s ref v) (hs : SameBelow p s s') (hl : Local p q) : Holds q s' ref v := by
  obtain ⟨off, rfl, hoff, hv⟩ := h
  exact ⟨off, rfl, hoff.trans_le hl.size, (hs off hoff).trans hv⟩

lemma ScopeHolds.same_below {p q : IRProgram} {s' : QueryState} {scope : ConsumerScope} {row : Row}
    (h : ScopeHolds p s scope row) (hs : SameBelow p s s') (hl : Local p q) :
    ScopeHolds q s' scope row := by
  intro id v hv
  obtain ⟨w, hw, hh⟩ := h id v hv
  exact ⟨w, hw, hh.same_below hs hl⟩

/-- What a generator function has to know about the body of the loop it emits. -/
structure LoopBody (C : Compiled) (p : IRProgram) (s : QueryState) (pending : List Nat) (i : Nat)
    (ctx₁ ctx₂ : CompilationContext) (s₁ : QueryState) : Prop where
  ready : Ready ctx₁.program
  loc : Local p ctx₁.program
  same : SameBelow p s s₁
  consts : ConstRegs C.program s₁.regs
  available : Available ctx₁.program (.instr p.loopIndex)
  index : Holds ctx₁.program s₁ (.instr p.loopIndex) (.word (BitVec.ofNat 64 i))
  final : Final C.program ctx₂.program ((p.blocks.length + 2) :: pending)
  pending : ∀ b ∈ (p.blocks.length + 2) :: pending, b < ctx₁.program.blocks.length

theorem countedLoop_runs {name : String} {zeroOff : Nat} {bound one : IRValueRef} {n : Nat}
    {gen : IRValueRef → Gen Unit} {body : Nat → Heap → Option Heap} {pending : List Nat}
    (heap : Heap) (hvalid : Valid ctx.program) (hfin : Final C.program ctx'.program pending)
    (hpend : ∀ b ∈ pending, b < ctx.program.blocks.length) (hc : ConstRegs C.program s.regs)
    (hzero : Holds ctx.program s (.instr zeroOff) (.word 0))
    (hbound : Holds ctx.program s bound (.word (BitVec.ofNat 64 n)))
    (hone : Holds ctx.program s one (.word 1))
    (hemits : ∀ ctx₁ ctx₂ : CompilationContext, Ready ctx₁.program → Local ctx.program ctx₁.program →
      Available ctx₁.program (.instr ctx.program.loopIndex) →
      gen (.instr ctx.program.loopIndex) ctx₁ = .ok ((), ctx₂) →
      Emits False ctx₁.program ctx₂.program)
    (hbody : ∀ (ctx₁ ctx₂ : CompilationContext) (i : Nat) (s₁ : QueryState) heap₁, i < n →
      LoopBody C ctx.program s pending i ctx₁ ctx₂ s₁ →
      gen (.instr ctx.program.loopIndex) ctx₁ = .ok ((), ctx₂) → body i s₁.mem = some heap₁ →
      ∃ s₂, C.Reaches ctx₁.program s₁ ctx₂.program s₂ ∧ s₂.mem = heap₁)
    (h : Gen.countedLoop name (.instr zeroOff) bound one gen ctx = .ok ((), ctx'))
    (hrun : countedEffect n body s.mem = some heap) :
    ∃ s', C.Reaches ctx.program s ctx'.program s' ∧ s'.mem = heap := by
  obtain ⟨ctx₂, q, hgen, hclose, rfl⟩ := (run_countedLoop_iff hvalid _ _ _ _ _).mp h
  have hopen := openLoop_spec hvalid name (.instr zeroOff) bound
  have hready₁ := openLoop_ready hvalid name (.instr zeroOff) bound
  have hav := loopIndex_available hvalid name (.instr zeroOff) bound
  obtain ⟨hl, hvq, -⟩ := (hemits _ _ hready₁ hopen.loc hav hgen).grows hready₁.valid hready₁.isOpen
  have hlen := hopen.length
  have hblocks : _ ≤ ctx₂.program.blocks.length := hl.blocks
  rw [program_withProgram] at hblocks
  have hcode := loopCode_of_final hvalid hl hvq hclose hfin hpend
  have hfinq := Final.of_closeLoop hvq (hl.allRecords _ _ hopen.phi)
    (show ctx.program.blocks.length + 2 < ctx₂.program.blocks.length by omega) hclose hfin
  refine hcode.reaches hc hzero hbound hone ?_ hrun
  intro i hi s₁ heap₁ hs₁ hheap
  refine hbody _ ctx₂ i s₁ heap₁ hi ⟨hready₁, hopen.loc, hs₁.same, hs₁.consts, hav, ?_, hfinq, ?_⟩
    hgen hheap
  · refine ⟨_, rfl, ?_, hs₁.index⟩
    have hsize := hopen.size
    rw [program_withProgram, hsize]
    simp only [IRProgram.loopIndex]
    omega
  · intro b hb
    rw [program_withProgram]
    rcases List.mem_cons.mp hb with rfl | hb
    · omega
    · have := hpend b hb
      omega

/-! ### Joins -/

/-- The code of the build side leads to its call, with the argument list in the registers. -/
lemma buildSide_calls {j : HashJoinTranslator} {scope : ConsumerScope} {row : Row}
    {keys payload : List Word} (hready : Ready ctx.program) (hscope : ScopeOk ctx.program scope)
    (hrow : ScopeHolds ctx.program s scope row) (hc : ConstRegs C.program s.regs)
    (hext : Extends ctx'.program C.program) (h : j.consumeBuildSide scope ctx = .ok ((), ctx'))
    (hkeys : row.words j.buildKeys = some keys)
    (hpayload : row.words j.buildPayloadIUs = some payload) :
    ∃ q args s', Valid q ∧ Local ctx.program q ∧ ctx'.program = (q.addCall .void .insert args).2 ∧
      C.Reaches ctx.program s q s' ∧ s'.mem = s.mem ∧ args.map s'.regs =
        (insertArgs j.hashTable (C.arch.hashWords keys) 0 keys payload).map Value.word := by
  obtain ⟨keyVals, payloadVals, hash, ctx₁, hk, hp, hhash, hprog, -⟩ := run_consumeBuildSide h
  rw [hprog] at hext
  obtain ⟨a₁, -⟩ := hashValues_advances False hready (getAll_available hscope hk) hhash
  have a₂ := a₁.ready.addConstInt False j.hashTable .ptr
  have a₃ := a₂.ready.addConstInt False 0 .int64
  have e₃ : Extends _ C.program := (emit_extends a₃.ready.valid rfl).trans hext
  have e₂ := a₃.loc.toExtends.trans e₃
  have hkv := hrow.values hk hkeys
  have hpv := hrow.values hp hpayload
  obtain ⟨s₁, r₁, m₁, k₁⟩ := hashValues_computes hready (getAll_available hscope hk) hkv hc
    (a₂.loc.toExtends.trans e₂) hhash
  obtain ⟨s₂, r₂, m₂, k₂⟩ := addConstInt_computes a₁.ready.valid e₂ r₁.consts
  obtain ⟨s₃, r₃, m₃, k₃⟩ := addConstInt_computes a₂.ready.valid e₃ r₂.consts
  have l₂ := a₁.loc.trans a₂.loc
  have r₁₃ := (r₁.trans r₂ a₁.loc.size).trans r₃ l₂.size
  have l₃ := l₂.trans a₃.loc
  have hargs : ArgsHold _ s₃ (insertArgs _ hash _ (keyVals.map SQLValue.valueRef)
      (payloadVals.map SQLValue.valueRef)) (insertArgs (.word j.hashTable)
        (.word (C.arch.hashWords keys)) (.word 0) (keys.map .word) (payload.map .word)) :=
    (((ArgsHold.append (.cons (k₂.reaches r₃ a₃.loc) (.cons ((k₁.reaches r₂ a₂.loc).reaches r₃ a₃.loc)
      .nil)) (hkv.reaches r₁₃ l₃).args).padTo k₃ _).append (hpv.reaches r₁₃ l₃).args).padTo k₃ _
  refine ⟨_, _, s₃, a₃.ready.valid, l₃, hprog, r₁₃, by rw [m₃, m₂, m₁], ?_⟩
  rw [hargs.regs, insertArgs_map]

lemma buildSide_runs {j : HashJoinTranslator} (parent : Consumer) :
    ConsumerRuns C (j.consume parent) j.buildId (j.insertEffect C.arch) := by
  intro ctx ctx' scope row s heap pending hready hscope hrow hc hfin _ h heff
  unfold HashJoinTranslator.consume at h
  rw [if_pos rfl] at h
  obtain ⟨keys, hkeys, heff⟩ := Option.bind_eq_some_iff.mp heff
  obtain ⟨payload, hpayload, heff⟩ := Option.bind_eq_some_iff.mp heff
  obtain ⟨q, args, s₁, hv, hl, hprog, r₁, m₁, hargs⟩ := buildSide_calls hready hscope hrow hc
    hfin.ext h hkeys hpayload
  have hext := hfin.ext
  rw [hprog] at hext ⊢
  obtain ⟨s₂, r₂, m₂, -⟩ := addCall_reaches hv heap hext r₁.consts (v := .word 0) (by
    rw [hargs, m₁]
    simp only [callRuntime, map_toWord_word]
    rw [heff]
    rfl)
  exact ⟨s₂, r₁.trans r₂ hl.size, m₂⟩

/-- The code of one match. -/
lemma probeBody_runs {j : HashJoinTranslator} {parent : Consumer} {effect : Effect}
    {scope : ConsumerScope} {row row' : Row} {matchesPtr idxPhi : IRValueRef} {i : Nat}
    {pending : List Nat} (he : ConsumerEmits False parent) (hp : ConsumerRuns C parent j.id effect)
    (hready : Ready ctx.program) (hscope : ScopeOk ctx.program scope)
    (hm : Available ctx.program matchesPtr) (hidx : Available ctx.program idxPhi)
    (hrow : ScopeHolds ctx.program s scope row) (hmv : Holds ctx.program s matchesPtr (.word j.hashTable))
    (hiv : Holds ctx.program s idxPhi (.word (BitVec.ofNat 64 i))) (hc : ConstRegs C.program s.regs)
    (hfin : Final C.program ctx'.program pending)
    (hpend : ∀ b ∈ pending, b < ctx.program.blocks.length)
    (h : probeBody j parent scope matchesPtr idxPhi ctx = .ok ((), ctx'))
    (hmatch : j.matchRow row s.mem i = some row') (heff : effect row' s.mem = some heap) :
    ∃ s', C.Reaches ctx.program s ctx'.program s' ∧ s'.mem = heap := by
  rw [probeBody, run_bind_of_ok (run_addCall _ _ _)] at h
  obtain ⟨scope₁, ctx₁, hkeys, h₁⟩ := run_bind_ok h
  obtain ⟨scope₂, ctx₂, hpayload, hparent⟩ := run_bind_ok h₁
  obtain ⟨e, hentry, hmatch⟩ := Option.bind_eq_some_iff.mp hmatch
  obtain ⟨row₁, hrow₁, hrow₂⟩ := Option.bind_eq_some_iff.mp hmatch
  have b₁ := hready.addCall False .ptr .matchAt [matchesPtr, idxPhi] (by
    intro r hr
    rcases List.mem_pair.mp hr with rfl | rfl
    · exact hm
    · exact hidx)
  have hav := emit_available (p := ctx.program) (i := .call .ptr .matchAt [matchesPtr, idxPhi]) rfl
  obtain ⟨b₂, hs₁⟩ := bindFields_advances False b₁.ready hav (hscope.mono b₁.loc) hkeys
  obtain ⟨b₃, hs₂⟩ := bindFields_advances False b₂.ready (hav.mono b₂.loc) hs₁ hpayload
  obtain ⟨hl, -, -⟩ := (he _ _ _ _ b₃.ready hs₂ hparent).grows b₃.ready.valid b₃.ready.isOpen
  have e₃ := hl.toExtends.trans hfin.ext
  have e₂ := b₃.loc.toExtends.trans e₃
  have hargs : ArgsHold ctx.program s [matchesPtr, idxPhi]
      [.word j.hashTable, .word (BitVec.ofNat 64 i)] := .cons hmv (.cons hiv .nil)
  obtain ⟨s₁, r₁, m₁, k₁⟩ := addCall_computes hready.valid (t := .ptr) (v := .entry e)
    (b₂.loc.toExtends.trans e₂) hc (by simp) (by
      rw [hargs.regs]
      simp only [callRuntime, Value.toWord_word, hentry])
  obtain ⟨s₂, r₂, m₂, k₂⟩ := bindFields_computes (getKey_reads e) b₁.ready hav (hscope.mono b₁.loc)
    k₁ (hrow.reaches r₁ b₁.loc) r₁.consts e₂ hkeys hrow₁
  obtain ⟨s₃, r₃, m₃, k₃⟩ := bindFields_computes (getPayload_reads e) b₂.ready (hav.mono b₂.loc) hs₁
    (k₁.reaches r₂ b₂.loc) k₂ r₂.consts e₃ hpayload hrow₂
  have l₂ := b₁.loc.trans b₂.loc
  have r₁₃ := (r₁.trans r₂ b₁.loc.size).trans r₃ l₂.size
  have l₃ := l₂.trans b₃.loc
  have m₁₃ : s₃.mem = s.mem := by rw [m₃, m₂, m₁]
  obtain ⟨s₄, r₄, m₄⟩ := hp ctx₂ ctx' scope₂ row' s₃ heap pending b₃.ready hs₂ k₃ r₃.consts hfin
    (fun b hb => (hpend b hb).trans_le l₃.blocks) hparent (m₁₃ ▸ heff)
  exact ⟨s₄, r₁₃.trans r₄ l₃.size, m₄⟩

lemma padded_toWord (n : Nat) (ws : List Word) :
    (ws.map Value.word ++ List.replicate (n - ws.length) (Value.word 0)).map Value.toWord =
      padTo n 0 ws := by
  simp [padTo, Function.comp_def]

lemma lookupAllFn_fst {heap heap' : Heap} {ht r : Word} {rest : List Word}
    (h : lookupAllFn heap (ht :: rest) = some (r, heap')) : r = ht := by
  simp only [lookupAllFn] at h
  split_ifs at h
  obtain ⟨table, -, hres⟩ := Option.bind_eq_some_iff.mp h
  cases hres
  rfl

/-- The lookup of a probe, in front of its loop over the matches. -/
lemma probeStart_runs {j : HashJoinTranslator} {keyVals : List SQLValue} {hash : IRValueRef}
    {ctx₁ ctx₂ ctx₃ : CompilationContext} {lookupArgs : List IRValueRef} {keys : List Word}
    {ht : Word} {heap₁ : Heap} (hready : Ready ctx.program)
    (hkav : ∀ v ∈ keyVals, Available ctx.program v.valueRef)
    (hhash : hashValues keyVals ctx = .ok (hash, ctx₁))
    (hprog₂ : ctx₂.program = (ctx₁.program.addConstInt j.hashTable .ptr).2)
    (hpad : padWithZeros (4 - keyVals.length) ([(ctx₁.program.addConstInt j.hashTable .ptr).1, hash] ++
      keyVals.map SQLValue.valueRef) ctx₂ = .ok (lookupArgs, ctx₃))
    (hkv : ValuesHold ctx.program s keyVals keys) (hc : ConstRegs C.program s.regs)
    (hlookup : lookupAllFn s.mem (padTo (2 + 4) 0 ([j.hashTable, C.arch.hashWords keys] ++ keys)) =
      some (ht, heap₁)) :
    let p₄ := (ctx₃.program.addCall .ptr .lookupAll lookupArgs).2
    let p₅ := (p₄.addCall .int64 .matchCount [.instr ctx₃.program.dataSize]).2
    let p₆ := (p₅.addConstInt 0 .int64).2
    let p₇ := (p₆.addConstInt 1 .int64).2
    Extends p₇ C.program → ∃ s', C.Reaches ctx.program s p₇ s' ∧ s'.mem = heap₁ ∧
      Holds p₇ s' (.instr ctx₃.program.dataSize) (.word j.hashTable) ∧
      Holds p₇ s' (.instr p₄.dataSize) (.word (heap₁.hashTables j.hashTable).matchCount) ∧
      Holds p₇ s' (.instr (constOffset p₅ 0 .int64)) (.word 0) ∧
      Holds p₇ s' (.instr (constOffset p₆ 1 .int64)) (.word 1) := by
  intro p₄ p₅ p₆ p₇ e₇
  obtain ⟨a₁, hav⟩ := hashValues_advances False hready hkav hhash
  have a₂ : Advances False ctx₁.program ctx₂.program := by
    rw [hprog₂]
    exact a₁.ready.addConstInt False j.hashTable .ptr
  have l₂ := a₁.loc.trans a₂.loc
  have havs : ∀ r ∈ [(ctx₁.program.addConstInt j.hashTable .ptr).1, hash] ++
      keyVals.map SQLValue.valueRef, Available ctx₂.program r := by
    intro r hr
    rcases List.mem_append.mp hr with hr | hr
    · rcases List.mem_pair.mp hr with rfl | rfl
      · rw [hprog₂]
        exact addConstInt_available a₁.ready.valid _ _
      · exact hav.mono a₂.loc
    · obtain ⟨v, hv, rfl⟩ := List.mem_map.mp hr
      exact (hkav v hv).mono l₂
  obtain ⟨a₃, hargsav⟩ := padWithZeros_advances False a₂.ready havs hpad
  have a₄ : Advances False ctx₃.program p₄ := a₃.ready.addCall False .ptr .lookupAll _ hargsav
  have hmav : Available p₄ (.instr ctx₃.program.dataSize) := emit_available rfl
  have a₅ : Advances False p₄ p₅ := a₄.ready.addCall False .int64 .matchCount _
    (fun r hr => List.mem_singleton.mp hr ▸ hmav)
  have a₆ : Advances False p₅ p₆ := a₅.ready.addConstInt False 0 .int64
  have a₇ : Advances False p₆ p₇ := a₆.ready.addConstInt False 1 .int64
  have e₆ := a₇.loc.toExtends.trans e₇
  have e₅ := a₆.loc.toExtends.trans e₆
  have e₄ := a₅.loc.toExtends.trans e₅
  have e₃ := a₄.loc.toExtends.trans e₄
  have e₂ := a₃.loc.toExtends.trans e₃
  obtain ⟨s₁, r₁, m₁, k₁⟩ := hashValues_computes hready hkav hkv hc (a₂.loc.toExtends.trans e₂) hhash
  obtain ⟨s₂, r₂, m₂, k₂⟩ := addConstInt_computes (t := .ptr) (v := j.hashTable) a₁.ready.valid
    (hprog₂ ▸ e₂) r₁.consts
  rw [← hprog₂] at r₂ k₂
  have r₁₂ := r₁.trans r₂ a₁.loc.size
  obtain ⟨s₃, r₃, m₃, k₃⟩ := padWithZeros_computes a₂.ready havs
    (ArgsHold.append (.cons k₂ (.cons (k₁.reaches r₂ a₂.loc) .nil)) (hkv.reaches r₁₂ l₂).args)
    r₂.consts e₃ hpad
  have r₁₃ := r₁₂.trans r₃ l₂.size
  have hlen : 4 - keyVals.length = 2 + 4 - ([j.hashTable, C.arch.hashWords keys] ++ keys).length := by
    have hkeys : keyVals.length = keys.length := List.Forall₂.length_eq hkv
    simp only [List.length_append, List.length_cons, List.length_nil]
    omega
  obtain ⟨s₄, r₄, m₄, k₄⟩ := addCall_reaches a₃.ready.valid (t := .ptr) (v := .word ht) heap₁
    e₄ r₃.consts (by
      rw [k₃.regs, m₃, m₂, m₁, hlen]
      change callRuntime _ (([j.hashTable, C.arch.hashWords keys] ++ keys).map Value.word ++ _) _ = _
      simp only [callRuntime, padded_toWord]
      rw [hlookup]
      rfl)
  have k₄ := k₄ (by simp)
  rw [lookupAllFn_fst hlookup] at k₄
  obtain ⟨s₅, r₅, m₅, k₅⟩ := addCall_computes a₄.ready.valid (t := .int64)
    (v := .word (heap₁.hashTables j.hashTable).matchCount) e₅ r₄.consts (by simp) (by
      rw [ArgsHold.regs (.cons k₄ .nil), m₄]
      rfl)
  obtain ⟨s₆, r₆, m₆, k₆⟩ := addConstInt_computes a₅.ready.valid e₆ r₅.consts
  obtain ⟨s₇, r₇, m₇, k₇⟩ := addConstInt_computes a₆.ready.valid e₇ r₆.consts
  rw [addConstInt_ref] at k₆ k₇
  have l₅ := a₄.loc.trans a₅.loc
  have r₄₇ := ((r₄.trans r₅ a₄.loc.size).trans r₆ l₅.size).trans r₇ (l₅.trans a₆.loc).size
  refine ⟨s₇, r₁₃.trans r₄₇ (l₂.trans a₃.loc).size, by rw [m₇, m₆, m₅, m₄], ?_, ?_, ?_, k₇⟩
  · exact ((k₄.reaches r₅ a₅.loc).reaches r₆ a₆.loc).reaches r₇ a₇.loc
  · exact (k₅.reaches r₆ a₆.loc).reaches r₇ a₇.loc
  · exact k₆.reaches r₇ a₇.loc

lemma probeSide_runs {j : HashJoinTranslator} {parent : Consumer} {effect : Effect} {child : Nat}
    (hchild : child ≠ j.buildId) (he : ConsumerEmits False parent)
    (hp : ConsumerRuns C parent j.id effect) :
    ConsumerRuns C (j.consume parent) child (j.probeEffect C.arch effect) := by
  intro ctx ctx' scope row s heap pending hready hscope hrow hc hfin hpend h heff
  unfold HashJoinTranslator.consume at h
  rw [if_neg hchild] at h
  obtain ⟨keyVals, hash, ctx₁, ctx₂, lookupArgs, ctx₃, ctx₄, hk, hhash, hprog₂, -, hpad, hctx₄, hloop⟩ :=
    run_consumeProbeSide h
  obtain ⟨keys, hkeys, heff⟩ := Option.bind_eq_some_iff.mp heff
  obtain ⟨⟨ht, heap₁⟩, hlookup, heff⟩ := Option.bind_eq_some_iff.mp heff
  have hkav := getAll_available hscope hk
  have hstart := probeStart False hready hkav hhash hprog₂ hpad
  have hruns := probeStart_runs hready hkav hhash hprog₂ hpad (hrow.values hk hkeys) hc hlookup
  have hprog₄ := congrArg CompilationContext.program hctx₄
  rw [program_withProgram] at hprog₄
  dsimp only at hstart hruns
  rw [← hprog₄] at hstart hruns
  have hready₄ := hstart.advances.ready
  have l₄ := hstart.advances.loc
  have hscope₄ := hscope.mono l₄
  obtain ⟨hl, -, -⟩ := (loop_emits hready₄.valid hstart.zeroCached hstart.countAvailable
    hstart.oneAvailable (fun ctx₅ hctx₅ ctx₆ hrun => by
      have l₅ : Local ctx₄.program ctx₅.program := hctx₅ ▸ (openLoop_spec hready₄.valid _ _ _).loc
      exact probeBody_emits he (hctx₅ ▸ openLoop_ready hready₄.valid _ _ _) (hscope₄.mono l₅)
        (hstart.matchesAvailable.mono l₅) (hctx₅ ▸ loopIndex_available hready₄.valid _ _ _) hrun)
    hloop).grows hready₄.valid hready₄.isOpen
  obtain ⟨s₄, r₄, m₄, hmatches, hcount, hzero, hone⟩ := hruns (hl.toExtends.trans hfin.ext)
  have heff₄ : countedEffect (heap₁.hashTables j.hashTable).matchBuffer.length (fun i heap => do
      effect (← j.matchRow row heap i) heap) s₄.mem = some heap := m₄ ▸ heff
  have hrow₄ := hrow.reaches r₄ l₄
  obtain ⟨s₅, r₅, m₅⟩ := countedLoop_runs heap hready₄.valid hfin
    (fun b hb => (hpend b hb).trans_le l₄.blocks) r₄.consts hzero hcount hone
    (fun ctx₅ ctx₆ hr hl hav hrun =>
      probeBody_emits he hr (hscope₄.mono hl) (hstart.matchesAvailable.mono hl) hav hrun)
    (fun ctx₅ ctx₆ i s₅ heap₂ _ hb hrun hheap => by
      obtain ⟨row', hrow', heff'⟩ := Option.bind_eq_some_iff.mp hheap
      exact probeBody_runs he hp hb.ready (hscope₄.mono hb.loc) (hstart.matchesAvailable.mono hb.loc)
        hb.available (hrow₄.same_below hb.same hb.loc) (hmatches.same_below hb.same hb.loc) hb.index
        hb.consts hb.final hb.pending hrun hrow' heff')
    hloop heff₄
  exact ⟨s₅, r₄.trans r₅ l₄.size, m₅⟩

/-! ### The printer -/

lemma print_runs {self : Word} {outputIUs : List IU} {child : Nat} :
    ConsumerRuns C (printConsume self outputIUs) child (printEffect self outputIUs) := by
  intro ctx ctx' scope row s heap pending hready hscope hrow hc hfin _ h heff
  obtain ⟨-, vals, callArgs, ctx₁, hvals, hpad, rfl⟩ := run_printConsume h
  obtain ⟨ws, hws, heff⟩ := Option.bind_eq_some_iff.mp heff
  have a₁ := hready.addConstInt False self .ptr
  have a₂ := a₁.ready.addConstInt False (BitVec.ofNat 64 outputIUs.length) .int64
  have l₂ := a₁.loc.trans a₂.loc
  have hav := getAll_available hscope hvals
  have havs : ∀ r ∈ [(ctx.program.addConstInt self .ptr).1, ((ctx.program.addConstInt self .ptr).2.addConstInt
      (BitVec.ofNat 64 outputIUs.length) .int64).1] ++ vals.map SQLValue.valueRef,
      Available ((ctx.program.addConstInt self .ptr).2.addConstInt
        (BitVec.ofNat 64 outputIUs.length) .int64).2 r := by
    intro r hr
    rcases List.mem_append.mp hr with hr | hr
    · rcases List.mem_pair.mp hr with rfl | rfl
      · exact (addConstInt_available hready.valid _ _).mono a₂.loc
      · exact addConstInt_available a₁.ready.valid _ _
    · obtain ⟨v, hv, rfl⟩ := List.mem_map.mp hr
      exact (hav v hv).mono l₂
  obtain ⟨a₃, -⟩ := padWithZeros_advances False
    (show Ready (ctx.withProgram _).program from a₂.ready) havs hpad
  have e₄ : Extends (ctx₁.program.addCall .void .printRow callArgs).2 C.program := hfin.ext
  have e₃ : Extends ctx₁.program C.program := (emit_extends a₃.ready.valid rfl).trans e₄
  have e₂ := a₃.loc.toExtends.trans e₃
  have hvv := hrow.values hvals hws
  obtain ⟨s₁, r₁, m₁, k₁⟩ := addConstInt_computes hready.valid (a₂.loc.toExtends.trans e₂) hc
  obtain ⟨s₂, r₂, m₂, k₂⟩ := addConstInt_computes a₁.ready.valid e₂ r₁.consts
  have r₁₂ := r₁.trans r₂ a₁.loc.size
  obtain ⟨s₃, r₃, m₃, k₃⟩ := padWithZeros_computes (show Ready (ctx.withProgram _).program from a₂.ready)
    havs (ArgsHold.append (.cons (k₁.reaches r₂ a₂.loc) (.cons k₂ .nil)) (hvv.reaches r₁₂ l₂).args)
    r₂.consts e₃ hpad
  have hlen : 8 - vals.length = 2 + 8 - ([self, BitVec.ofNat 64 outputIUs.length] ++ ws).length := by
    have hws' : vals.length = ws.length := List.Forall₂.length_eq hvv
    simp only [List.length_append, List.length_cons, List.length_nil]
    omega
  obtain ⟨s₄, r₄, m₄, -⟩ := addCall_reaches a₃.ready.valid (t := .void) (v := .word 0) heap
    e₄ r₃.consts (by
      rw [k₃.regs, m₃, m₂, m₁, hlen]
      change callRuntime _ (([self, BitVec.ofNat 64 outputIUs.length] ++ ws).map Value.word ++ _) _ = _
      simp only [callRuntime, padded_toWord]
      rw [heff]
      rfl)
  exact ⟨s₄, (r₁₂.trans r₃ l₂.size).trans r₄ (l₂.trans a₃.loc).size, m₄⟩

/-! ### Operator trees -/

/-- The body of the loop over the rows. -/
def scanBody (scan : ScanTranslator) (parent : Consumer) (iPhi : IRValueRef) : Gen Unit := do
  let scope ← ScanTranslator.bindColumns iPhi (scan.colIUs.zip scan.table.columns) {}
  parent scope scan.id

lemma scanBody_emits {scan : ScanTranslator} {parent : Consumer} {iPhi : IRValueRef}
    (he : ConsumerEmits False parent) (hready : Ready ctx.program)
    (hav : Available ctx.program iPhi) (h : scanBody scan parent iPhi ctx = .ok ((), ctx')) :
    Emits False ctx.program ctx'.program := by
  obtain ⟨scope, ctx₁, hcols, hparent⟩ := run_bind_ok h
  obtain ⟨adv, hscope⟩ := bindColumns_advances False hready hav (fun _ _ hv => by cases hv) hcols
  exact adv.emits.trans (he ctx₁ ctx' scope scan.id adv.ready hscope hparent)

lemma scanBody_runs {scan : ScanTranslator} {parent : Consumer} {effect : Effect} {row : Row}
    {p : IRProgram} {s₀ : QueryState} {pending : List Nat} {i : Nat}
    (he : ConsumerEmits False parent) (hp : ConsumerRuns C parent scan.id effect)
    (hb : LoopBody C p s₀ pending i ctx ctx' s)
    (h : scanBody scan parent (.instr p.loopIndex) ctx = .ok ((), ctx'))
    (hrow : ScanTranslator.loadColumns s.mem i (scan.colIUs.zip scan.table.columns) (fun _ => none) =
      some row) (heff : effect row s.mem = some heap) :
    ∃ s', C.Reaches ctx.program s ctx'.program s' ∧ s'.mem = heap := by
  obtain ⟨scope, ctx₁, hcols, hparent⟩ := run_bind_ok h
  obtain ⟨adv, hscope⟩ := bindColumns_advances False hb.ready hb.available
    (fun _ _ hv => by cases hv) hcols
  obtain ⟨hl, -, -⟩ := (he _ _ _ _ adv.ready hscope hparent).grows adv.ready.valid adv.ready.isOpen
  obtain ⟨s₁, r₁, m₁, k₁⟩ := bindColumns_computes hb.ready hb.available (fun _ _ hv => by cases hv)
    hb.index (fun _ _ hv => by cases hv) hb.consts (hl.toExtends.trans hb.final.ext) hcols hrow
  rw [← m₁] at heff
  obtain ⟨s₂, r₂, m₂⟩ := hp ctx₁ ctx' scope row s₁ heap _ adv.ready hscope k₁ r₁.consts hb.final
    (fun b hb' => (hb.pending b hb').trans_le adv.loc.blocks) hparent heff
  exact ⟨s₂, r₁.trans r₂ adv.loc.size, m₂⟩

/-- The constants in front of the loop over `n` rows. -/
structure ScanStart (p₀ : IRProgram) (n : Word) (p : IRProgram) (zeroOff count one : Nat) : Prop where
  valid : Valid p
  isOpen : Open p
  loc : Local p₀ p
  zeroCached : p.constIntCache.lookup (constKey 0 .int64) = some zeroOff
  countAvailable : Available p (.instr count)
  oneAvailable : Available p (.instr one)
  computes : ∀ (C : Compiled) (s : QueryState), ConstRegs C.program s.regs → Extends p C.program →
    ∃ s', C.Reaches p₀ s p s' ∧ s'.mem = s.mem ∧ Holds p s' (.instr zeroOff) (.word 0) ∧
      Holds p s' (.instr count) (.word n) ∧ Holds p s' (.instr one) (.word 1)

lemma scanStart {p₀ : IRProgram} (hv : Valid p₀) (ho : Open p₀) (n : Word) :
    let p₁ := (p₀.addConstInt 0 .int64).2
    let p₂ := (p₁.addConstInt n .int64).2
    ScanStart p₀ n (p₂.addConstInt 1 .int64).2 (constOffset p₀ 0 .int64) (constOffset p₁ n .int64)
      (constOffset p₂ 1 .int64) := by
  intro p₁ p₂
  have hv₁ : Valid p₁ := addConstInt_valid hv 0 .int64
  have hv₂ : Valid p₂ := addConstInt_valid hv₁ n .int64
  have l₁ : Local p₀ p₁ := addConstInt_local hv 0 .int64
  have l₂ : Local p₁ p₂ := addConstInt_local hv₁ n .int64
  have l₃ := addConstInt_local hv₂ 1 .int64
  have hn := (addConstInt_available hv₁ n .int64).mono l₃
  have hone := addConstInt_available hv₂ 1 .int64
  rw [addConstInt_ref] at hn hone
  refine ⟨addConstInt_valid hv₂ 1 .int64, addConstInt_open hv₂ (addConstInt_open hv₁
    (addConstInt_open hv ho 0 .int64) n .int64) 1 .int64, (l₁.trans l₂).trans l₃,
    (l₂.trans l₃).cache _ _ (addConstInt_cache 0 .int64), hn, hone, fun C s hc e₃ => ?_⟩
  have e₂ := l₃.toExtends.trans e₃
  obtain ⟨s₁, r₁, m₁, k₁⟩ := addConstInt_computes hv (l₂.toExtends.trans e₂) hc
  obtain ⟨s₂, r₂, m₂, k₂⟩ := addConstInt_computes hv₁ e₂ r₁.consts
  obtain ⟨s₃, r₃, m₃, k₃⟩ := addConstInt_computes hv₂ e₃ r₂.consts
  rw [addConstInt_ref] at k₁ k₂ k₃
  exact ⟨s₃, (r₁.trans r₂ l₁.size).trans r₃ (l₁.trans l₂).size, by rw [m₃, m₂, m₁],
    (k₁.reaches r₂ l₂).reaches r₃ l₃, k₂.reaches r₃ l₃, k₃⟩

/-- Code generation for a scan reaches its loop over the rows. -/
lemma scanProduce_opens (scan : ScanTranslator) (parent : Consumer) (hv : Valid ctx.program)
    (ho : Open ctx.program) : ∃ p zeroOff count one,
      ScanStart ctx.program (BitVec.ofNat 64 scan.table.numRows) p zeroOff count one ∧
      scan.produce parent ctx = Gen.countedLoop (scan.table.name ++ "_scan") (.instr zeroOff)
        (.instr count) (.instr one) (scanBody scan parent) (ctx.withProgram p) := by
  refine ⟨_, _, _, _, scanStart hv ho _, ?_⟩
  rw [ScanTranslator.produce, run_bind_of_ok (run_addConstInt _ _),
    run_bind_of_ok (run_addConstInt _ _), run_bind_of_ok (run_addConstInt _ _)]
  simp only [program_withProgram, addConstInt_ref]
  rfl

lemma scan_runs {scan : ScanTranslator} {parent : Consumer} {effect : Effect}
    (he : ConsumerEmits False parent) (hp : ConsumerRuns C parent scan.id effect)
    (hv : Valid ctx.program) (ho : Open ctx.program) (hfin : Final C.program ctx'.program [])
    (hc : ConstRegs C.program s.regs) (h : scan.produce parent ctx = .ok ((), ctx'))
    (heff : scan.effect effect s.mem = some heap) :
    ∃ s', C.Reaches ctx.program s ctx'.program s' ∧ s'.mem = heap := by
  obtain ⟨p, zeroOff, count, one, hstart, hopens⟩ := scanProduce_opens scan parent hv ho
  have hloop := hopens.symm.trans h
  have hemits : Emits False p ctx'.program :=
    loop_emits hstart.valid hstart.zeroCached hstart.countAvailable hstart.oneAvailable
      (fun ctx₁ hctx₁ ctx₂ hrun => by
        have hready : Ready ctx₁.program := by
          rw [hctx₁]
          exact openLoop_ready hstart.valid _ _ _
        have hav : Available ctx₁.program (.instr p.loopIndex) := by
          rw [hctx₁]
          exact loopIndex_available hstart.valid _ _ _
        exact scanBody_emits he hready hav hrun) hloop
  obtain ⟨hl, -, -⟩ := hemits.grows hstart.valid hstart.isOpen
  obtain ⟨s₁, r₁, m₁, k₁, k₂, k₃⟩ := hstart.computes C s hc (hl.toExtends.trans hfin.ext)
  have hrun : countedEffect scan.table.numRows (fun i heap => do
      effect (← ScanTranslator.loadColumns heap i (scan.colIUs.zip scan.table.columns) fun _ => none)
        heap) s₁.mem = some heap := by
    rw [m₁]
    exact heff
  obtain ⟨s₂, r₂, m₂⟩ := countedLoop_runs heap hstart.valid hfin (by simp) r₁.consts k₁ k₂ k₃
    (fun ctx₁ ctx₂ hr _ hav hrun => scanBody_emits he hr hav hrun)
    (fun ctx₁ ctx₂ i s₂ heap₁ _ hb hrun hheap => by
      obtain ⟨row, hrow, hheap⟩ := Option.bind_eq_some_iff.mp hheap
      exact scanBody_runs he hp hb hrun hrow hheap)
    hloop hrun
  exact ⟨s₂, r₁.trans r₂ hstart.loc.size, m₂⟩

/-- The two inputs of every join are told apart. -/
def SidesDistinct : Operator → Prop
  | .scan _ => True
  | .select _ child _ => SidesDistinct child
  | .hashJoin _ build probe _ _ _ => build.id ≠ probe.id ∧ SidesDistinct build ∧ SidesDistinct probe

/-- The code of an operator tree has the effect its push semantics gives it. -/
theorem produce_runs (op : Operator) (hids : SidesDistinct op) {parent : Consumer} {effect : Effect}
    (he : ConsumerEmits False parent) (hp : ConsumerRuns C parent op.id effect)
    (hv : Valid ctx.program) (ho : Open ctx.program) (hfin : Final C.program ctx'.program [])
    (hc : ConstRegs C.program s.regs) (h : op.produce parent ctx = .ok ((), ctx'))
    (heff : op.effect C.arch effect s.mem = some heap) :
    ∃ s', C.Reaches ctx.program s ctx'.program s' ∧ s'.mem = heap := by
  induction op generalizing parent effect ctx ctx' s heap with
  | scan scan => exact scan_runs he hp hv ho hfin hc h heff
  | select id child pred ih =>
    exact ih hids (select_emits he False.elim) (select_runs he hp) hv ho hfin hc h heff
  | hashJoin id build probe buildKeys probeKeys ht ihb ihp =>
    obtain ⟨hne, hidb, hidp⟩ := hids
    obtain ⟨⟨⟩, ctx₁, hb, hprobe⟩ := run_bind_ok h
    obtain ⟨heap₁, hheap₁, heff⟩ := Option.bind_eq_some_iff.mp heff
    have e₁ := produce_emits build (join_emits he) False.elim hv ho hb
    obtain ⟨l₁, hv₁, ho₁⟩ := ((Emits.const _ _ _).trans e₁).grows hv ho
    have e₂ := produce_emits probe (join_emits he) False.elim hv₁ ho₁ hprobe
    obtain ⟨l₂, -, -⟩ := ((Emits.const _ _ _).trans e₂).grows hv₁ ho₁
    obtain ⟨s₁, r₁, m₁⟩ := ihb hidb (join_emits he) (buildSide_runs parent) hv ho
      (hfin.of_local l₂) hc hb hheap₁
    obtain ⟨s₂, r₂, m₂⟩ := ihp hidp (join_emits he) (probeSide_runs hne.symm he hp) hv₁ ho₁ hfin
      r₁.consts hprobe (m₁ ▸ heff)
    exact ⟨s₂, r₁.trans r₂ l₁.size, m₂⟩

end

end TidyTuples.Proofs
