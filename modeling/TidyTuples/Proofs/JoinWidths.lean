import TidyTuples.Proofs.Correctness

/-!
# How wide the rows of a hash join may be

The trampolines have four slots for keys and four for payloads. Up to this width a join hands every
column through; beyond it nothing rejects the row and the insertion reads behind its arrays.
-/

namespace TidyTuples.Proofs

/-- A tuple with these IUs, where the code of its consumer starts. -/
structure Arrival (C : Compiled) (ius : List IU) where
  ctx : CompilationContext
  scope : ConsumerScope
  row : Row
  state : QueryState
  ready : Ready ctx.program
  scopeOk : ScopeOk ctx.program scope
  binds : Binds scope ius
  holds : ScopeHolds ctx.program state scope row
  consts : ConstRegs C.program state.regs

/-- The widths of the join's rows are those its table was laid out for. -/
structure LaidOut (j : HashJoinTranslator) (heap : Heap) : Prop where
  numKeyFields : (heap.hashTables j.hashTable).numKeyFields = j.buildKeys.length
  numPayloadFields : (heap.hashTables j.hashTable).numPayloadFields = j.buildPayloadIUs.length

section

variable {C : Compiled} {outputs : List IU}

lemma Arrival.words (a : Arrival C outputs) {req : List IU}
    (hreq : ∀ iu ∈ req, iu.id ∈ outputs.map IU.id) : ∃ ws, a.row.words req = some ws := by
  induction req with
  | nil => exact ⟨[], rfl⟩
  | cons iu rest ih =>
    obtain ⟨v, hv⟩ := Option.isSome_iff_exists.mp ((a.binds iu.id).mpr (hreq iu List.mem_cons_self))
    obtain ⟨w, hw, -⟩ := a.holds iu.id v hv
    obtain ⟨ws, hws⟩ := ih fun iu' hiu' => hreq iu' (List.mem_cons_of_mem iu hiu')
    exact ⟨w :: ws, Row.words_cons.mpr ⟨w, ws, hw, hws, rfl⟩⟩

/-- The row is rejected with an error. -/
def Rejected (j : HashJoinTranslator) (a : Arrival C outputs) : Prop :=
  ∃ what, j.consumeBuildSide a.scope a.ctx = .error (.runtimeError what)

/-- The code runs to its end and stores the key and payload values of the row, and only these. -/
def Stored (j : HashJoinTranslator) (a : Arrival C outputs) : Prop :=
  ∃ fuel s' keys payload, C.run fuel (C.cursor a.ctx.program) a.state = .returned none s' ∧
    a.row.words j.buildKeys = some keys ∧ a.row.words j.buildPayloadIUs = some payload ∧
    s'.mem = a.state.mem.setHashTable j.hashTable
      (insertEntry (a.state.mem.hashTables j.hashTable) (C.arch.hashWords keys) ⟨keys, payload⟩)

/-- The memory after the lookup of a probe row. -/
def found (j : HashJoinTranslator) (buildRows : List Row) (p : Row) (heap : Heap) : Heap :=
  heap.setHashTable j.hashTable { heap.hashTables j.hashTable with
    matchBuffer := (matchesOf j buildRows p).map (entryOf j) }

end

/-- The code of the probe side hands its parent every build row with the keys of the probe row,
with all its columns as they were. -/
def HandsOn (j : HashJoinTranslator) (outputs : List IU) : Prop :=
  ∀ (C : Compiled) (ius : List IU) (a : Arrival C ius) (parent : Consumer) (effect : Effect)
    (buildRows : List Row) (ctx' : CompilationContext) (pending : List Nat) (heap : Heap),
    ConsumerEmits False parent → ConsumerRuns C parent j.id effect →
    (∀ row heap heap', effect row heap = some heap' →
      heap'.hashTables j.hashTable = heap.hashTables j.hashTable) →
    (∀ b ∈ buildRows, b.Over outputs) → buildRows.length < 2 ^ 63 →
    (∀ iu ∈ j.probeKeys, iu.id ∈ ius.map IU.id) → TableHolds C.arch j buildRows a.state.mem →
    Final C.program ctx'.program pending → (∀ b ∈ pending, b < a.ctx.program.blocks.length) →
    j.consumeProbeSide parent a.scope a.ctx = .ok ((), ctx') →
    (matchesOf j buildRows a.row).foldlM (fun heap b => effect (b.merge a.row) heap)
      (found j buildRows a.row a.state.mem) = some heap →
    ∃ s', C.Reaches a.ctx.program a.state ctx'.program s' ∧ s'.mem = heap

section

variable {C : Compiled} {outputs : List IU} {j : HashJoinTranslator}

/-- Code is generated whatever the widths. -/
lemma not_rejected (a : Arrival C outputs) (hkeys : ∀ iu ∈ j.buildKeys, iu.id ∈ outputs.map IU.id)
    (hpayload : ∀ iu ∈ j.buildPayloadIUs, iu.id ∈ outputs.map IU.id) :
    ¬ Rejected j a ∧ ∃ ctx', j.consumeBuildSide a.scope a.ctx = .ok ((), ctx') := by
  obtain ⟨⟨⟩, ctx', hrun, -, -⟩ := consumeBuildSide_lays a.binds hkeys hpayload a.ctx
  refine ⟨?_, ctx', hrun⟩
  rintro ⟨what, hwhat⟩
  rw [hrun] at hwhat
  cases hwhat

/-- What becomes of a build row, by its width. -/
lemma stored_iff (a : Arrival C outputs) (hkeys : ∀ iu ∈ j.buildKeys, iu.id ∈ outputs.map IU.id)
    (hpayload : ∀ iu ∈ j.buildPayloadIUs, iu.id ∈ outputs.map IU.id) (hlaid : LaidOut j a.state.mem)
    (hcode : ∀ ctx', j.consumeBuildSide a.scope a.ctx = .ok ((), ctx') →
      C.program = (ctx'.program.addReturn .null).2) :
    Stored j a ↔ j.buildKeys.length ≤ 4 ∧ j.buildPayloadIUs.length ≤ 4 := by
  obtain ⟨-, ctx', hrun⟩ := not_rejected a hkeys hpayload
  have hprog := hcode ctx' hrun
  obtain ⟨keys, hkw⟩ := a.words hkeys
  obtain ⟨payload, hpw⟩ := a.words hpayload
  have hklen := words_length hkw
  have hplen := words_length hpw
  have hins := insertFn_eq (C.arch.hashWords keys) (hlaid.numKeyFields.trans hklen.symm)
    (hlaid.numPayloadFields.trans hplen.symm)
  have e : Emits False a.ctx.program ctx'.program := buildSide_emits a.ready a.scopeOk hrun
  obtain ⟨-, hv', -⟩ := e.grows a.ready.valid a.ready.isOpen
  have hfin : Final C.program ctx'.program [] := final_return hv' hprog
  obtain ⟨q, args, s₁, hv, hl, hcall, r₁, m₁, hargs⟩ := buildSide_calls a.ready a.scopeOk a.holds
    a.consts hfin.ext hrun hkw hpw
  have hext := hfin.ext
  rw [hcall] at hext
  obtain ⟨n, hsteps⟩ := r₁.steps
  rw [hklen, hplen] at hins
  by_cases hfit : j.buildKeys.length ≤ 4 ∧ j.buildPayloadIUs.length ≤ 4
  · rw [if_pos hfit] at hins
    refine iff_of_true ?_ hfit
    obtain ⟨s₂, r₂, m₂, -⟩ := addCall_reaches hv _ hext r₁.consts (v := .word 0) (by
      rw [hargs, m₁]
      simp only [callRuntime, map_toWord_word]
      rw [hins]
      rfl)
    obtain ⟨m, hsteps₂⟩ := r₂.steps
    rw [← hcall] at hsteps₂
    refine ⟨0 + m + n, s₂, keys, payload, ?_, hkw, hpw, m₂⟩
    rw [hsteps, hsteps₂, run_return hv' hprog]
  · rw [if_neg hfit] at hins
    refine iff_of_false ?_ hfit
    rintro ⟨fuel, s', -, -, hret, -⟩
    have hstuck : C.run (fuel + n) (C.cursor a.ctx.program) a.state = .stuck s₁ := by
      rw [hsteps]
      refine run_stuck hv hext ?_ fuel
      rw [hargs, m₁]
      simp only [callRuntime, map_toWord_word]
      rw [hins]
      rfl
    rw [Compiled.run_mono n hret] at hstuck
    cases hstuck

/-- A loop over the positions of a list is one over the list. -/
lemma foldlM_range_eq (xs : List Row) (f : Row → Heap → Option Heap)
    (body : Nat → Heap → Option Heap) (I : Heap → Prop)
    (hI : ∀ x heap heap', I heap → f x heap = some heap' → I heap')
    (hbody : ∀ i (hi : i < xs.length) heap, I heap → body i heap = f xs[i] heap) {heap : Heap}
    (h : I heap) : (List.range xs.length).foldlM (fun heap i => body i heap) heap =
      xs.foldlM (fun heap x => f x heap) heap ∧
    ∀ heap', xs.foldlM (fun heap x => f x heap) heap = some heap' → I heap' := by
  induction xs using List.reverseRecOn with
  | nil =>
    refine ⟨rfl, fun heap' h' => ?_⟩
    cases h'
    exact h
  | append_singleton xs x ih =>
    obtain ⟨heq, hkeep⟩ := ih fun i hi heap hheap => by
      rw [hbody i (by simp; omega) heap hheap, List.getElem_append_left hi]
    rw [List.length_append, List.length_singleton, List.range_succ, List.foldlM_append,
      List.foldlM_append, heq]
    cases hxs : xs.foldlM (fun heap x => f x heap) heap with
    | none => exact ⟨rfl, fun heap' h' => by cases h'⟩
    | some heap₁ =>
      have hlast := hbody xs.length (by simp) heap₁ (hkeep heap₁ hxs)
      rw [List.getElem_append_right (Nat.le_refl _)] at hlast
      simp only [Nat.sub_self, List.getElem_cons_zero] at hlast
      refine ⟨?_, fun heap' h' => ?_⟩
      · simp [hlast]
      · have h'' : f x heap₁ = some heap' := by simpa using h'
        exact hI x heap₁ heap' (hkeep heap₁ hxs) h''

/-- The effect of a probe is that of its matches. -/
lemma probeEffect_eq {arch : Arch} (hfits : JoinFits j outputs)
    (hlen : j.buildKeys.length = j.probeKeys.length) {effect : Effect} {buildRows : List Row}
    (hkeep : ∀ row heap heap', effect row heap = some heap' →
      heap'.hashTables j.hashTable = heap.hashTables j.hashTable)
    (hrows : ∀ b ∈ buildRows, b.Over outputs) (hcount : buildRows.length < 2 ^ 63) {p : Row}
    {keys : List Word} (hkw : p.words j.probeKeys = some keys) {heap : Heap}
    (htable : TableHolds arch j buildRows heap) : j.probeEffect arch effect p heap =
      (matchesOf j buildRows p).foldlM (fun heap b => effect (b.merge p) heap)
        (found j buildRows p heap) := by
  have hlookup := lookup_matches hfits hlen hrows htable hkw
  have hmatches : (matchesOf j buildRows p).length ≤ buildRows.length := List.length_filter_le _ _
  have hbuffer : ((found j buildRows p heap).hashTables j.hashTable).matchBuffer =
      (matchesOf j buildRows p).map (entryOf j) := by
    rw [found, setHashTable_self]
  have hloop := (foldlM_range_eq (matchesOf j buildRows p) (fun b heap => effect (b.merge p) heap)
    (fun i heap => do effect (← j.matchRow p heap i) heap)
    (fun heap => (heap.hashTables j.hashTable).matchBuffer =
      (matchesOf j buildRows p).map (entryOf j))
    (fun b heap heap' hI heff => by rw [hkeep _ _ _ heff, hI])
    (fun i hi heap' hI => by
      have he : (heap'.hashTables j.hashTable).matchBuffer[i]? =
          some (entryOf j (matchesOf j buildRows p)[i]) := by
        rw [hI, List.getElem?_map, List.getElem?_eq_getElem hi]
        rfl
      rw [matchRow_eq hfits (hrows _ (List.mem_of_mem_filter (List.getElem_mem hi))) (by omega) he]
      rfl)
    hbuffer).1
  simp only [HashJoinTranslator.probeEffect, hkw]
  change (lookupAllFn heap (padTo (2 + 4) 0 ([j.hashTable, arch.hashWords keys] ++ keys))).bind
    (fun r => countedEffect (r.2.hashTables j.hashTable).matchBuffer.length
      (fun i heap => do effect (← j.matchRow p heap i) heap) r.2) = _
  rw [hlookup]
  change countedEffect ((found j buildRows p heap).hashTables j.hashTable).matchBuffer.length _
    (found j buildRows p heap) = _
  rw [hbuffer, List.length_map, countedEffect, if_pos (by omega), hloop]

lemma handsOn_of_fits (hfits : JoinFits j outputs) (hlen : j.buildKeys.length = j.probeKeys.length) :
    HandsOn j outputs := by
  intro C ius a parent effect buildRows ctx' pending heap he hp hkeep hrows hcount hkeys htable hfin
    hpend hrun hfold
  obtain ⟨keys, hkw⟩ := a.words hkeys
  have heff := probeEffect_eq hfits hlen hkeep hrows hcount hkw htable
  rw [hfold] at heff
  have hne : j.buildId + 1 ≠ j.buildId := Nat.succ_ne_self _
  refine probeSide_runs hne he hp a.ctx ctx' a.scope a.row a.state heap pending a.ready a.scopeOk
    a.holds a.consts hfin hpend ?_ heff
  unfold HashJoinTranslator.consume
  rw [if_neg hne]
  exact hrun

/-- A join rejects a row or hands its columns through exactly if there are slots for them. -/
theorem join_carries_iff (j : HashJoinTranslator) (a : Arrival C outputs)
    (hkeys : ∀ iu ∈ j.buildKeys, iu.id ∈ outputs.map IU.id)
    (hpayload : j.buildPayloadIUs = Operator.payloadIUs outputs j.buildKeys)
    (hlen : j.buildKeys.length = j.probeKeys.length) (hlaid : LaidOut j a.state.mem)
    (hcode : ∀ ctx', j.consumeBuildSide a.scope a.ctx = .ok ((), ctx') →
      C.program = (ctx'.program.addReturn .null).2) :
    Rejected j a ∨ Stored j a ∧ HandsOn j outputs ↔
      j.buildKeys.length ≤ 4 ∧ j.buildPayloadIUs.length ≤ 4 := by
  have hmem : ∀ iu ∈ j.buildPayloadIUs, iu.id ∈ outputs.map IU.id := by
    intro iu hiu
    rw [hpayload] at hiu
    exact List.mem_map_of_mem (List.mem_of_mem_filter hiu)
  have hstored := stored_iff a hkeys hmem hlaid hcode
  constructor
  · rintro (hrej | ⟨hst, -⟩)
    · exact absurd hrej (not_rejected a hkeys hmem).1
    · exact hstored.mp hst
  · intro hfit
    exact .inr ⟨hstored.mpr hfit, handsOn_of_fits ⟨hkeys, hpayload, hfit.1, hfit.2⟩ hlen⟩

end

/-! ### Rows of one key and `n` further columns -/

def wideOutputs (n : Nat) : List IU := (List.range (n + 1)).map fun i => ⟨"a.c", .integer, i⟩

def wideJoin (n : Nat) : HashJoinTranslator where
  id := 2
  buildId := 0
  buildKeys := [⟨"a.c", .integer, 0⟩]
  probeKeys := [⟨"b.y", .integer, 100⟩]
  buildPayloadIUs := Operator.payloadIUs (wideOutputs n) [⟨"a.c", .integer, 0⟩]
  hashTable := 16384

def wideHeap (n : Nat) : Heap where
  columns _ := []
  hashTables _ := { numKeyFields := 1, numPayloadFields := n }
  rows _ := []
  cells _ := 0

/-- Every column has the value 5. -/
def wideContext (n : Nat) : CompilationContext :=
  ⟨(queryProgram.addConstInt 5 .int64).2, wideHeap n, n + 1, 3⟩

def wideScope (n : Nat) : ConsumerScope :=
  ⟨fun id => if id ≤ n then some (.makeNonNull (.instr 0) .integer) else none⟩

def wideProgram (n : Nat) : IRProgram :=
  match (wideJoin n).consumeBuildSide (wideScope n) (wideContext n) with
  | .ok (_, ctx') => (ctx'.program.addReturn .null).2
  | .error _ => {}

def wideCompiled (n : Nat)
    (hfn : ((wideProgram n).functions[(wideProgram n).currentFnIdx]?).isSome = true)
    (hd : ConstsDenote (wideProgram n)) : Compiled where
  arch := .x86
  program := wideProgram n
  fn := ((wideProgram n).functions[(wideProgram n).currentFnIdx]?).get hfn
  isCurrent := (Option.some_get hfn).symm
  denotes := hd

lemma wideContext_ready (n : Nat) : Ready (wideContext n).program := by
  have hfresh : Fresh queryProgram := fun b hb => blockAt_of_length_le hb
  exact (Ready.addConstInt False ⟨queryProgram_valid, queryProgram_open, hfresh⟩ 5 .int64).ready

def wideArrival (n : Nat) (C : Compiled) (h : C.program.constIntValue (.instr 0) = some 5) :
    Arrival C (wideOutputs n) where
  ctx := wideContext n
  scope := wideScope n
  row := fun id => if id ≤ n then some 5 else none
  state := ⟨constFile C.program, wideHeap n, []⟩
  ready := wideContext_ready n
  scopeOk := by
    intro id v hv
    have hav : Available (wideContext n).program (.instr 0) :=
      addConstInt_available queryProgram_valid 5 .int64
    simp only [wideScope, Option.ite_none_right_eq_some, Option.some.injEq] at hv
    obtain ⟨-, rfl⟩ := hv
    exact ⟨rfl, hav⟩
  binds := by
    intro id
    have hmem : id ∈ (wideOutputs n).map IU.id ↔ id < n + 1 := by
      simp only [wideOutputs, List.map_map, Function.comp_def, List.map_id', List.mem_range]
    rw [hmem, Nat.lt_succ_iff]
    by_cases hid : id ≤ n
    · simp only [wideScope, hid, if_true, Option.isSome_some]
    · simp only [wideScope, hid, if_false, Option.isSome_none, Bool.false_eq_true]
  holds := by
    intro id v hv
    simp only [wideScope, Option.ite_none_right_eq_some, Option.some.injEq] at hv
    obtain ⟨hle, rfl⟩ := hv
    have hsize : 0 < (queryProgram.addConstInt 5 .int64).2.dataSize := by decide
    refine ⟨5, if_pos hle, 0, rfl, hsize, ?_⟩
    change constFile C.program (.instr 0) = .word 5
    rw [constFile, h]
    rfl
  consts := constRegs_constFile _

lemma wideProgram_eq {n : Nat} {ctx' : CompilationContext}
    (h : (wideJoin n).consumeBuildSide (wideScope n) (wideContext n) = .ok ((), ctx')) :
    wideProgram n = (ctx'.program.addReturn .null).2 := by
  rw [wideProgram, h]

/-- There is code for the join of `n` further columns. -/
def WideCode (n : Nat) (C : Compiled) : Prop :=
  C.program = wideProgram n ∧ C.program.constIntValue (.instr 0) = some 5

lemma WideCode.code {n : Nat} {C : Compiled} (hC : WideCode n C) (ctx' : CompilationContext)
    (h : (wideJoin n).consumeBuildSide (wideScope n) (wideContext n) = .ok ((), ctx')) :
    C.program = (ctx'.program.addReturn .null).2 :=
  hC.1.trans (wideProgram_eq h)

lemma wideCode_of {n : Nat} (hd : ConstsDenote (wideProgram n))
    (hfn : ((wideProgram n).functions[(wideProgram n).currentFnIdx]?).isSome = true)
    (hfive : (wideProgram n).constIntValue (.instr 0) = some 5) : ∃ C, WideCode n C :=
  ⟨wideCompiled n hfn hd, rfl, hfive⟩

lemma wideCode_one : ∃ C, WideCode 1 C :=
  wideCode_of (by decide +kernel) (by decide +kernel) (by decide +kernel)

lemma wideCode_five : ∃ C, WideCode 5 C :=
  wideCode_of (by decide +kernel) (by decide +kernel) (by decide +kernel)

/-- Two columns fit. -/
theorem join_carries_iff_twoColumns : ∃ (C : Compiled) (a : Arrival C (wideOutputs 1)),
    (Rejected (wideJoin 1) a ∨ Stored (wideJoin 1) a ∧ HandsOn (wideJoin 1) (wideOutputs 1)) ∧
      (wideJoin 1).buildPayloadIUs.length = 1 := by
  obtain ⟨C, hC⟩ := wideCode_one
  refine ⟨C, wideArrival 1 C hC.2, ?_, by decide⟩
  exact (join_carries_iff (wideJoin 1) (wideArrival 1 C hC.2) (by decide) rfl rfl ⟨rfl, rfl⟩
    hC.code).mpr (by decide)

/-- Six columns do not, and the row is not rejected. -/
theorem join_loses_sixColumns : ∃ (C : Compiled) (a : Arrival C (wideOutputs 5)),
    LaidOut (wideJoin 5) a.state.mem ∧
      (∀ ctx', (wideJoin 5).consumeBuildSide a.scope a.ctx = .ok ((), ctx') →
        C.program = (ctx'.program.addReturn .null).2) ∧
      ¬ (Rejected (wideJoin 5) a ∨ Stored (wideJoin 5) a ∧ HandsOn (wideJoin 5) (wideOutputs 5)) := by
  obtain ⟨C, hC⟩ := wideCode_five
  have hkeys : ∀ iu ∈ (wideJoin 5).buildKeys, iu.id ∈ (wideOutputs 5).map IU.id := by decide
  have hpayload : ∀ iu ∈ (wideJoin 5).buildPayloadIUs, iu.id ∈ (wideOutputs 5).map IU.id := by
    decide
  have hlaid : LaidOut (wideJoin 5) (wideArrival 5 C hC.2).state.mem := ⟨rfl, rfl⟩
  refine ⟨C, wideArrival 5 C hC.2, hlaid, hC.code, ?_⟩
  rintro (hrej | ⟨hst, -⟩)
  · exact (not_rejected _ hkeys hpayload).1 hrej
  · have hfit := (stored_iff _ hkeys hpayload hlaid hC.code).mp hst
    exact absurd hfit.2 (by decide)

end TidyTuples.Proofs
