import TidyTuples.Proofs.Pipelines
import TidyTuples.Proofs.ControlFlow

/-!
# The code of a query prints its rows
-/

namespace TidyTuples

/-- The columns are in memory and the hash tables are empty. -/
def Operator.Loaded : Operator → Heap → Prop
  | scan s, heap => ∀ col ∈ s.table.columns, heap.columns col.address = col.values
  | select _ child _, heap => child.Loaded heap
  | hashJoin _ build probe _ _ hashTable, heap => build.Loaded heap ∧ probe.Loaded heap ∧
      (heap.hashTables hashTable).buckets = fun _ => []

namespace Proofs

/-! ### The tables after code generation -/

lemma SameOutside.loaded {op : Operator} {tables : List Word} {heap heap' : Heap}
    (h : SameOutside tables heap heap') (hdis : ∀ ht ∈ op.tables, ht ∉ tables)
    (hl : op.Loaded heap) : op.Loaded heap' := by
  induction op with
  | scan scan =>
    intro col hcol
    rw [h.columns]
    exact hl col hcol
  | select id child pred ih => exact ih hdis hl
  | hashJoin id build probe buildKeys probeKeys ht ihb ihp =>
    obtain ⟨hb, hp, hempty⟩ := hl
    refine ⟨ihb (fun ht' hmem => hdis ht' (List.mem_cons_of_mem ht (List.mem_append_left _ hmem))) hb,
      ihp (fun ht' hmem => hdis ht' (List.mem_cons_of_mem ht (List.mem_append_right _ hmem))) hp, ?_⟩
    rw [h.hashTables ht (hdis ht List.mem_cons_self)]
    exact hempty

lemma setNumKeyFields_same (heap : Heap) (ht : Word) (n : Nat) :
    SameOutside [ht] heap (heap.setNumKeyFields ht n) := sameOutside_setHashTable _ _ _

lemma setNumPayloadFields_same (heap : Heap) (ht : Word) (n : Nat) :
    SameOutside [ht] heap (heap.setNumPayloadFields ht n) := sameOutside_setHashTable _ _ _

lemma setHashTable_buckets {heap : Heap} {ht : Word} {table : RuntimeHashTable}
    (h : table.buckets = (heap.hashTables ht).buckets) (ht' : Word) :
    ((heap.setHashTable ht table).hashTables ht').buckets = (heap.hashTables ht').buckets := by
  by_cases heq : ht' = ht
  · rw [heq, setHashTable_self, h]
  · rw [(sameOutside_setHashTable heap ht table).hashTables ht' (by simpa using heq)]

lemma layout_buckets {heap : Heap} {ht ht' : Word} {n : Nat} {bs : Fin numBuckets → List HTEntry}
    (h : (heap.hashTables ht').buckets = bs) :
    ((heap.setNumKeyFields ht n).hashTables ht').buckets = bs ∧
      ((heap.setNumPayloadFields ht n).hashTables ht').buckets = bs := by
  rw [Heap.setNumKeyFields, Heap.setNumPayloadFields, setHashTable_buckets (by rfl),
    setHashTable_buckets (by rfl)]
  exact ⟨h, h⟩

lemma layoutBuild_same (j : HashJoinTranslator) (heap : Heap) :
    SameOutside [j.hashTable] heap (j.layoutBuild heap) :=
  (setNumKeyFields_same heap _ _).trans (setNumPayloadFields_same _ _ _)

lemma layout_same (op : Operator) {f : Heap → Heap} {own : List Word}
    (hf : ∀ heap, SameOutside own heap (f heap)) (heap : Heap) :
    SameOutside (own ++ op.tables) heap (op.layout f heap) := by
  apply layout_invariant op (P := SameOutside (own ++ op.tables) heap)
  · exact fun heap' h => h.trans ((hf heap').mono fun ht hmem => List.mem_append_left _ hmem)
  · intro ht hmem heap' n h
    have hsub : ∀ ht' ∈ [ht], ht' ∈ own ++ op.tables := fun ht' hin => by
      rw [List.mem_singleton.mp hin]
      exact List.mem_append_right _ hmem
    exact ⟨h.trans ((setNumKeyFields_same heap' ht n).mono hsub),
      h.trans ((setNumPayloadFields_same heap' ht n).mono hsub)⟩
  · exact .refl _ _

/-- The tables are laid out for the joins they belong to. -/
lemma layout_prepared (op : Operator) (hf : op.Fits) (htables : op.tables.Nodup) {f : Heap → Heap}
    {own : List Word} {heap : Heap} (hsame : ∀ heap, SameOutside own heap (f heap))
    (hown : ∀ ht ∈ op.tables, ht ∉ own) (hl : op.Loaded heap) :
    op.Prepared (op.layout f heap) := by
  induction op generalizing f own heap with
  | scan scan =>
    intro col hcol
    change (f heap).columns col.address = col.values
    rw [(hsame heap).columns]
    exact hl col hcol
  | select id child pred ih => exact ih hf htables hsame hown hl
  | hashJoin id build probe buildKeys probeKeys ht ihb ihp =>
    obtain ⟨hfb, hfp, hlen, -⟩ := hf
    obtain ⟨hlb, hlp, hempty⟩ := hl
    obtain ⟨hnot, hnodup⟩ := List.nodup_cons.mp htables
    obtain ⟨hnb, hnp, hdis⟩ := List.nodup_append.mp hnodup
    let j := HashJoinTranslator.of id build buildKeys probeKeys ht
    have hhtb : ht ∉ build.tables := fun hmem => hnot (List.mem_append_left _ hmem)
    have hhtp : ht ∉ probe.tables := fun hmem => hnot (List.mem_append_right _ hmem)
    have hhto : ht ∉ own := hown ht List.mem_cons_self
    have hownb : ∀ ht' ∈ build.tables, ht' ∉ own := fun ht' hmem =>
      hown ht' (List.mem_cons_of_mem _ (List.mem_append_left _ hmem))
    have hownp : ∀ ht' ∈ probe.tables, ht' ∉ own := fun ht' hmem =>
      hown ht' (List.mem_cons_of_mem _ (List.mem_append_right _ hmem))
    have hsame₁ := layout_same build (layoutBuild_same j) heap
    have hprep₁ := ihb hfb hnb (layoutBuild_same j)
      (fun ht' hmem hin => hhtb (by rwa [List.mem_singleton.mp hin] at hmem)) hlb
    have hkeys₁ : ((build.layout j.layoutBuild heap).hashTables ht).numKeyFields = buildKeys.length ∧
        ((build.layout j.layoutBuild heap).hashTables ht).numPayloadFields =
          (Operator.payloadIUs build.outputIUs buildKeys).length :=
      layout_final build (P := fun heap => (heap.hashTables ht).numKeyFields = buildKeys.length ∧
        (heap.hashTables ht).numPayloadFields =
          (Operator.payloadIUs build.outputIUs buildKeys).length)
        (fun heap => by
          simp [HashJoinTranslator.layoutBuild, Heap.setNumPayloadFields, Heap.setNumKeyFields, j,
            HashJoinTranslator.of]) heap
    have hempty₁ : ((build.layout j.layoutBuild heap).hashTables ht).buckets = fun _ => [] :=
      layout_invariant build (P := fun heap => (heap.hashTables ht).buckets = fun _ => [])
        (fun heap h => (layout_buckets (layout_buckets h).1).2)
        (fun ht' _ heap n h => layout_buckets h) hempty
    change Operator.Prepared _ (probe.layout (fun heap => f (heap.setNumKeyFields ht probeKeys.length))
      (build.layout j.layoutBuild heap))
    generalize build.layout j.layoutBuild heap = heap₁ at *
    have hf₂ : ∀ heap, SameOutside (ht :: own) heap (f (heap.setNumKeyFields ht probeKeys.length)) :=
      fun heap => ((setNumKeyFields_same heap ht _).mono (by simp)).trans
        ((hsame _).mono fun ht' hmem => List.mem_cons_of_mem _ hmem)
    have hsame₂ := layout_same probe hf₂ heap₁
    have hloaded₁ : probe.Loaded heap₁ := hsame₁.loaded (fun ht' hmem hin => by
      rcases List.mem_append.mp hin with hin | hin
      · exact hhtp (by rwa [List.mem_singleton.mp hin] at hmem)
      · exact hdis _ hin _ hmem rfl) hlp
    refine ⟨hsame₂.prepared (fun ht' hmem hin => ?_) hprep₁,
      ihp hfp hnp hf₂ (fun ht' hmem hin => ?_) hloaded₁, ?_⟩
    · simp only [List.cons_append, List.mem_cons, List.mem_append] at hin
      rcases hin with rfl | hin | hin
      · exact hhtb hmem
      · exact hownb ht' hmem hin
      · exact hdis _ hmem _ hin rfl
    · rcases List.mem_cons.mp hin with rfl | hin
      · exact hhtp hmem
      · exact hownp ht' hmem hin
    · apply layout_invariant probe (P := fun heap => (heap.hashTables ht).buckets = (fun _ => []) ∧
        (heap.hashTables ht).numKeyFields = buildKeys.length ∧
        (heap.hashTables ht).numPayloadFields =
          (Operator.payloadIUs build.outputIUs buildKeys).length)
      · rintro heap₂ ⟨hb, -, hp⟩
        rw [(hsame _).hashTables ht hhto, Heap.setNumKeyFields, setHashTable_self]
        exact ⟨hb, hlen.symm, hp⟩
      · intro ht' hmem heap₂ n hkeep
        have hne : ht ∉ [ht'] := fun hin => hhtp (List.mem_singleton.mp hin ▸ hmem)
        rw [(setNumKeyFields_same heap₂ ht' n).hashTables ht hne,
          (setNumPayloadFields_same heap₂ ht' n).hashTables ht hne]
        exact ⟨hkeep, hkeep⟩
      · exact ⟨hempty₁, hkeys₁⟩

/-! ### The function of a query -/

/-- A run from the entry block. -/
lemma runFunction_eq (C : Compiled) {p : IRProgram} (hcur : p.currentBlkIdx = 0)
    (hnil : p.blockAt 0 = []) (hb : 0 < C.program.blocks.length) (fuel : Nat) (s : QueryState) :
    C.program.runFunction C.arch.machine C.fn (fuel + 1) s =
      C.run fuel (C.cursor p) (s.emitEvent (.enter 0)) := by
  have hget : C.fn.blocks[0]? = some C.program.blocks[0] := by
    rw [← C.blocks_eq, List.getElem?_eq_getElem hb]
  have hat : C.program.blockAt 0 = C.program.blocks[0].instructions := by
    simp only [IRProgram.blockAt, List.getElem?_eq_getElem hb]
  have hcursor : C.cursor p = (0, C.program.blockAt 0) := by
    rw [cursor_of_nil (by rw [hcur, hnil]), hcur]
  rw [hcursor]
  simp only [IRProgram.runFunction, IRProgram.runBlocks, IRProgram.stepBlock, hget, Compiled.run, hat]
  cases C.program.execInstrs C.arch.machine 0 C.program.blocks[0].instructions
    (s.emitEvent (.enter 0)) <;> rfl

/-- The code of an operator tree, interpreted. -/
lemma runFunction_prints (arch : Arch) (root : Operator) (self : Word) (outputIUs : List IU)
    {ctx ctx' : CompilationContext} (hctx : ctx.program = queryProgram)
    (hgen : generateCode root self outputIUs ctx = .ok ((), ctx')) (hids : SidesDistinct root)
    (htables : root.tables.Nodup) (hscoped : root.Scoped) (hfits : root.Fits)
    (hloaded : root.Loaded ctx.heap) (hwide : outputIUs.length ≤ 8)
    (houtput : ∀ iu ∈ outputIUs, iu.id ∈ root.outputIUs.map IU.id) {fn : IRFunction}
    (hfn : ctx'.program.functions[ctx'.program.currentFnIdx]? = some fn)
    (hdenotes : ConstsDenote ctx'.program) {regs : IRValueRef → Value}
    (hregs : ConstRegs ctx'.program regs) :
    ∃ fuel s', ctx'.program.runFunction arch.machine fn fuel ⟨regs, ctx'.heap, []⟩ =
        .returned none s' ∧ (s'.mem.rows self).map (·.map some) =
          (ctx.heap.rows self).map (·.map some) ++ root.result outputIUs := by
  have hv : Valid ctx.program := hctx ▸ queryProgram_valid
  have ho : Open ctx.program := hctx ▸ queryProgram_open
  obtain ⟨ctx₁, hproduce, hheap⟩ := produce_lays root hids hscoped (print_emits self outputIUs)
    (print_lays hwide houtput) hv ho
  obtain ⟨ctx₂, hproduce₂, rfl⟩ := run_generateCode hgen
  rw [hproduce] at hproduce₂
  cases hproduce₂
  have e₁ : Emits False _ _ := produce_emits root (print_emits self outputIUs) False.elim hv ho hproduce
  obtain ⟨-, hv₁, -⟩ := ((Emits.const _ _ _).trans e₁).grows hv ho
  let C : Compiled := ⟨arch, (ctx₁.program.addReturn .null).2, fn, hfn, hdenotes⟩
  -- the push semantics prints the rows, and the code does what it does
  have hprepared : root.Prepared ctx₁.heap := by
    rw [hheap]
    exact layout_prepared root hfits htables (fun heap => .refl [] heap) (by simp) hloaded
  have hrows : ctx₁.heap.rows self = ctx.heap.rows self := by
    rw [hheap]
    exact layout_invariant root (P := fun heap => heap.rows self = ctx.heap.rows self)
      (fun _ h => h) (fun _ _ _ _ h => ⟨h, h⟩) rfl
  obtain ⟨heap', heff, hprinted, -⟩ := effect_accumulates arch root [] hscoped hfits htables (by simp)
    hprepared (print_accumulates self ((ctx.heap.rows self).map (·.map some)) hwide houtput)
    (by simp [hrows])
  obtain ⟨s₁, hreach, hmem⟩ := produce_runs (C := C)
    (s := ExecState.emitEvent ⟨regs, ctx₁.heap, []⟩ (.enter 0)) root hids
    (print_emits self outputIUs) print_runs hv ho (final_return hv₁ rfl) hregs hproduce heff
  obtain ⟨n, hsteps⟩ := hreach.steps
  have hlen : 0 < C.program.blocks.length :=
    Nat.zero_lt_of_lt (emit_valid hv₁ (.ret .null)).blkIdx
  refine ⟨n + 1, s₁, ?_, ?_⟩
  · refine (runFunction_eq C (p := ctx.program) (by rw [hctx]; rfl) (by rw [hctx]; rfl) hlen n
      ⟨regs, ctx₁.heap, []⟩).trans ?_
    have hn := hsteps 0
    rw [Nat.zero_add] at hn
    rw [hn, run_return hv₁ rfl]
  · rw [hmem, hprinted]
    rfl

/-- The code of an operator tree terminates and appends to the printed rows those of the list
semantics. -/
theorem generateCode_correct (arch : Arch) (root : Operator) (self : Word) (outputIUs : List IU)
    (ctx : CompilationContext) (hctx : ctx.program = queryProgram) (hids : SidesDistinct root)
    (htables : root.tables.Nodup) (hscoped : root.Scoped) (hfits : root.Fits)
    (hloaded : root.Loaded ctx.heap) (hwide : outputIUs.length ≤ 8)
    (houtput : ∀ iu ∈ outputIUs, iu.id ∈ root.outputIUs.map IU.id) :
    ∃ ctx' fn, generateCode root self outputIUs ctx = .ok ((), ctx') ∧
      ctx'.program.functions[ctx'.program.currentFnIdx]? = some fn ∧
      (ConstsDenote ctx'.program → ∀ regs, ConstRegs ctx'.program regs →
        ∃ fuel s', ctx'.program.runFunction arch.machine fn fuel ⟨regs, ctx'.heap, []⟩ =
            .returned none s' ∧
          (s'.mem.rows self).map (·.map some) =
            (ctx.heap.rows self).map (·.map some) ++ root.result outputIUs) := by
  have hv : Valid ctx.program := hctx ▸ queryProgram_valid
  have ho : Open ctx.program := hctx ▸ queryProgram_open
  obtain ⟨ctx₁, hproduce, -⟩ := produce_lays root hids hscoped (print_emits self outputIUs)
    (print_lays hwide houtput) hv ho
  have e₁ : Emits False _ _ := produce_emits root (print_emits self outputIUs) False.elim hv ho hproduce
  obtain ⟨-, hv₁, -⟩ := ((Emits.const _ _ _).trans e₁).grows hv ho
  let P := (ctx₁.program.addReturn .null).2
  have hvP : Valid P := emit_valid hv₁ _
  have hfn : P.functions[P.currentFnIdx]? = some (P.functions.get ⟨P.currentFnIdx, hvP.fnIdx⟩) :=
    List.getElem?_eq_getElem hvP.fnIdx
  have hgen : generateCode root self outputIUs ctx = .ok ((), ctx₁.withProgram P) := by
    rw [generateCode, run_bind_of_ok hproduce]
    rfl
  exact ⟨_, _, hgen, hfn, fun hdenotes regs hregs => runFunction_prints arch root self outputIUs hctx
    hgen hids htables hscoped hfits hloaded hwide houtput hfn hdenotes hregs⟩

instance (P : IRProgram) : Decidable (ConstsDenote P) :=
  inferInstanceAs (Decidable (∀ q ∈ P.constRequests, _))

/-- The registers that hold the constants and nothing else. -/
def constFile (P : IRProgram) : IRValueRef → Value := fun ref =>
  .word ((P.constIntValue ref).getD 0)

lemma constRegs_constFile (P : IRProgram) : ConstRegs P (constFile P) := by
  intro off w hw
  rw [constFile, hw]
  rfl

theorem generateCode_correct_sampleJoin : ∃ ctx' fn fuel s',
    generateCode sampleJoin 8192 [⟨"b.y", .integer, 1⟩] ⟨queryProgram, sampleHeap, 2, 4⟩ =
      .ok ((), ctx') ∧
    ctx'.program.functions[ctx'.program.currentFnIdx]? = some fn ∧
    ctx'.program.runFunction Arch.x86.machine fn fuel ⟨constFile ctx'.program, ctx'.heap, []⟩ =
      .returned none s' ∧ (s'.mem.rows 8192).map (·.map some) = [[some 5]] := by
  have hdenotes : ∀ ctx', generateCode sampleJoin 8192 [⟨"b.y", .integer, 1⟩]
      ⟨queryProgram, sampleHeap, 2, 4⟩ = .ok ((), ctx') → ConstsDenote ctx'.program := by
    have hall : (generateCode sampleJoin 8192 [⟨"b.y", .integer, 1⟩]
        ⟨queryProgram, sampleHeap, 2, 4⟩).toOption.all fun r => ConstsDenote r.2.program := by
      decide +kernel
    intro ctx' h
    rw [h] at hall
    exact of_decide_eq_true hall
  obtain ⟨ctx', fn, hgen, hfn, hrun⟩ := generateCode_correct Arch.x86 sampleJoin 8192
    [⟨"b.y", .integer, 1⟩] ⟨queryProgram, sampleHeap, 2, 4⟩ rfl
    (by simp [sampleJoin, SidesDistinct, Operator.id])
    (by simp [sampleJoin, Operator.tables])
    (by simp [sampleJoin, Operator.Scoped, Predicate.ResolvesIn, Expr.ResolvesIn, Operator.outputIUs,
      Operator.payloadIUs, ScanTranslator.colIUs])
    (by simp [sampleJoin, Operator.Fits, Operator.rows, Operator.outputIUs, Operator.payloadIUs,
      ScanTranslator.colIUs])
    (by simp [sampleJoin, sampleHeap, Operator.Loaded]) (by decide)
    (by simp [sampleJoin, Operator.outputIUs, ScanTranslator.colIUs])
  obtain ⟨fuel, s', hret, hrows⟩ := hrun (hdenotes ctx' hgen) (constFile ctx'.program)
    (constRegs_constFile _)
  exact ⟨ctx', fn, fuel, s', hgen, hfn, hret, hrows⟩

end Proofs

end TidyTuples
