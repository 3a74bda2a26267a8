import TidyTuples.Proofs.FoundColumns
import TidyTuples.Proofs.PlanResources

/-!
# Compiled statements

What planning and code generation leave behind for a statement, and what its code prints when the
tables are in memory.
-/

namespace TidyTuples

/-- The columns are in memory. -/
def FromEntries.Loaded (entries : FromEntries) (heap : Heap) : Prop :=
  ∀ x ∈ entries, ∀ col ∈ x.2.columns, heap.columns col.address = col.values

/-- The first `n` operators have hash tables of their own, and these are empty. -/
structure FreshTables (alloc : Nat → Word) (n : Nat) (heap : Heap) : Prop where
  apart : ∀ i < n, ∀ j < n, alloc i = alloc j → i = j
  empty : ∀ i < n, (heap.hashTables (alloc i)).buckets = fun _ => []

/-- The tables are stored as the code reads them: each column has a value a row and is in memory, and
the rows can be counted. -/
structure FromEntries.Stored (entries : FromEntries) (heap : Heap) : Prop where
  full : ∀ x ∈ entries, ∀ col ∈ x.2.columns, col.values.length = x.2.numRows
  countable : ∀ x ∈ entries, x.2.numRows < 2 ^ 63
  loaded : entries.Loaded heap

namespace Proofs

open QueryPlanner

/-- The plan of a statement and the code for it. The generator starts from `ctx`. -/
structure CompiledPlan (alloc : Nat → Word) (catalog : SQLCatalog) (printer : Word)
    (stmt : SelectStmt) (heap : Heap) (result : PlanResult) (scans : Scans) (cs : Conjuncts)
    (ctx ctx' : CompilationContext) : Prop where
  planned : PlanOf catalog stmt (initialContext heap) result scans cs
  program : ctx.program = queryProgram
  memory : ctx.heap = heap
  generated : generateCode result.root printer result.outputIUs ctx = .ok ((), ctx')
  tables : TablesOf alloc (3 * stmt.fromList.length) result.root

section

variable {alloc : Nat → Word} {catalog : SQLCatalog} {printer : Word} {stmt : SelectStmt} {heap : Heap}
  {result : PlanResult} {scans : Scans} {cs : Conjuncts} {ctx ctx' : CompilationContext}
  {entries : FromEntries}

lemma compileStmt_compiledPlan
    (h : compileStmt alloc catalog printer stmt (initialContext heap) = .ok (result, ctx')) :
    ∃ scans cs ctx, CompiledPlan alloc catalog printer stmt heap result scans cs ctx ctx' := by
  obtain ⟨ctx, hplan, hgen⟩ := run_compileStmt h
  obtain ⟨scans, cs, hof, hprogram, hheap⟩ := plan_spec hplan
  have htables := plan_tables hplan
  rw [show (initialContext heap).numOperators = 0 from rfl, Nat.zero_add] at htables
  exact ⟨scans, cs, ctx, hof, hprogram, hheap, hgen, htables⟩

/-- Where the first two aliases differ, what is compiled is in scope. -/
lemma CompiledPlan.inScope (h : CompiledPlan alloc catalog printer stmt heap result scans cs ctx ctx')
    (hjoin : ((stmt.fromList.map TableRef.aliasName).take 2).Nodup) :
    SidesDistinct result.root ∧ result.root.Scoped ∧ result.outputIUs.length ≤ 8 ∧
      ∀ iu ∈ result.outputIUs, iu.id ∈ result.root.outputIUs.map IU.id := by
  have hdistinct := h.planned.root.distinct (joinBase_joinOrder _ ▸ hjoin)
  exact ⟨hdistinct, (generateCode_ok_iff result.root printer result.outputIUs hdistinct
    (h.planned.root.raises fun _ _ _ => trivial) (h.program ▸ queryProgram_valid)
    (h.program ▸ queryProgram_open)).mp ⟨_, h.generated⟩⟩

lemma CompiledPlan.noEntries
    (h : CompiledPlan alloc catalog printer stmt heap result scans cs ctx ctx')
    (hfresh : FreshTables alloc (3 * stmt.fromList.length) heap) :
    ∀ ht ∈ result.root.tables, (ctx.heap.hashTables ht).buckets = fun _ => [] := by
  obtain ⟨ids, -, hlt, heq⟩ := h.tables
  intro ht hmem
  rw [heq] at hmem
  obtain ⟨id, hid, rfl⟩ := List.mem_map.mp hmem
  rw [h.memory]
  exact hfresh.empty id (hlt id hid)

lemma mem_of_mem_scanned {x : String × InMemoryTable} (hx : x ∈ entries.scanned) : x ∈ entries := by
  obtain ⟨before, after, hsplit, -⟩ := List.lookup_eq_some_iff.mp (mem_scanned.mp hx)
  have hmem : (x.1, x.2) ∈ entries.reverse := hsplit ▸ List.mem_append_right _ List.mem_cons_self
  exact List.mem_reverse.mp hmem

lemma CompiledPlan.fromScans
    (h : CompiledPlan alloc catalog printer stmt heap result scans cs ctx ctx')
    (hentries : stmt.entries catalog = .ok entries) (hwritable : stmt.Writable) :
    ∃ ctx₀, FromScans entries.scanned scans ctx₀ := by
  obtain ⟨ctx₀, hscans, -⟩ := h.planned.created
  exact ⟨ctx₀, fromScans_of_created hscans hentries hwritable⟩

lemma FromScans.countable (h : FromScans entries.scanned scans ctx) (hstored : entries.Stored heap) :
    CountableScans scans := fun a s hs =>
  have hmem := mem_of_mem_scanned (h.only a s hs)
  ⟨hstored.countable _ hmem, hstored.full _ hmem⟩

lemma FromScans.loaded (h : FromScans entries.scanned scans ctx) (hstored : entries.Stored heap) :
    LoadedScans scans heap := fun a s hs =>
  hstored.loaded _ (mem_of_mem_scanned (h.only a s hs))

lemma CompiledPlan.function
    (h : CompiledPlan alloc catalog printer stmt heap result scans cs ctx ctx') :
    ∃ fn, ctx'.program.functions[ctx'.program.currentFnIdx]? = some fn := by
  obtain ⟨ctx₁, hproduce, rfl⟩ := run_generateCode h.generated
  have hv : Valid ctx.program := h.program ▸ queryProgram_valid
  have ho : Open ctx.program := h.program ▸ queryProgram_open
  have e₁ : Emits False _ _ := produce_emits result.root (print_emits printer result.outputIUs)
    False.elim hv ho hproduce
  obtain ⟨-, hv₁, -⟩ := ((Emits.const _ _ _).trans e₁).grows hv ho
  exact ⟨_, List.getElem?_eq_getElem (emit_valid hv₁ (.ret .null)).fnIdx⟩

/-- The code of a compiled statement returns, and has printed the rows of its plan. -/
lemma CompiledPlan.prints (h : CompiledPlan alloc catalog printer stmt heap result scans cs ctx ctx')
    (hjoin : ((stmt.fromList.map TableRef.aliasName).take 2).Nodup)
    (hentries : stmt.entries catalog = .ok entries) (hwritable : stmt.Writable)
    (hstored : entries.Stored heap) (hfresh : FreshTables alloc (3 * stmt.fromList.length) heap)
    (hnarrow : result.root.Narrow) (hdenotes : ConstsDenote ctx'.program) (arch : Arch)
    {fn : IRFunction} (hfn : ctx'.program.functions[ctx'.program.currentFnIdx]? = some fn)
    {regs : IRValueRef → Value} (hregs : ConstRegs ctx'.program regs) :
    ∃ fuel s', ctx'.program.runFunction arch.machine fn fuel ⟨regs, ctx'.heap, []⟩ =
        .returned none s' ∧ (s'.mem.rows printer).map (·.map some) =
          (heap.rows printer).map (·.map some) ++ result.root.result result.outputIUs := by
  obtain ⟨ctx₀, hscans⟩ := h.fromScans hentries hwritable
  obtain ⟨hdistinct, hscoped, hwide, houtput⟩ := h.inScope hjoin
  have hloaded := hscans.loaded hstored
  rw [← h.memory] at hloaded
  have hprints := runFunction_prints arch result.root printer result.outputIUs h.program h.generated
    hdistinct (h.tables.nodup hfresh.apart) hscoped
    (h.planned.root.fits (hscans.countable hstored) hnarrow)
    (h.planned.root.loaded hloaded (h.noEntries hfresh)) hwide houtput hfn hdenotes hregs
  rwa [h.memory] at hprints

end

/-- Hash tables 256 bytes apart. -/
def spacedAlloc (id : Nat) : Word := 16384 + 256 * BitVec.ofNat 64 id

lemma spacedAlloc_fresh {n : Nat} (hn : n ≤ 12) {heap : Heap}
    (hempty : ∀ ht, (heap.hashTables ht).buckets = fun _ => []) : FreshTables spacedAlloc n heap := by
  have hapart : ∀ i < 12, ∀ j < 12, spacedAlloc i = spacedAlloc j → i = j := by decide
  exact ⟨fun i hi j hj => hapart i (Nat.lt_of_lt_of_le hi hn) j (Nat.lt_of_lt_of_le hj hn),
    fun i _ => hempty (spacedAlloc i)⟩

/-- The columns of `pairTable`. -/
def pairHeap : Heap :=
  { emptyHeap with columns := fun addr =>
      if addr = 4096 then [1, 2] else if addr = 4160 then [2, 7] else [] }

lemma pairTable_stored {entries : FromEntries} (h : ∀ x ∈ entries, x.2 = pairTable) :
    entries.Stored pairHeap := by
  constructor
  · intro x hx
    rw [h x hx]
    exact pairTable_wellFormed.full
  · intro x hx
    rw [h x hx]
    decide
  · intro x hx
    rw [h x hx]
    decide

end Proofs

end TidyTuples
