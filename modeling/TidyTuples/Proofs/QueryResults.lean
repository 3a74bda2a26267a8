import TidyTuples.Sql.RunQuery
import TidyTuples.Proofs.CompiledQueries
import TidyTuples.Proofs.CompiledPlans

/-!
# The result of a query

From the text of a statement to the rows that the machine code prints: they are the answer to the
statement, up to their order, under the names of the SELECT list, and as many as LIMIT allows.
-/

namespace TidyTuples

/-! ### The header -/

/-- The names a SELECT item gives its columns. -/
def SelectItem.names (entries : FromEntries) : SelectItem → List String
  | star => entries.flatMap fun x => x.2.columns.map Column.name
  | item (.colRef ref) aliasName => [if aliasName = "" then ref.colName else aliasName]
  | item _ _ => []

def SelectStmt.outputNames (stmt : SelectStmt) (entries : FromEntries) : List String :=
  stmt.selectList.flatMap (SelectItem.names entries)

/-- A statement over well-formed tables of fewer than 2^63 rows, under different aliases, with its
columns qualified and a boolean WHERE clause. -/
structure SelectStmt.Answerable (stmt : SelectStmt) (catalog : SQLCatalog) (entries : FromEntries) :
    Prop where
  aliases : (stmt.fromList.map TableRef.aliasName).Nodup
  found : stmt.entries catalog = .ok entries
  qualified : stmt.Qualified entries
  boolean : ∀ e ∈ stmt.whereExpr, e.isBoolean = true
  wellFormed : ∀ x ∈ entries, x.2.WellFormed
  countable : ∀ x ∈ entries, x.2.numRows < 2 ^ 63

/-- The code of the statement, if it compiles: its joins fit the slots of the runtime, its constants
are the ones asked for, and its run reads no register before it is written. -/
def RunsAsPlanned (arch : Arch) (alloc : Nat → Word) (catalog : SQLCatalog) (self : Word)
    (stmt : SelectStmt) (heap : Heap) (regs : VReg → Value) : Prop :=
  ∀ result ctx', compileStmt alloc catalog self stmt (initialContext (heap.newPrinter self)) =
    .ok (result, ctx') → result.root.Narrow ∧ Proofs.ConstsDenote ctx'.program ∧
      ∀ code, compiledCode ctx'.program.eliminateDeadCode = .ok code →
        arch.target.RunsClean code ⟨regs, ctx'.heap, []⟩

/-- The code of the statement, if it compiles, reads no register before it is written. -/
def CodeRunsClean (arch : Arch) (alloc : Nat → Word) (catalog : SQLCatalog) (self : Word)
    (stmt : SelectStmt) (heap : Heap) (regs : VReg → Value) : Prop :=
  ∀ result ctx' code, compileStmt alloc catalog self stmt (initialContext (heap.newPrinter self)) =
    .ok (result, ctx') → compiledCode ctx'.program.eliminateDeadCode = .ok code →
      arch.target.RunsClean code ⟨regs, ctx'.heap, []⟩

namespace Proofs

open QueryPlanner Translator

section

variable {catalog : SQLCatalog} {stmt : SelectStmt} {entries : FromEntries} {scans : Scans}
  {ctx ctx' : CompilationContext} {alloc : Nat → Word} {result : PlanResult}

lemma expandAlias_names {a : String} {s : ScanTranslator} (hs : scans.lookup a = some s)
    {ps : List (IU × String)} (h : expandAlias scans a = .ok ps) :
    ps.map Prod.snd = s.table.columns.map Column.name := by
  unfold expandAlias at h
  rw [hs] at h
  have hall := mapM_ok h
  clear h
  generalize s.table.columns = cols at hall
  induction hall with
  | nil => rfl
  | @cons col p cols ps hp _ ih =>
    rw [List.map_cons, List.map_cons, ih]
    cases hget : s.getIU col.name with
    | error e =>
      rw [hget] at hp
      cases hp
    | ok iu =>
      rw [hget] at hp
      cases hp
      rfl

lemma resolveItem_names (he : EntriesOf entries scans) {item : SelectItem}
    {ps : List (IU × String)} (h : resolveItem scans (entries.map Prod.fst) item = .ok ps) :
    ps.map Prod.snd = item.names entries := by
  cases item with
  | star =>
    obtain ⟨pss, rfl, hall⟩ := resolveStar_ok h
    have hlist := List.forall₂_map_right_iff.mp hall
    have hscan := he.scan
    clear h hall he
    unfold SelectItem.names
    induction hlist with
    | nil => rfl
    | @cons ps x pss entries hps _ ih =>
      obtain ⟨s, hs, htable⟩ := hscan x List.mem_cons_self
      rw [List.flatten_cons, List.map_append, List.flatMap_cons, expandAlias_names hs hps, htable,
        ih fun y hy => hscan y (List.mem_cons_of_mem x hy)]
  | item expr aliasName =>
    cases expr with
    | colRef ref =>
      dsimp only [resolveItem] at h
      cases hres : resolveColumn scans ref with
      | error e =>
        rw [hres] at h
        cases h
      | ok iu =>
        rw [hres] at h
        cases h
        rfl
    | intLit val => cases h
    | binOp op left right => cases h

lemma resolveSelectList_names (he : EntriesOf entries scans) {items : List SelectItem}
    {output : List (IU × String)}
    (h : resolveSelectList scans (entries.map Prod.fst) items = .ok output) :
    output.map Prod.snd = items.flatMap (SelectItem.names entries) := by
  obtain ⟨pss, rfl, hall⟩ := resolveSelectList_ok h
  clear h
  induction hall with
  | nil => rfl
  | cons hps _ ih =>
    rw [List.flatten_cons, List.map_append, List.flatMap_cons, resolveItem_names he hps, ih]

/-- The header of a plan. -/
lemma plan_names (h : plan alloc catalog stmt ctx = .ok (result, ctx'))
    (hnodup : (stmt.fromList.map TableRef.aliasName).Nodup)
    (hentries : stmt.entries catalog = .ok entries) :
    result.columnNames = stmt.outputNames entries := by
  obtain ⟨scans, ctx₁, hscans, h₁⟩ := run_bind_ok h
  obtain ⟨cs, ctx₂, -, h₂⟩ := run_bind_ok h₁
  obtain ⟨plans, ctx₃, -, h₃⟩ := run_bind_ok h₂
  obtain ⟨joined, ctx₄, -, h₄⟩ := run_bind_ok h₃
  obtain ⟨root, ctx₅, -, h₅⟩ := run_bind_ok h₄
  obtain ⟨output, ctx₆, hout, h₆⟩ := run_bind_ok h₅
  obtain ⟨houtput, -⟩ := run_ofExcept_ok hout
  obtain ⟨rfl, -⟩ := run_pure_ok h₆
  have he := (createScans_scansOf hscans).1.entriesOf hentries hnodup
  rw [← entries_aliases hentries] at houtput
  exact resolveSelectList_names he houtput

/-! ### The rows -/

/-- The code of a query is that of its first function. -/
lemma generateCode_fnIdx {root : Operator} {self : Word} {outputIUs : List IU}
    (hctx : ctx.program = queryProgram)
    (h : generateCode root self outputIUs ctx = .ok ((), ctx')) : ctx'.program.currentFnIdx = 0 := by
  obtain ⟨ctx₁, hproduce, rfl⟩ := run_generateCode h
  have hv : Valid ctx.program := hctx ▸ queryProgram_valid
  have ho : Open ctx.program := hctx ▸ queryProgram_open
  have e : Emits False _ _ :=
    produce_emits root (print_emits self outputIUs) False.elim hv ho hproduce
  have hl := (((Emits.const _ _ _).trans e).grows hv ho).1
  exact hl.fnIdx.trans (by rw [hctx]; rfl)

/-- What a query prints, by the time its code has returned. -/
lemma runQuery_of_returned {arch : Arch} {self : Word} {sql : String} {heap : Heap}
    {regs : VReg → Value} {code : List VInstr} {m : Nat} {v' : VState Value Heap}
    (hparse : parseSQL sql = .ok stmt)
    (h : compileStmt alloc catalog self stmt (initialContext (heap.newPrinter self)) =
      .ok (result, ctx')) (hcode : compiledCode ctx'.program.eliminateDeadCode = .ok code)
    (hrun : arch.target.runCode code m (.block 0) ⟨regs, ctx'.heap, []⟩ = .returned v') {fuel : Nat}
    (hfuel : m ≤ fuel) : runQuery arch alloc catalog self sql false heap regs fuel =
      .ok (some ⟨result.columnNames, applyLimit stmt.limit (v'.mem.rows self)⟩) := by
  have hlater := runCode_of_le hrun hfuel
  unfold runQuery
  simp only [hparse, h, hcode, bind, Except.bind, Bool.false_eq_true, ↓reduceIte, hlater]
  rfl

lemma runQuery_of_error {arch : Arch} {self : Word} {sql : String} {explain : Bool} {heap : Heap}
    {regs : VReg → Value} {e : CppError} (hparse : parseSQL sql = .ok stmt)
    (h : compileStmt alloc catalog self stmt (initialContext (heap.newPrinter self)) = .error e)
    (fuel : Nat) : runQuery arch alloc catalog self sql explain heap regs fuel = .error e := by
  unfold runQuery
  simp only [hparse, h, bind, Except.bind]

lemma mem_of_mem_applyLimit {limit : Word} {rows : List (List Word)} {row : List Word}
    (h : row ∈ applyLimit limit rows) : row ∈ rows := by
  unfold applyLimit at h
  split_ifs at h
  · exact List.mem_of_mem_take h
  · exact h

/-- The code of a query that is answered has returned, and the answer is what it has printed. -/
lemma returned_of_runQuery {arch : Arch} {self : Word} {sql : String} {heap : Heap}
    {regs : VReg → Value} {fuel : Nat} {table : QueryResult} (hparse : parseSQL sql = .ok stmt)
    (h : runQuery arch alloc catalog self sql false heap regs fuel = .ok (some table)) :
    ∃ result ctx' code v', compileStmt alloc catalog self stmt (initialContext (heap.newPrinter self)) =
        .ok (result, ctx') ∧ compiledCode ctx'.program.eliminateDeadCode = .ok code ∧
      arch.target.runCode code fuel (.block 0) ⟨regs, ctx'.heap, []⟩ = .returned v' ∧
      table = ⟨result.columnNames, applyLimit stmt.limit (v'.mem.rows self)⟩ := by
  cases hcompile : compileStmt alloc catalog self stmt (initialContext (heap.newPrinter self)) with
  | error e =>
    rw [runQuery_of_error hparse hcompile] at h
    cases h
  | ok r =>
    obtain ⟨result, ctx'⟩ := r
    unfold runQuery at h
    simp only [hparse, hcompile, bind, Except.bind, Bool.false_eq_true, ↓reduceIte] at h
    cases hcode : compiledCode ctx'.program.eliminateDeadCode with
    | error e =>
      rw [hcode] at h
      cases h
    | ok code =>
      rw [hcode] at h
      cases hrun : arch.target.runCode code fuel (.block 0) ⟨regs, ctx'.heap, []⟩ with
      | goto label v' =>
        simp only [hrun] at h
        cases h
      | stuck v' =>
        simp only [hrun] at h
        cases h
      | returned v' =>
        simp only [hrun] at h
        cases h
        exact ⟨result, ctx', code, v', rfl, hcode, hrun, rfl⟩

/-- The code of a plan whose code runs clean returns the rows of the plan. -/
lemma CompiledPlan.runQuery_returns {arch : Arch} {printer : Word} {sql : String} {heap : Heap}
    {regs : VReg → Value} {scans : Scans} {cs : Conjuncts}
    (h : CompiledPlan alloc catalog printer stmt (heap.newPrinter printer) result scans cs ctx ctx')
    (hcompile : compileStmt alloc catalog printer stmt (initialContext (heap.newPrinter printer)) =
      .ok (result, ctx')) (hparse : parseSQL sql = .ok stmt)
    (hjoin : ((stmt.fromList.map TableRef.aliasName).take 2).Nodup)
    (hentries : stmt.entries catalog = .ok entries)
    (hbool : ∀ e ∈ stmt.whereExpr, e.isBoolean = true) (hstored : entries.Stored heap)
    (hfresh : FreshTables alloc (3 * stmt.fromList.length) heap) (hnarrow : result.root.Narrow)
    (hdenotes : ConstsDenote ctx'.program)
    (hclean : ∀ code, compiledCode ctx'.program.eliminateDeadCode = .ok code →
      arch.target.RunsClean code ⟨regs, ctx'.heap, []⟩) :
    ∃ rows, rows.map (·.map some) = result.root.result result.outputIUs ∧ ∃ n, ∀ fuel ≥ n,
      runQuery arch alloc catalog printer sql false heap regs fuel =
        .ok (some ⟨result.columnNames, applyLimit stmt.limit rows⟩) := by
  have hwritable := parseSQL_writable hparse
  have hclass := classify_spec h.planned.classified
  obtain ⟨ctx₀, hscans⟩ := h.fromScans hentries hwritable
  obtain ⟨hdistinct, hscoped, hwide, houtput⟩ := h.inScope hjoin
  have hloaded : LoadedScans scans (heap.newPrinter printer) :=
    hscans.loaded ⟨hstored.full, hstored.countable, hstored.loaded⟩
  rw [← h.memory] at hloaded
  have hempty := h.noEntries ⟨hfresh.apart, hfresh.empty⟩
  obtain ⟨fn, hfn, hprints⟩ := compiledCode_prints arch result.root printer result.outputIUs ctx ctx'
    h.program h.generated (h.planned.root.boolean hclass (isBoolean_conjuncts hbool)) hdistinct
    (h.tables.nodup hfresh.apart) hscoped (h.planned.root.fits (hscans.countable hstored) hnarrow)
    (h.planned.root.loaded hloaded hempty) hwide houtput hdenotes
  rw [generateCode_fnIdx h.program h.generated] at hfn
  have hcode : compiledCode ctx'.program.eliminateDeadCode =
      .ok (translateFunction ctx'.program.eliminateDeadCode fn) := by
    unfold compiledCode
    rw [hfn]
  obtain ⟨m, v', hrun, hrows⟩ := hprints ⟨regs, ctx'.heap, []⟩ rfl rfl (hclean _ hcode)
  have hnone : ctx.heap.rows printer = [] := by
    rw [h.memory]
    exact Function.update_self ..
  rw [hnone, List.map_nil, List.nil_append] at hrows
  exact ⟨v'.mem.rows printer, hrows, m, fun fuel hfuel =>
    runQuery_of_returned hparse hcompile hcode hrun hfuel⟩

/-- A statement that compiles returns its answer. -/
lemma runQuery_of_compiled {arch : Arch} {self : Word} {sql : String} {heap : Heap}
    {regs : VReg → Value} (hparse : parseSQL sql = .ok stmt) (ha : stmt.Answerable catalog entries)
    (hloaded : entries.Loaded heap) (hfresh : FreshTables alloc (3 * stmt.fromList.length) heap)
    (hruns : RunsAsPlanned arch alloc catalog self stmt heap regs)
    (h : compileStmt alloc catalog self stmt (initialContext (heap.newPrinter self)) =
      .ok (result, ctx')) :
    ∃ rows, (rows.map (·.map some)).Perm (stmt.answer entries) ∧ ∃ n, ∀ fuel ≥ n,
      runQuery arch alloc catalog self sql false heap regs fuel =
        .ok (some ⟨stmt.outputNames entries, applyLimit stmt.limit rows⟩) := by
  obtain ⟨hnodup, hentries, hqual, hbool, hwf, hcountable⟩ := ha
  obtain ⟨hnarrow, hdenotes, hclean⟩ := hruns result ctx' h
  obtain ⟨ctx₁, hplan, -⟩ := run_compileStmt h
  obtain ⟨scans, cs, ctx, hcompiled⟩ := compileStmt_compiledPlan h
  have hjoin : ((stmt.fromList.map TableRef.aliasName).take 2).Nodup :=
    hnodup.sublist (List.take_sublist _ _)
  obtain ⟨rows, hrows, n, hrun⟩ := hcompiled.runQuery_returns h hparse hjoin hentries hbool
    ⟨fun x hx => (hwf x hx).full, hcountable, hloaded⟩ hfresh hnarrow hdenotes hclean
  refine ⟨rows, ?_, n, fun fuel hfuel => ?_⟩
  · rw [hrows]
    exact hcompiled.planned.answer hnodup hentries hwf hqual (hcompiled.inScope hjoin).2.1
  · rw [hrun fuel hfuel, plan_names hplan hnodup hentries]

/-- A statement over loaded tables is rejected, or returns its answer: under the names of the SELECT
list, the rows of the cross product that satisfy WHERE, in some order, up to LIMIT. -/
theorem runQuery_answers (arch : Arch) (alloc : Nat → Word) (catalog : SQLCatalog) (self : Word)
    (sql : String) (heap : Heap) (regs : VReg → Value) (stmt : SelectStmt) (entries : FromEntries)
    (hparse : parseSQL sql = .ok stmt) (ha : stmt.Answerable catalog entries)
    (hloaded : entries.Loaded heap) (hfresh : FreshTables alloc (3 * stmt.fromList.length) heap)
    (hruns : RunsAsPlanned arch alloc catalog self stmt heap regs) :
    (∃ e, ∀ fuel, runQuery arch alloc catalog self sql false heap regs fuel = .error e) ∨
    ∃ rows, (rows.map (·.map some)).Perm (stmt.answer entries) ∧ ∃ n, ∀ fuel ≥ n,
      runQuery arch alloc catalog self sql false heap regs fuel =
        .ok (some ⟨stmt.outputNames entries, applyLimit stmt.limit rows⟩) := by
  cases h : compileStmt alloc catalog self stmt (initialContext (heap.newPrinter self)) with
  | error e => exact .inl ⟨e, runQuery_of_error hparse h⟩
  | ok r => exact .inr (runQuery_of_compiled hparse ha hloaded hfresh hruns h)

end

def pointTable : InMemoryTable := ⟨"point", 1, [⟨"x", .integer, 4096, [2]⟩, ⟨"y", .integer, 4160, [2]⟩]⟩

def pointHeap : Heap :=
  { emptyHeap with columns := fun addr => if addr = 4096 ∨ addr = 4160 then [2] else [] }

def pointQuery : String := "SELECT a.x, b.y AS z FROM point a, point b WHERE a.y = b.x AND b.y > 1 LIMIT 5"

def pointStmt : SelectStmt where
  selectList := [.item (.colRef ⟨"a", "x"⟩) "", .item (.colRef ⟨"b", "y"⟩) "z"]
  fromList := [⟨"point", "a"⟩, ⟨"point", "b"⟩]
  whereExpr := some (.binOp .and (.binOp .eq (.colRef ⟨"a", "y"⟩) (.colRef ⟨"b", "x"⟩))
    (.binOp .gt (.colRef ⟨"b", "y"⟩) (.intLit 1)))
  limit := 5

lemma pointQuery_parses : parseSQL pointQuery = .ok pointStmt := by
  decide +kernel

lemma pointStmt_qualified : pointStmt.Qualified [("a", pointTable), ("b", pointTable)] where
  selectList := by
    intro ref href
    have : ref = ⟨"a", "x"⟩ ∨ ref = ⟨"b", "y"⟩ := by
      simpa [pointStmt, SelectStmt.outputColumns, SelectItem.columns, Expr.columns] using href
    rcases this with rfl | rfl
    · exact ⟨by decide, ("a", pointTable), by simp, rfl, by decide⟩
    · exact ⟨by decide, ("b", pointTable), by simp, rfl, by decide⟩
  whereExpr := by
    rintro e ⟨⟩ ref href
    have : ref = ⟨"a", "y"⟩ ∨ ref = ⟨"b", "x"⟩ ∨ ref = ⟨"b", "y"⟩ := by
      simpa [Expr.columns] using href
    rcases this with rfl | rfl | rfl
    · exact ⟨by decide, ("a", pointTable), by simp, rfl, by decide⟩
    · exact ⟨by decide, ("b", pointTable), by simp, rfl, by decide⟩
    · exact ⟨by decide, ("b", pointTable), by simp, rfl, by decide⟩

lemma pointStmt_answerable :
    pointStmt.Answerable [pointTable] [("a", pointTable), ("b", pointTable)] := by
  have hall : ∀ x ∈ [("a", pointTable), ("b", pointTable)], x.2 = pointTable := by
    intro x hx
    rcases List.mem_pair.mp hx with rfl | rfl <;> rfl
  refine ⟨by decide, by rfl, pointStmt_qualified, by decide, fun x hx => ?_, fun x hx => ?_⟩
  · rw [hall x hx]
    exact ⟨by decide, by decide, by decide⟩
  · rw [hall x hx]
    decide

lemma pointTable_loaded : FromEntries.Loaded [("a", pointTable), ("b", pointTable)] pointHeap := by
  unfold FromEntries.Loaded
  decide

lemma pointHeap_fresh : FreshTables spacedAlloc 6 pointHeap :=
  spacedAlloc_fresh (by decide) fun _ => rfl

/-- The joins are narrow, and the code is compiled and run without a register that is read before it
is written. -/
def plansClean (r : PlanResult × CompilationContext) : Bool :=
  decide r.1.root.Narrow && decide (ConstsDenote r.2.program) &&
    (compiledCode r.2.program.eliminateDeadCode).toOption.all fun code =>
      returnsClean .x86 code r.2.heap 20

lemma pointQuery_plansClean : (compileStmt spacedAlloc [pointTable] 8192 pointStmt
    (initialContext (pointHeap.newPrinter 8192))).toOption.all plansClean = true := by
  decide +kernel

lemma runsAsPlanned_of_plansClean {alloc : Nat → Word} {catalog : SQLCatalog} {self : Word}
    {stmt : SelectStmt} {heap : Heap}
    (h : (compileStmt alloc catalog self stmt (initialContext (heap.newPrinter self))).toOption.all
      plansClean = true) :
    RunsAsPlanned .x86 alloc catalog self stmt heap fun _ => .word 0 := by
  intro result ctx' hcompile
  rw [hcompile] at h
  obtain ⟨hpair, hcode⟩ := Bool.and_eq_true_iff.mp h
  obtain ⟨hnarrow, hdenotes⟩ := Bool.and_eq_true_iff.mp hpair
  refine ⟨of_decide_eq_true hnarrow, of_decide_eq_true hdenotes, fun code hok => ?_⟩
  dsimp only at hcode
  rw [hok] at hcode
  exact runsClean_of_returnsClean hcode

theorem runQuery_answers_point : ∃ n, ∀ fuel ≥ n,
    runQuery .x86 spacedAlloc [pointTable] 8192 pointQuery false pointHeap (fun _ => .word 0) fuel =
      .ok (some ⟨["x", "z"], [[2, 2]]⟩) := by
  rcases runQuery_answers .x86 spacedAlloc [pointTable] 8192 pointQuery pointHeap (fun _ => .word 0)
    pointStmt [("a", pointTable), ("b", pointTable)] pointQuery_parses pointStmt_answerable
    pointTable_loaded pointHeap_fresh (runsAsPlanned_of_plansClean pointQuery_plansClean) with ⟨e, herror⟩ | ⟨rows, hperm, hruns⟩
  · have hok : (runQuery .x86 spacedAlloc [pointTable] 8192 pointQuery false pointHeap
        (fun _ => .word 0) 0).isOk = true := by decide +kernel
    rw [herror 0] at hok
    cases hok
  · have hsome : rows.map (·.map some) = [[2, 2]].map (·.map some) :=
      List.perm_singleton.mp (hperm.trans (by decide))
    have hrows : rows = [[2, 2]] :=
      List.map_injective_iff.mpr (List.map_injective_iff.mpr (Option.some_injective Word)) hsome
    rw [hrows] at hruns
    exact hruns

end Proofs

end TidyTuples
