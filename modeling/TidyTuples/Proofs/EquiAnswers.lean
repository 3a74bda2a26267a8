import TidyTuples.Proofs.KnownScans
import TidyTuples.Proofs.QueryConstants
import TidyTuples.Proofs.QueryResults

/-!
# The answers of equi-joins

Where every key of an equi-join has a column of the first two FROM entries, its code prints the answer,
as long as the build sides fit the slots of the runtime.
-/

namespace TidyTuples

namespace SelectStmt

variable (stmt : SelectStmt)

/-- Every conjunct has a column of one of the first two FROM entries. -/
def EndpointsFirst : Prop := ∀ c ∈ stmt.conjuncts,
  ∃ a ∈ (stmt.fromList.map TableRef.aliasName).take 2, a ∈ QueryPlanner.conjunctAliases c

instance : Decidable stmt.EndpointsFirst :=
  inferInstanceAs (Decidable (∀ c ∈ _, ∃ a ∈ _, _))

end SelectStmt

namespace Proofs

open QueryPlanner IRProgram

/-- The plan assigns every conjunct to a join, code is generated for it, and the code returns and has
printed the answer. -/
def JoinKeysInScope (alloc : Nat → Word) (catalog : SQLCatalog) (printer : Word) (stmt : SelectStmt)
    (heap : Heap) (entries : FromEntries) : Prop :=
  ∃ scans ctx₀ result ctx₁ ctx' fn,
    createScans catalog stmt.fromList [] (initialContext (heap.newPrinter printer)) =
      .ok (scans, ctx₀) ∧
    plan alloc catalog stmt (initialContext (heap.newPrinter printer)) = .ok (result, ctx₁) ∧
    (∀ c ∈ stmt.conjuncts, AssignedKey scans result.root c) ∧
    generateCode result.root printer result.outputIUs ctx₁ = .ok ((), ctx') ∧
    ctx'.program.functions[ctx'.program.currentFnIdx]? = some fn ∧
    ∀ arch regs, ConstRegs ctx'.program regs → ∃ fuel s',
      ctx'.program.runFunction (Arch.machine arch) fn fuel ⟨regs, ctx'.heap, []⟩ =
        .returned none s' ∧
      ((s'.mem.rows printer).map (·.map some)).Perm (stmt.answer entries)

/-- The machine code of the query returns the answer, cut to LIMIT rows. -/
def ReturnsAnswer (arch : Arch) (alloc : Nat → Word) (catalog : SQLCatalog) (printer : Word)
    (sql : String) (stmt : SelectStmt) (heap : Heap) (entries : FromEntries) (regs : VReg → Value) :
    Prop :=
  ∃ rows, (rows.map (·.map some)).Perm (stmt.answer entries) ∧ ∃ n, ∀ fuel ≥ n,
    runQuery arch alloc catalog printer sql false heap regs fuel =
      .ok (some ⟨stmt.outputNames entries, applyLimit stmt.limit rows⟩)

/-- The clause of an equi-join is boolean. -/
lemma equiJoin_boolean {stmt : SelectStmt} {entries : FromEntries} (h : stmt.EquiJoin entries) :
    ∀ e ∈ stmt.whereExpr, e.isBoolean = true := by
  intro e he
  apply isBoolean_of_flattenAnd
  intro c hc
  have hmem : c ∈ stmt.conjuncts := by
    unfold SelectStmt.conjuncts
    rw [Option.mem_def.mp he]
    exact hc
  obtain ⟨l, r, rfl, -⟩ := h.keys c hmem
  rfl

lemma JoinKeysInScope.endpoints {alloc : Nat → Word} {catalog : SQLCatalog} {printer : Word}
    {stmt : SelectStmt} {heap : Heap} {entries : FromEntries}
    (hscope : JoinKeysInScope alloc catalog printer stmt heap entries) (h : stmt.EquiJoin entries)
    (hentries : stmt.entries catalog = .ok entries) (hwf : ∀ x ∈ entries, x.2.WellFormed) :
    stmt.EndpointsFirst ∧ (stmt.outputColumns entries).length ≤ 8 := by
  obtain ⟨scans, ctx₀, result, ctx₁, cs, ctx₂, -, hplan, -, hequi, hv, ho⟩ :=
    equiJoin_plans h hentries hwf alloc (heap.newPrinter printer)
  obtain ⟨scans', ctx₀', result', ctx₁', ctx', fn, -, hplan', -, hgen, -⟩ := hscope
  rw [hplan] at hplan'
  cases hplan'
  obtain ⟨hscoped, hwide⟩ := (hequi.generates_iff printer hv ho).mp ⟨ctx', hgen⟩
  exact ⟨hequi.endpoint h hscoped, hequi.width ▸ hwide⟩

/-- `SELECT a.x FROM t a, ... WHERE l = r`, every FROM entry over the same table. -/
def equiStmt (tableName : String) (aliases : List String) (l r : ColumnRef) : SelectStmt where
  selectList := [.item (.colRef ⟨"a", "x"⟩) ""]
  fromList := aliases.map (⟨tableName, ·⟩)
  whereExpr := some (.binOp .eq (.colRef l) (.colRef r))
  limit := noLimit

/-- The same table under each alias. -/
def selfEntries (table : InMemoryTable) (aliases : List String) : FromEntries := aliases.map (·, table)

lemma mem_selfEntries {table : InMemoryTable} {aliases : List String} :
    ∀ x ∈ selfEntries table aliases, x.2 = table := by
  intro x hx
  obtain ⟨a, -, rfl⟩ := List.mem_map.mp hx
  rfl

lemma equiStmt_equiJoin {tableName : String} {table : InMemoryTable} {aliases : List String}
    (hnodup : aliases.Nodup) (ha : "a" ∈ aliases) (hx : "x" ∈ table.columns.map Column.name)
    {l r : ColumnRef} (hlr : l.tableAlias ≠ r.tableAlias)
    (hcols : ∀ ref ∈ [l, r], ref.tableAlias ∈ aliases ∧ ref.tableAlias ≠ "" ∧
      ref.colName ∈ table.columns.map Column.name) :
    (equiStmt tableName aliases l r).EquiJoin (selfEntries table aliases) := by
  have hhas : ∀ ref : ColumnRef, ref.tableAlias ∈ aliases → ref.tableAlias ≠ "" →
      ref.colName ∈ table.columns.map Column.name → (selfEntries table aliases).Has ref :=
    fun ref hmem hne hcol => ⟨hne, (ref.tableAlias, table), List.mem_map_of_mem hmem, rfl, hcol⟩
  constructor
  · rw [equiStmt, List.map_map]
    exact (List.map_id aliases).symm ▸ hnodup
  · intro hnil
    rw [equiStmt, List.map_eq_nil_iff] at hnil
    rw [hnil] at ha
    cases ha
  · constructor
    · intro ref href
      rw [List.mem_singleton.mp href]
      exact hhas _ ha (by simp) hx
    · rintro e ⟨⟩ ref href
      obtain ⟨hmem, hne, hcol⟩ := hcols ref href
      exact hhas ref hmem hne hcol
  · intro c hc
    exact ⟨l, r, List.mem_singleton.mp hc, hlr⟩
  · intro item hitem
    exact .inr ⟨_, _, List.mem_singleton.mp hitem⟩

lemma pairTable_selfEntries (aliases : List String) :
    ∀ x ∈ selfEntries pairTable aliases, x.2.WellFormed := fun x hx =>
  (mem_selfEntries x hx).symm ▸ pairTable_wellFormed

/-- `SELECT a.x FROM point a, point b WHERE a.y = b.x` -/
def pointEqui : SelectStmt := equiStmt "point" ["a", "b"] ⟨"a", "y"⟩ ⟨"b", "x"⟩

lemma pointEqui_plansClean : (compileStmt spacedAlloc [pointTable] 8192 pointEqui
    (initialContext (pointHeap.newPrinter 8192))).toOption.all plansClean = true := by
  decide +kernel

end Proofs

end TidyTuples
