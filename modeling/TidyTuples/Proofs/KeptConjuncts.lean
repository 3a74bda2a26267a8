import TidyTuples.Proofs.KnownScans
import TidyTuples.Proofs.QueryConstants
import TidyTuples.Proofs.QueryResults
import TidyTuples.Proofs.SilentPlans

/-!
# Conjuncts that are kept

A conjunct that the plan enforces holds on every row that the code returns. The only conjuncts that are
lost are the filters of unknown names, and whether there is one is read off the statement.
-/

namespace TidyTuples.Proofs

open QueryPlanner IRProgram Translator

/-- The tuple combines a row of each scan. -/
def Combines (scans : Scans) (aliases : List String) (t : Row) : Prop :=
  ∀ a ∈ aliases, ∃ s, scans.lookup a = some s ∧ ∃ i < s.table.numRows,
    ∀ id ∈ idsOf scans a, t id = s.row i id

/-- The row is the output of a tuple of the scans on which every conjunct holds. -/
def KeptRow (stmt : SelectStmt) (scans : Scans) (result : PlanResult) (row : List Word) : Prop :=
  ∃ t, Combines scans (stmt.fromList.map TableRef.aliasName) t ∧
    (∀ c ∈ stmt.conjuncts, satisfies scans t c = true) ∧ row.map some = Row.values t result.outputIUs

/-- Where the code returns, every conjunct holds on each row it has printed. -/
def ReturnsKept (stmt : SelectStmt) (scans : Scans) (printer : Word) (result : PlanResult)
    (ctx' : CompilationContext) : Prop :=
  ∀ arch fn regs fuel v s', ctx'.program.functions[ctx'.program.currentFnIdx]? = some fn →
    ConstRegs ctx'.program regs →
    ctx'.program.runFunction (Arch.machine arch) fn fuel ⟨regs, ctx'.heap, []⟩ = .returned v s' →
    ∀ row ∈ s'.mem.rows printer, KeptRow stmt scans result row

/-- Planning or code generation throws, or every conjunct is enforced by an operator of the plan and
no row that fails one is returned. -/
def LosesNoConjunct (alloc : Nat → Word) (catalog : SQLCatalog) (printer : Word) (stmt : SelectStmt)
    (heap : Heap) : Prop :=
  Throws alloc catalog printer stmt (heap.newPrinter printer) ∨
  ∃ result ctx' scans ctx,
    compileStmt alloc catalog printer stmt (initialContext (heap.newPrinter printer)) =
      .ok (result, ctx') ∧
    createScans catalog stmt.fromList [] (initialContext (heap.newPrinter printer)) =
      .ok (scans, ctx) ∧
    (∀ c ∈ stmt.conjuncts, Enforces scans result.root c) ∧
    ReturnsKept stmt scans printer result ctx'

/-- Every conjunct holds on each row that the machine code of the query returns. -/
def AnswersKept (arch : Arch) (alloc : Nat → Word) (catalog : SQLCatalog) (printer : Word)
    (sql : String) (stmt : SelectStmt) (heap : Heap) (regs : VReg → Value) : Prop :=
  ∀ fuel table, runQuery arch alloc catalog printer sql false heap regs fuel = .ok (some table) →
    ∃ result ctx' scans ctx,
      compileStmt alloc catalog printer stmt (initialContext (heap.newPrinter printer)) =
        .ok (result, ctx') ∧
      createScans catalog stmt.fromList [] (initialContext (heap.newPrinter printer)) =
        .ok (scans, ctx) ∧
      ∀ row ∈ table.rows, KeptRow stmt scans result row

/-- The filters name FROM aliases only. -/
def FiltersKnown (stmt : SelectStmt) : Prop :=
  ∀ c ∈ stmt.conjuncts, ∀ a, conjunctAliases c = [a] → a ∈ stmt.fromList.map TableRef.aliasName

/-- No join key asks for an unknown alias, and the filters of a statement that is accepted name FROM
aliases. -/
def KeepsNames (catalog : SQLCatalog) (stmt : SelectStmt) : Prop :=
  ∀ entries, stmt.entries catalog = .ok entries → KeysKnown entries stmt.conjuncts ∧
    (stmt.Accepted entries.scanned → FiltersKnown stmt)

/-- Where a statement is accepted and not joined to itself, its build sides fit the slots of the
runtime and its constants are apart. -/
def FitsRuntime (alloc : Nat → Word) (catalog : SQLCatalog) (printer : Word) (stmt : SelectStmt) :
    Prop :=
  ∀ entries, stmt.entries catalog = .ok entries → stmt.Accepted entries.scanned →
    entries.scanned.Joinable → stmt.NarrowJoins entries.scanned ∧
      stmt.ConstantsApart entries.scanned alloc printer

section

variable {alloc : Nat → Word} {catalog : SQLCatalog} {printer : Word} {stmt : SelectStmt} {heap : Heap}
  {entries : FromEntries} {scans : Scans} {cs : Conjuncts} {ctx ctx' : CompilationContext}
  {conjs : List Expr} {order : List String} {root : Operator} {result : PlanResult}

/-- A row of a plan combines rows of the scans. -/
lemma Planned.combines (h : Planned scans cs order root) (hclass : Classified scans conjs cs)
    (hapart : ScansApart ctx scans)
    (hfull : ∀ a, ∀ t ∈ bagOf scans a, ∀ id ∈ idsOf scans a, (t id).isSome) {t : Row}
    (ht : t ∈ root.rows) : Combines scans order t := by
  have hrow : RowOf scans cs conjs order t := by
    cases h with
    | bare hj _ => exact hj.rowOf hclass hapart hfull ht
    | filtered hj _ => exact hj.rowOf hclass hapart hfull (List.mem_of_mem_filter ht)
  intro a ha
  obtain ⟨op, u, hop, hu, hsame⟩ := hrow.scanned a ha
  obtain ⟨s, hs, hmem⟩ : ∃ s, scans.lookup a = some s ∧ u ∈ (Operator.scan s).rows := by
    cases hop with
    | bare hs => exact ⟨_, hs, hu⟩
    | filtered hs => exact ⟨_, hs, List.mem_of_mem_filter hu⟩
  obtain ⟨i, hi, rfl⟩ := List.mem_map.mp hmem
  exact ⟨s, hs, i, List.mem_range.mp hi, hsame⟩

/-- Two runs of the same code that return end in the same state. -/
lemma runBlocks_returned_eq {P : IRProgram} {arch : Arch} {fn : IRFunction} {src : Option Nat}
    {blk : Nat} {s s₁ s₂ : QueryState} {n m : Nat} {v₁ v₂ : Option Value}
    (h₁ : P.runBlocks arch.machine fn n src blk s = .returned v₁ s₁)
    (h₂ : P.runBlocks arch.machine fn m src blk s = .returned v₂ s₂) : s₁ = s₂ := by
  induction n generalizing m src blk s with
  | zero => cases h₁
  | succ n ih =>
    cases m with
    | zero => cases h₂
    | succ m =>
      rw [runBlocks] at h₁ h₂
      cases hstep : P.stepBlock arch.machine fn src blk s with
      | goto next s' =>
        rw [hstep] at h₁ h₂
        exact ih h₁ h₂
      | returned v s' =>
        rw [hstep] at h₁ h₂
        cases h₁
        cases h₂
        rfl
      | stuck s' =>
        rw [hstep] at h₁
        cases h₁

lemma CompiledPlan.returnsKept
    (h : CompiledPlan alloc catalog printer stmt (heap.newPrinter printer) result scans cs ctx ctx')
    (hentries : stmt.entries catalog = .ok entries) (hwritable : stmt.Writable)
    (hstored : entries.Stored heap) (hfresh : FreshTables alloc (3 * stmt.fromList.length) heap)
    (hruns : entries.scanned.Joinable → result.root.Narrow ∧ ConstsDenote ctx'.program)
    (hholds : ∀ t ∈ result.root.rows, Combines scans (stmt.fromList.map TableRef.aliasName) t ∧
      ∀ c ∈ stmt.conjuncts, satisfies scans t c = true) :
    ReturnsKept stmt scans printer result ctx' := by
  have hjoinable : entries.scanned.Joinable ↔ ((stmt.fromList.map TableRef.aliasName).take 2).Nodup := by
    rw [FromEntries.Joinable, scanned_aliases, entries_aliases hentries]
  have hnone : (heap.newPrinter printer).rows printer = [] := Function.update_self ..
  intro arch fn regs fuel v s' hfn hregs hrun row hrow
  by_cases hjoin : entries.scanned.Joinable
  · obtain ⟨hnarrow, hdenotes⟩ := hruns hjoin
    obtain ⟨fuel', s₁, hrun', hrows⟩ := h.prints (hjoinable.mp hjoin) hentries hwritable
      ⟨hstored.full, hstored.countable, hstored.loaded⟩ ⟨hfresh.apart, hfresh.empty⟩ hnarrow hdenotes
      arch hfn hregs
    rw [← runBlocks_returned_eq hrun hrun'] at hrows
    rw [hnone, List.map_nil, List.nil_append] at hrows
    have hmem : row.map some ∈ result.root.result result.outputIUs :=
      hrows ▸ List.mem_map_of_mem hrow
    obtain ⟨t, ht, hvalues⟩ := List.mem_map.mp hmem
    exact ⟨t, (hholds t ht).1, (hholds t ht).2, hvalues.symm⟩
  · have hsilent := h.silent (fun hnodup => hjoin (hjoinable.mpr hnodup)) arch fn fuel regs
    rw [hrun] at hsilent
    change s'.mem.rows = _ at hsilent
    rw [hsilent, hnone] at hrow
    cases hrow

/-- What holds of the rows that the function prints holds of those that its machine code prints. -/
lemma LosesNoConjunct.answersKept {arch : Arch} {sql : String} {regs : VReg → Value}
    (h : LosesNoConjunct alloc catalog printer stmt heap) (hparse : parseSQL sql = .ok stmt)
    (hbool : ∀ e ∈ stmt.whereExpr, e.isBoolean = true)
    (hclean : CodeRunsClean arch alloc catalog printer stmt heap regs) :
    AnswersKept arch alloc catalog printer sql stmt heap regs := by
  intro fuel table hanswer
  obtain ⟨result, ctx', code, v', hrun, hcode, hcoderun, rfl⟩ := returned_of_runQuery hparse hanswer
  rcases h with ⟨e, herr, -⟩ | ⟨result', ctx'', scans, ctx, hrun', hscans, -, hkept⟩
  · rw [hrun] at herr
    cases herr
  · rw [hrun] at hrun'
    cases hrun'
    refine ⟨result, ctx', scans, ctx, hrun, hscans, fun row hrow => ?_⟩
    obtain ⟨scans', cs, ctx₀, hcompiled⟩ := compileStmt_compiledPlan hrun
    obtain ⟨fn, hfn⟩ := hcompiled.function
    have hroot := hcompiled.planned.root.boolean (classify_spec hcompiled.planned.classified)
      (isBoolean_conjuncts hbool)
    have helim : compiledCode ctx'.program.eliminateDeadCode =
        .ok (translateFunction ctx'.program.eliminateDeadCode (eliminated ctx'.program fn)) := by
      have hfn' := eliminated_functions hfn
      rw [generateCode_fnIdx hcompiled.program hcompiled.generated] at hfn'
      unfold compiledCode
      rw [hfn']
    rw [helim] at hcode
    cases hcode
    obtain ⟨n, value, s', hreturns, hmem⟩ := runFunction_of_returned arch result.root printer
      result.outputIUs ctx₀ ctx' hcompiled.program hcompiled.generated hroot hfn rfl rfl
      (hclean _ _ _ hrun helim) hcoderun
    apply hkept arch fn _ n value s' hfn (constRegs_constFile _) hreturns
    rw [hmem]
    exact mem_of_mem_applyLimit hrow

/-- The aliases of an accepted statement, if its filters are known. -/
lemma KeepsNames.known (h : KeepsNames catalog stmt) (hentries : stmt.entries catalog = .ok entries)
    (haccepted : stmt.Accepted entries.scanned) : KnownAliases stmt := by
  have haliases : entries.scanned.map Prod.fst = stmt.fromList.map TableRef.aliasName :=
    (scanned_aliases entries).trans (entries_aliases hentries)
  rintro c hc (hone | hkey) a ha
  · obtain ⟨b, hb⟩ := List.length_eq_one_iff.mp hone
    rw [hb, List.mem_singleton] at ha
    exact (h entries hentries).2 haccepted c hc a (ha ▸ hb)
  · obtain ⟨hne, ref, href, rfl⟩ := mem_conjunctAliases.mp ha
    obtain ⟨a, hfinds⟩ := (haccepted.conjuncts c hc).key hkey ref href
    rw [hfinds.qualified hne, ← haliases]
    exact finds_alias hfinds

/-- A conjunct that is enforced has known aliases, if it is a filter. -/
lemma CompiledPlan.filtersKnown
    (h : CompiledPlan alloc catalog printer stmt heap result scans cs ctx ctx')
    (henforces : ∀ c ∈ stmt.conjuncts, Enforces scans result.root c) : FiltersKnown stmt := by
  intro c hc a hone
  by_contra hout
  rw [← (joinOrder_perm _).mem_iff] at hout
  exact h.planned.root.loses (classify_spec h.planned.classified) hone hout (henforces c hc)

end

lemma pointStmt_conjuncts : pointStmt.conjuncts =
    [.binOp .eq (.colRef ⟨"a", "y"⟩) (.colRef ⟨"b", "x"⟩),
      .binOp .gt (.colRef ⟨"b", "y"⟩) (.intLit 1)] := rfl

/-- `SELECT p.x FROM pair p WHERE z.y = 5` -/
def filterStmt : SelectStmt where
  selectList := [.item (.colRef ⟨"p", "x"⟩) ""]
  fromList := [⟨"pair", "p"⟩]
  whereExpr := some (.binOp .eq (.colRef ⟨"z", "y"⟩) (.intLit 5))
  limit := noLimit

end TidyTuples.Proofs
