import TidyTuples.Proofs.Rejection
import TidyTuples.Proofs.Resolution

/-!
# `SELECT *`

The star is expanded to the column names, and each name is looked up again among the IUs of the
scan: the first IU whose name ends in it is taken.
-/

namespace TidyTuples

/-- `SELECT * FROM tableName aliasName` -/
def selectStar (tableName aliasName : String) : SelectStmt where
  selectList := [.star]
  fromList := [⟨tableName, aliasName⟩]
  whereExpr := none
  limit := noLimit

/-- No column answers to the name of a later one. -/
def InMemoryTable.NamesApart (table : InMemoryTable) : Prop :=
  table.columns.Pairwise fun earlier later => ¬ table.Answers earlier later.name

namespace Proofs

open QueryPlanner

/-- The query is compiled to a scan of the table, every column name resolves to the IU that is
bound to its column, and the result are the rows of the table. -/
def StarExact (alloc : Nat → Word) (catalog : SQLCatalog) (self : Word) (heap : Heap)
    (aliasName : String) (table : InMemoryTable) : Prop :=
  ∃ (scan : ScanTranslator) (result : PlanResult) (ctx' : CompilationContext),
    compileStmt alloc catalog self (selectStar table.name aliasName) (initialContext heap) =
      .ok (result, ctx') ∧
    result.root = .scan scan ∧ scan.table = table ∧
    (∀ (i : Nat) (col : Column), table.columns[i]? = some col →
      ∃ iu, scan.colIUs[i]? = some iu ∧ scan.getIU col.name = .ok iu) ∧
    result.root.result result.outputIUs =
      (List.range table.numRows).map fun r => table.columns.map fun col => col.values[r]?

section

variable {scan : ScanTranslator} {i : Nat} {col : Column} {iu : IU}

/-! ### The IU of a name -/

lemma colIUs_getElem? : scan.colIUs[i]? = some iu ↔ ∃ col, scan.table.columns[i]? = some col ∧
    iu = ⟨scan.table.name ++ "." ++ col.name, col.type, scan.firstIU + i⟩ := by
  unfold ScanTranslator.colIUs
  rw [List.getElem?_mapIdx, Option.map_eq_some_iff]
  constructor
  · rintro ⟨col, hcol, rfl⟩
    exact ⟨col, hcol, rfl⟩
  · rintro ⟨col, hcol, rfl⟩
    exact ⟨col, hcol, rfl⟩

/-- The name of a column resolves to the column's IU exactly when no earlier column answers. -/
lemma getIU_own_iff (hcol : scan.table.columns[i]? = some col) (hiu : scan.colIUs[i]? = some iu) :
    scan.getIU col.name = .ok iu ↔ ∀ (k : Nat) (earlier : Column), k < i →
      scan.table.columns[k]? = some earlier →      ¬ scan.table.Answers earlier col.name := by
  have hlt := (List.getElem?_eq_some_iff.mp hiu).1
  obtain ⟨col', hcol', rfl⟩ := colIUs_getElem?.mp hiu
  rw [hcol] at hcol'
  cases hcol'
  unfold ScanTranslator.getIU
  constructor
  · intro hget k earlier hk hearlier hanswers
    split at hget
    · next hfind =>
      cases hget
      obtain ⟨-, j, hj, hj_eq, hbefore⟩ := List.find?_eq_some_iff_getElem.mp hfind
      obtain ⟨cj, -, hcj⟩ := colIUs_getElem?.mp (List.getElem?_eq_some_iff.mpr ⟨hj, rfl⟩)
      rw [hj_eq] at hcj
      have hji : j = i := by
        have hid := congrArg IU.id hcj
        dsimp only at hid
        omega
      have hk_eq := colIUs_getElem?.mpr ⟨earlier, hearlier, rfl⟩
      obtain ⟨hklt, hk_eq⟩ := List.getElem?_eq_some_iff.mp hk_eq
      have hnot := hbefore k (by omega)
      rw [hk_eq] at hnot
      simp only [Bool.not_eq_true'] at hnot
      rw [List.isSuffixOf_iff_suffix.mpr hanswers] at hnot
      cases hnot
    · cases hget
  · intro hearlier
    have hfind : scan.colIUs.find? (fun iu => ("." ++ col.name).toList.isSuffixOf iu.name.toList) =
        some ⟨scan.table.name ++ "." ++ col.name, col.type, scan.firstIU + i⟩ := by
      refine List.find?_eq_some_iff_getElem.mpr
        ⟨List.isSuffixOf_iff_suffix.mpr (answers_own _ col), i, hlt, (List.getElem?_eq_some_iff.mp hiu).2, ?_⟩
      intro k hk
      obtain ⟨ck, hck, hck_eq⟩ := colIUs_getElem?.mp
        (List.getElem?_eq_some_iff.mpr ⟨Nat.lt_trans hk hlt, rfl⟩)
      rw [hck_eq, Bool.not_eq_true', Bool.eq_false_iff]
      intro hsuffix
      exact hearlier k ck hk hck (List.isSuffixOf_iff_suffix.mp hsuffix)
    rw [hfind]

/-- A column is found under its own name, if not as itself. -/
lemma getIU_own_ok (hcol : col ∈ scan.table.columns) : ∃ iu, scan.getIU col.name = .ok iu :=
  getIU_ok_iff.mpr ⟨col, hcol, answers_own _ col⟩

/-! ### The plan -/

/-- The IUs that the column names resolve to. -/
lemma mapM_getIU (cols : List Column) (hcols : cols ⊆ scan.table.columns) :
    ∃ output, (cols.mapM fun col => do return (← scan.getIU col.name, col.name) :
        Except CppError (List (IU × String))) = .ok output ∧
      List.Forall₂ (fun col x => scan.getIU col.name = .ok x.1) cols output := by
  induction cols with
  | nil => exact ⟨[], rfl, .nil⟩
  | cons col rest ih =>
    obtain ⟨output, hrun, hall⟩ := ih fun c hc => hcols (List.mem_cons_of_mem col hc)
    obtain ⟨iu, hiu⟩ := getIU_own_ok (hcols List.mem_cons_self)
    refine ⟨(iu, col.name) :: output, ?_, .cons hiu hall⟩
    rw [List.mapM_cons, hrun, hiu]
    rfl

variable {alloc : Nat → Word} {catalog : SQLCatalog} {table : InMemoryTable} {aliasName : String}

/-- The plan is the bare scan; the output are the IUs that the names resolve to. -/
lemma plan_selectStar (hlookup : catalog.lookup table.name = .ok table) (ctx : CompilationContext) :
    ∃ output ctx', plan alloc catalog (selectStar table.name aliasName) ctx =
        .ok (⟨.scan ⟨ctx.numOperators, table, ctx.nextIUId⟩, output.map Prod.fst,
          output.map Prod.snd⟩, ctx') ∧ ctx'.program = ctx.program ∧
      List.Forall₂ (fun col x => ScanTranslator.getIU ⟨ctx.numOperators, table, ctx.nextIUId⟩ col.name =
        .ok x.1) table.columns output := by
  let scan : ScanTranslator := ⟨ctx.numOperators, table, ctx.nextIUId⟩
  let ctx₁ : CompilationContext := { ctx with
    numOperators := ctx.numOperators + 1
    nextIUId := ctx.nextIUId + table.columns.length }
  obtain ⟨output, hrun, hall⟩ := @mapM_getIU scan table.columns fun _ h => h
  have hself : ∀ x : String, (x == x) = true := fun x => beq_self_eq_true x
  have hscans : createScans catalog [⟨table.name, aliasName⟩] [] ctx =
      .ok ([(aliasName, scan)], ctx₁) := by
    rw [createScans, hlookup]
    rfl
  have hplan : planScan [(aliasName, scan)] {} aliasName ctx₁ = .ok (.scan scan, ctx₁) := by
    unfold planScan
    rw [List.lookup_cons, hself]
    rfl
  have hplans : planScans [(aliasName, scan)] {} [aliasName] [] ctx₁ =
      .ok ([(aliasName, .scan scan)], ctx₁) := by
    rw [planScans, run_bind_of_ok hplan]
    rfl
  have hjoined : joinTree alloc [] [(aliasName, .scan scan)] [aliasName] ctx₁ =
      .ok (.scan scan, ctx₁) := planAt_of_some (by rw [List.lookup_cons, hself])
  have hselect : resolveSelectList [(aliasName, scan)] [aliasName] [.star] = .ok output := by
    have hexpand : expandAlias [(aliasName, scan)] aliasName = .ok output := by
      unfold expandAlias
      rw [List.lookup_cons, hself]
      exact hrun
    unfold resolveSelectList
    rw [List.mapM_cons, resolveItem, List.mapM_cons, hexpand]
    change Except.ok (((output ++ []) ++ []) : List (IU × String)) = _
    rw [List.append_nil, List.append_nil]
  refine ⟨output, ctx₁, ?_, rfl, hall⟩
  unfold plan
  change (createScans catalog [⟨table.name, aliasName⟩] [] >>= _ : Gen PlanResult) ctx = _
  rw [run_bind_of_ok hscans]
  have hclass : Gen.ofExcept (classify [(aliasName, scan)] [aliasName] none) ctx₁ = .ok ({}, ctx₁) := rfl
  change (Gen.ofExcept (classify [(aliasName, scan)] [aliasName] none) >>= _ : Gen PlanResult) ctx₁ = _
  rw [run_bind_of_ok hclass]
  change (planScans [(aliasName, scan)] {} [aliasName] [] >>= _ : Gen PlanResult) ctx₁ = _
  rw [run_bind_of_ok hplans]
  change (joinTree alloc [] [(aliasName, .scan scan)] [aliasName] >>= _ : Gen PlanResult) ctx₁ = _
  rw [run_bind_of_ok hjoined]
  have hwrap : wrapPostJoin [(aliasName, scan)] {} (.scan scan) ctx₁ = .ok (.scan scan, ctx₁) := rfl
  rw [run_bind_of_ok hwrap]
  change (Gen.ofExcept (resolveSelectList [(aliasName, scan)] [aliasName] [.star]) >>= _ :
    Gen PlanResult) ctx₁ = _
  rw [hselect]
  rfl

/-- The values of a scan's own IUs are the columns of the table. -/
lemma scan_values (r : Nat) : (scan.row r).values scan.colIUs =
    scan.table.columns.map fun col => col.values[r]? := by
  apply List.ext_getElem?
  intro i
  unfold Row.values ScanTranslator.colIUs
  rw [List.getElem?_map, List.getElem?_mapIdx, List.getElem?_map]
  cases hcol : scan.table.columns[i]? with
  | none => rfl
  | some col =>
    change some (scan.row r (scan.firstIU + i)) = _
    unfold ScanTranslator.row
    rw [if_neg (by omega), Nat.add_sub_cancel_left, hcol]
    rfl

end

/-- A table is shown as it is by `SELECT *` if and only if no column answers to a later name. -/
theorem starExact_iff (alloc : Nat → Word) (catalog : SQLCatalog) (self : Word) (heap : Heap)
    (aliasName : String) (table : InMemoryTable) (hlookup : catalog.lookup table.name = .ok table)
    (hwide : table.columns.length ≤ 8) :
    StarExact alloc catalog self heap aliasName table ↔ table.NamesApart := by
  constructor
  · rintro ⟨scan, result, ctx', -, -, rfl, hown, -⟩
    unfold InMemoryTable.NamesApart
    rw [List.pairwise_iff_getElem]
    intro k i hk hi hlt
    obtain ⟨iu, hiu, hget⟩ := hown i _ (List.getElem?_eq_getElem hi)
    exact (getIU_own_iff (List.getElem?_eq_getElem hi) hiu).mp hget k _ hlt (List.getElem?_eq_getElem hk)
  · intro happart
    obtain ⟨output, ctx₁, hplan, hprogram, hall⟩ :=
      @plan_selectStar alloc catalog table aliasName hlookup (initialContext heap)
    generalize hscan : ScanTranslator.mk _ table _ = scan at hplan hall
    have htable : scan.table = table := by rw [← hscan]
    subst htable
    have hown : ∀ (i : Nat) (col : Column), scan.table.columns[i]? = some col →
        ∃ iu, scan.colIUs[i]? = some iu ∧ scan.getIU col.name = .ok iu := by
      intro i col hcol
      have hiu := colIUs_getElem?.mpr ⟨col, hcol, rfl⟩
      refine ⟨_, hiu, (getIU_own_iff hcol hiu).mpr fun k earlier hk hearlier => ?_⟩
      obtain ⟨hklt, rfl⟩ := List.getElem?_eq_some_iff.mp hearlier
      obtain ⟨hilt, rfl⟩ := List.getElem?_eq_some_iff.mp hcol
      exact List.pairwise_iff_getElem.mp happart k i hklt hilt hk
    have houtput : output.map Prod.fst = scan.colIUs := by
      apply List.ext_getElem?
      intro i
      rw [List.getElem?_map]
      cases hcol : scan.table.columns[i]? with
      | none =>
        have hge := List.getElem?_eq_none_iff.mp hcol
        have hlen : scan.colIUs.length = scan.table.columns.length := List.length_mapIdx ..
        rw [List.getElem?_eq_none (hall.length_eq ▸ hge), List.getElem?_eq_none (hlen ▸ hge)]
        rfl
      | some col =>
        obtain ⟨iu, hiu, hget⟩ := hown i col hcol
        obtain ⟨hlt, hcol_eq⟩ := List.getElem?_eq_some_iff.mp hcol
        have hx := hall.get hlt (hall.length_eq ▸ hlt)
        rw [List.get_eq_getElem, List.get_eq_getElem, hcol_eq, hget] at hx
        rw [hiu, List.getElem?_eq_getElem (hall.length_eq ▸ hlt), Option.map_some, Except.ok.inj hx]
    have hgen : ∃ ctx', generateCode (.scan scan) self (output.map Prod.fst) ctx₁ = .ok ((), ctx') := by
      have hprogram' : ctx₁.program = queryProgram := hprogram
      refine (generateCode_ok_iff (.scan scan) self _ trivial trivial (hprogram' ▸ queryProgram_valid)
        (hprogram' ▸ queryProgram_open)).mpr ⟨trivial, ?_, ?_⟩
      · rw [houtput]
        exact (List.length_mapIdx ..).trans_le hwide
      · intro iu hiu
        rw [houtput] at hiu
        exact List.mem_map_of_mem hiu
    obtain ⟨ctx', hgen⟩ := hgen
    refine ⟨scan, ⟨.scan scan, output.map Prod.fst, output.map Prod.snd⟩, ctx', ?_, rfl, rfl, hown, ?_⟩
    · unfold compileStmt
      rw [run_bind_of_ok hplan, run_bind_of_ok hgen]
      rfl
    · rw [Operator.result, houtput, Operator.rows, List.map_map]
      exact List.map_congr_left fun r _ => scan_values r

/-- A table with an integer column of each name; the `i`-th value of a column is at `rows[i]`. -/
def namedTable (names : List String) (rows : List Word) : InMemoryTable :=
  ⟨"t", rows.length, names.mapIdx fun i name =>
    ⟨name, .integer, 4096 + 64 * BitVec.ofNat 64 i, rows.map (· + BitVec.ofNat 64 i)⟩⟩

theorem starExact_iff_dotted :
    StarExact (fun _ => 16384) [namedTable ["x", "a.x"] [5]] 8192 emptyHeap "t"
      (namedTable ["x", "a.x"] [5]) := by
  refine (starExact_iff (fun _ => 16384) [namedTable ["x", "a.x"] [5]] 8192 emptyHeap "t"
    (namedTable ["x", "a.x"] [5]) (by rfl) (by decide)).mpr ?_
  refine List.pairwise_pair.mpr fun hanswers => ?_
  have hnot : ("." ++ "a.x").toList.isSuffixOf ("t" ++ "." ++ "x").toList = false := by decide
  have hsuffix := List.isSuffixOf_iff_suffix.mpr hanswers
  exact absurd (hnot.symm.trans hsuffix) (by decide)

/-- The columns `a.x` and `x`: the star yields `a.x` twice. -/
theorem starExact_dottedFirst : ¬ StarExact (fun _ => 16384) [namedTable ["a.x", "x"] [5]] 8192
    emptyHeap "t" (namedTable ["a.x", "x"] [5]) := by
  rintro ⟨scan, result, ctx', -, -, htable, hown, -⟩
  have hcol : (namedTable ["a.x", "x"] [5]).columns[1]? = some ⟨"x", .integer, 4160, [6]⟩ := by
    decide +kernel
  obtain ⟨iu, hiu, hget⟩ := hown 1 _ hcol
  rw [← htable] at hcol
  apply (getIU_own_iff hcol hiu).mp hget 0 ⟨"a.x", .integer, 4096, [5]⟩ Nat.zero_lt_one
  · rw [htable]
    decide +kernel
  · rw [htable]
    exact List.isSuffixOf_iff_suffix.mp (by decide +kernel)

end Proofs

end TidyTuples
