import TidyTuples.Proofs.PlanCorrect
import TidyTuples.Proofs.Correctness

/-!
# What a plan needs to run

The tables of a plan's joins, the rows that its scans read and the widths of its tuples, from the
statement and its FROM entries.
-/

namespace TidyTuples

/-- The key and payload columns of every join have a slot. -/
def Operator.Narrow : Operator → Prop
  | scan _ => True
  | select _ child _ => child.Narrow
  | hashJoin _ build probe buildKeys _ _ => build.Narrow ∧ probe.Narrow ∧
      buildKeys.length ≤ 4 ∧ (payloadIUs build.outputIUs buildKeys).length ≤ 4

instance decidableNarrow : (op : Operator) → Decidable op.Narrow
  | .scan _ => .isTrue trivial
  | .select _ child _ => decidableNarrow child
  | .hashJoin _ build probe _ _ _ =>
    have := decidableNarrow build
    have := decidableNarrow probe
    inferInstanceAs (Decidable (_ ∧ _ ∧ _ ∧ _))

namespace Proofs

open QueryPlanner

/-- The hash tables of a tree belong to different operators, created before the `n`-th. -/
def TablesOf (alloc : Nat → Word) (n : Nat) (op : Operator) : Prop :=
  ∃ ids : List Nat, ids.Nodup ∧ (∀ id ∈ ids, id < n) ∧ op.tables = ids.map alloc

section

variable {scans : Scans} {cs : Conjuncts} {ctx ctx' : CompilationContext} {conjs : List Expr}
  {order : List String} {root : Operator} {alloc : Nat → Word} {heap : Heap}

/-! ### Hash tables -/

lemma ScanUnder.tables {a : String} (h : ScanUnder scans cs a root) : root.tables = [] := by
  cases h <;> rfl

lemma TablesOf.nodup {n : Nat} (h : TablesOf alloc n root)
    (halloc : ∀ i < n, ∀ j < n, alloc i = alloc j → i = j) : root.tables.Nodup := by
  obtain ⟨ids, hnodup, hlt, htables⟩ := h
  rw [htables]
  exact List.Nodup.map_on (fun i hi j hj heq => halloc i (hlt i hi) j (hlt j hj) heq) hnodup

lemma TablesOf.mono {n n' : Nat} (h : TablesOf alloc n root) (hn : n ≤ n') :
    TablesOf alloc n' root := by
  obtain ⟨ids, hnodup, hlt, htables⟩ := h
  exact ⟨ids, hnodup, fun id hid => Nat.lt_of_lt_of_le (hlt id hid) hn, htables⟩

lemma tablesOf_of_nil (h : root.tables = []) (n : Nat) : TablesOf alloc n root :=
  ⟨[], List.nodup_nil, fun _ hid => absurd hid List.not_mem_nil, h⟩

/-- A join over a scan. -/
lemma TablesOf.join {n : Nat} {build probe : Operator} {bks pks : List IU}
    (h : TablesOf alloc n probe) (hb : build.tables = []) :
    TablesOf alloc (n + 1) (.hashJoin n build probe bks pks (alloc n)) := by
  obtain ⟨ids, hnodup, hlt, htables⟩ := h
  refine ⟨n :: ids, List.nodup_cons.mpr ⟨fun hmem => absurd (hlt n hmem) (Nat.lt_irrefl n), hnodup⟩,
    fun id hid => ?_, ?_⟩
  · rcases List.mem_cons.mp hid with rfl | hid
    · exact Nat.lt_succ_self _
    · exact Nat.lt_succ_of_lt (hlt id hid)
  · rw [Operator.tables, hb, htables]
    rfl

lemma planScan_count {a : String} {op : Operator} (h : planScan scans cs a ctx = .ok (op, ctx')) :
    ctx'.numOperators ≤ ctx.numOperators + 1 := by
  unfold planScan at h
  cases hs : scans.lookup a with
  | none =>
    rw [hs] at h
    cases h
  | some s =>
    rw [hs] at h
    dsimp only at h
    split_ifs at h with hnone
    · obtain ⟨-, rfl⟩ := run_pure_ok h
      exact Nat.le_succ _
    · obtain ⟨id, ctx₁, hid, hrest⟩ := run_bind_ok h
      cases hid
      obtain ⟨-, rfl⟩ := run_pure_ok hrest
      exact Nat.le_refl _

lemma planScans_count {aliases : List String} {plans plans' : List (String × Operator)}
    (h : planScans scans cs aliases plans ctx = .ok (plans', ctx')) :
    ctx'.numOperators ≤ ctx.numOperators + aliases.length := by
  induction aliases generalizing plans ctx with
  | nil =>
    obtain ⟨-, rfl⟩ := run_pure_ok h
    exact Nat.le_refl _
  | cons a rest ih =>
    obtain ⟨op, ctx₁, hop, hrest⟩ := run_bind_ok h
    have hone := planScan_count hop
    have hmore := ih hrest
    rw [List.length_cons]
    omega

lemma createScans_count {catalog : SQLCatalog} {refs : List TableRef} {scans' : Scans}
    (h : createScans catalog refs scans ctx = .ok (scans', ctx')) :
    ctx'.numOperators = ctx.numOperators + refs.length := by
  induction refs generalizing scans ctx with
  | nil =>
    obtain ⟨-, rfl⟩ := run_pure_ok h
    rfl
  | cons ref rest ih =>
    obtain ⟨table, -, hrest⟩ := run_createScans_cons h
    rw [ih hrest, List.length_cons]
    dsimp only
    omega

lemma joinRest_tables {aliases : List String} {plans : List (String × Operator)}
    {jks : List JoinKey} {planRoot : Operator}
    (hplans : ∀ a op, plans.lookup a = some op → op.tables = [])
    (htables : TablesOf alloc ctx.numOperators planRoot)
    (h : joinRest alloc jks plans aliases planRoot ctx = .ok (root, ctx')) :
    TablesOf alloc ctx'.numOperators root ∧
      ctx'.numOperators = ctx.numOperators + aliases.length := by
  induction aliases generalizing planRoot ctx with
  | nil =>
    obtain ⟨rfl, rfl⟩ := run_pure_ok h
    exact ⟨htables, rfl⟩
  | cons n rest ih =>
    obtain ⟨build, ctx₁, hbuild, h₁⟩ := run_bind_ok h
    obtain ⟨hlookup, rfl⟩ := planAt_ok hbuild
    obtain ⟨join, ctx₂, hjoin, hrest⟩ := run_bind_ok h₁
    obtain ⟨rfl, rfl⟩ := newHashJoin_ok hjoin
    obtain ⟨htables', hcount⟩ := ih (htables.join (hplans n build hlookup)) hrest
    refine ⟨htables', ?_⟩
    rw [hcount, List.length_cons]
    dsimp only
    omega

lemma joinTree_tables {aliases : List String} {plans : List (String × Operator)}
    {jks : List JoinKey} (hplans : ∀ a op, plans.lookup a = some op → op.tables = [])
    (h : joinTree alloc jks plans aliases ctx = .ok (root, ctx')) :
    TablesOf alloc ctx'.numOperators root ∧
      ctx'.numOperators + 1 ≤ ctx.numOperators + aliases.length := by
  match aliases with
  | [] => cases h
  | [only] =>
    obtain ⟨hlookup, rfl⟩ := planAt_ok h
    exact ⟨tablesOf_of_nil (hplans only root hlookup) _, Nat.le_refl _⟩
  | first :: second :: rest =>
    obtain ⟨build, ctx₁, hbuild, h₁⟩ := run_bind_ok h
    obtain ⟨hlookup₁, rfl⟩ := planAt_ok hbuild
    obtain ⟨probe, ctx₂, hprobe, h₂⟩ := run_bind_ok h₁
    obtain ⟨hlookup₂, rfl⟩ := planAt_ok hprobe
    obtain ⟨join, ctx₃, hjoin, hrest⟩ := run_bind_ok h₂
    obtain ⟨rfl, rfl⟩ := newHashJoin_ok hjoin
    have hprobes : TablesOf alloc ctx₂.numOperators probe :=
      tablesOf_of_nil (hplans second probe hlookup₂) _
    obtain ⟨htables, hcount⟩ :=
      joinRest_tables hplans (hprobes.join (hplans first build hlookup₁)) hrest
    refine ⟨htables, ?_⟩
    rw [hcount, List.length_cons, List.length_cons]
    dsimp only
    omega

lemma wrapPostJoin_tables {planRoot : Operator} {n : Nat} (htables : TablesOf alloc n planRoot)
    (h : wrapPostJoin scans cs planRoot ctx = .ok (root, ctx')) : TablesOf alloc n root := by
  unfold wrapPostJoin at h
  split_ifs at h
  · obtain ⟨rfl, -⟩ := run_pure_ok h
    exact htables
  · obtain ⟨id, ctx₁, -, hrest⟩ := run_bind_ok h
    obtain ⟨rfl, -⟩ := run_pure_ok hrest
    exact htables

/-- The operators of a plan are at most three for each FROM entry. -/
theorem plan_tables {catalog : SQLCatalog} {stmt : SelectStmt} {result : PlanResult}
    (h : plan alloc catalog stmt ctx = .ok (result, ctx')) :
    TablesOf alloc (ctx.numOperators + 3 * stmt.fromList.length) result.root := by
  obtain ⟨scans, ctx₁, hscans, h₁⟩ := run_bind_ok h
  obtain ⟨cs, ctx₂, hcs, h₂⟩ := run_bind_ok h₁
  obtain ⟨-, rfl⟩ := run_ofExcept_ok hcs
  obtain ⟨plans, ctx₃, hplans, h₃⟩ := run_bind_ok h₂
  obtain ⟨joined, ctx₄, hjoined, h₄⟩ := run_bind_ok h₃
  obtain ⟨root, ctx₅, hroot, h₅⟩ := run_bind_ok h₄
  obtain ⟨output, ctx₆, -, h₆⟩ := run_bind_ok h₅
  obtain ⟨rfl, -⟩ := run_pure_ok h₆
  obtain ⟨-, happart, -⟩ := createScans_scansOf hscans
  have hcreated := createScans_count hscans
  have hplanned := planScans_count hplans
  obtain ⟨hplansOf, -⟩ := planScans_spec
    (fun a b s t hs ht hne => (happart.apart a b s t hs ht hne).1)
    (fun a s hs => (happart.fresh a s hs).2) (Nat.le_refl _) (plansOf_nil scans cs _ _) hplans
  obtain ⟨htables, hcount⟩ := joinTree_tables (fun a op hop => (hplansOf.under a op hop).tables) hjoined
  rw [List.length_map] at hplanned hcount
  exact wrapPostJoin_tables (htables.mono (by omega)) hroot

/-! ### Rows and widths -/

/-- The scans read full columns of tables that the code can count through. -/
def CountableScans (scans : Scans) : Prop := ∀ a s, scans.lookup a = some s →
  s.table.numRows < 2 ^ 63 ∧ ∀ col ∈ s.table.columns, col.values.length = s.table.numRows

lemma ScanUnder.fits {a : String} (h : ScanUnder scans cs a root) (hscans : CountableScans scans) :
    root.Fits ∧ root.rows.length < 2 ^ 63 := by
  cases h with
  | bare hs _ =>
    refine ⟨hscans _ _ hs, ?_⟩
    rw [Operator.rows, List.length_map, List.length_range]
    exact (hscans _ _ hs).1
  | filtered hs _ =>
    refine ⟨hscans _ _ hs, Nat.lt_of_le_of_lt (List.length_filter_le _ _) ?_⟩
    rw [Operator.rows, List.length_map, List.length_range]
    exact (hscans _ _ hs).1

lemma Joined.fits (h : Joined scans cs order root) (hscans : CountableScans scans)
    (hnarrow : root.Narrow) : root.Fits := by
  induction h with
  | scan h => exact (h.fits hscans).1
  | first hb hp _ =>
    obtain ⟨hfits, hrows⟩ := hb.fits hscans
    exact ⟨hfits, (hp.fits hscans).1, by rw [List.length_map, List.length_map], hnarrow.2.2.1,
      hnarrow.2.2.2, hrows⟩
  | later _ _ hb _ ih =>
    obtain ⟨hfits, hrows⟩ := hb.fits hscans
    exact ⟨hfits, ih hnarrow.2.1, by rw [List.length_map, List.length_map], hnarrow.2.2.1,
      hnarrow.2.2.2, hrows⟩

lemma Planned.fits (h : Planned scans cs order root) (hscans : CountableScans scans)
    (hnarrow : root.Narrow) : root.Fits := by
  cases h with
  | bare h => exact h.fits hscans hnarrow
  | filtered h => exact h.fits hscans hnarrow

/-! ### Memory -/

/-- The columns that the scans read are in memory. -/
def LoadedScans (scans : Scans) (heap : Heap) : Prop := ∀ a s, scans.lookup a = some s →
  ∀ col ∈ s.table.columns, heap.columns col.address = col.values

lemma ScanUnder.loaded {a : String} (h : ScanUnder scans cs a root)
    (hscans : LoadedScans scans heap) : root.Loaded heap := by
  cases h with
  | bare hs _ => exact hscans _ _ hs
  | filtered hs _ => exact hscans _ _ hs

lemma Joined.loaded (h : Joined scans cs order root) (hscans : LoadedScans scans heap)
    (hempty : ∀ ht ∈ root.tables, (heap.hashTables ht).buckets = fun _ => []) : root.Loaded heap := by
  induction h with
  | scan h => exact h.loaded hscans
  | first hb hp _ => exact ⟨hb.loaded hscans, hp.loaded hscans, hempty _ List.mem_cons_self⟩
  | later _ _ hb _ ih =>
    exact ⟨hb.loaded hscans,
      ih fun ht hmem => hempty ht (List.mem_cons_of_mem _ (List.mem_append_right _ hmem)),
      hempty _ List.mem_cons_self⟩

lemma Planned.loaded (h : Planned scans cs order root) (hscans : LoadedScans scans heap)
    (hempty : ∀ ht ∈ root.tables, (heap.hashTables ht).buckets = fun _ => []) : root.Loaded heap := by
  cases h with
  | bare h => exact h.loaded hscans hempty
  | filtered h => exact h.loaded hscans hempty

/-! ### Predicates -/

lemma isBoolean_flattenAnd {e c : Expr} (h : e.isBoolean = true) (hc : c ∈ flattenAnd e) :
    c.isBoolean = true := by
  induction e with
  | colRef ref => cases h
  | intLit w => cases h
  | binOp op l r ihl ihr =>
    cases op with
    | and =>
      obtain ⟨hl, hr⟩ := Bool.and_eq_true_iff.mp h
      rcases List.mem_append.mp hc with hc | hc
      · exact ihl hl hc
      · exact ihr hr hc
    | _ =>
      rw [List.mem_singleton.mp hc]
      exact h

lemma isBoolean_of_flattenAnd {e : Expr} (h : ∀ c ∈ flattenAnd e, c.isBoolean = true) :
    e.isBoolean = true := by
  induction e with
  | colRef ref => exact h _ List.mem_cons_self
  | intLit w => exact h _ List.mem_cons_self
  | binOp op l r ihl ihr =>
    cases op with
    | and =>
      apply Bool.and_eq_true_iff.mpr
      exact ⟨ihl fun c hc => h c (List.mem_append_left _ hc),
        ihr fun c hc => h c (List.mem_append_right _ hc)⟩
    | _ => exact h _ List.mem_cons_self

lemma isBoolean_conjuncts {stmt : SelectStmt} (h : ∀ e ∈ stmt.whereExpr, e.isBoolean = true) :
    ∀ c ∈ stmt.conjuncts, c.isBoolean = true := by
  intro c hc
  unfold SelectStmt.conjuncts at hc
  cases hw : stmt.whereExpr with
  | none =>
    rw [hw] at hc
    cases hc
  | some e =>
    rw [hw] at hc
    exact isBoolean_flattenAnd (h e hw) hc

lemma ScanUnder.boolean {a : String} (h : ScanUnder scans cs a root)
    (hclass : Classified scans conjs cs) (hbool : ∀ c ∈ conjs, c.isBoolean = true) :
    BooleanPredicates root := by
  cases h with
  | bare => exact trivial
  | filtered =>
    refine ⟨trivial, fun c hc => hbool c ?_⟩
    change c ∈ cs.filterConjuncts a at hc
    rw [hclass.filters] at hc
    exact List.mem_of_mem_filter hc

lemma Joined.boolean (h : Joined scans cs order root) (hclass : Classified scans conjs cs)
    (hbool : ∀ c ∈ conjs, c.isBoolean = true) : BooleanPredicates root := by
  induction h with
  | scan h => exact h.boolean hclass hbool
  | first hb hp _ => exact ⟨hb.boolean hclass hbool, hp.boolean hclass hbool⟩
  | later _ _ hb _ ih => exact ⟨hb.boolean hclass hbool, ih⟩

lemma Planned.boolean (h : Planned scans cs order root) (hclass : Classified scans conjs cs)
    (hbool : ∀ c ∈ conjs, c.isBoolean = true) : BooleanPredicates root := by
  cases h with
  | bare h => exact h.boolean hclass hbool
  | filtered h =>
    refine ⟨h.boolean hclass hbool, fun c hc => hbool c ?_⟩
    change c ∈ cs.postJoinFilters at hc
    rw [hclass.postJoin] at hc
    exact List.mem_of_mem_filter hc

end

end Proofs

end TidyTuples
