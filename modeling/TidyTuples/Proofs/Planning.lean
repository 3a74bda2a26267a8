import TidyTuples.Proofs.Layout
import TidyTuples.Sql.Reference

/-!
# What the phases of the planner establish

One lemma for each phase: the scans of the FROM entries, the three classes of conjuncts, the scans
under their filters. The proofs about whole plans use these and no longer look at the planner.
-/

namespace TidyTuples

/-- The columns of a tuple, as the planner resolves them. -/
def Row.env (row : Row) (resolveColumn : ColumnRef → Except CppError IU) : Env := fun ref =>
  match resolveColumn ref with
  | .ok iu => row iu.id
  | .error _ => none

namespace Proofs

open QueryPlanner

/-! ### Conjunctions -/

section

variable {resolve : ColumnRef → Except CppError IU} {row : Row} {env : Env}

lemma eval_eq_evalIn (e : Expr) : e.eval resolve row = e.evalIn (row.env resolve) := by
  induction e with
  | colRef ref =>
    unfold Expr.eval Expr.evalIn Row.env
    cases resolve ref <;> rfl
  | intLit n => rfl
  | binOp op l r ihl ihr => rw [Expr.eval, ihl, ihr, Expr.evalIn]

lemma evalIn_congr {env' : Env} {e : Expr} (h : ∀ ref ∈ e.columns, env ref = env' ref) :
    e.evalIn env = e.evalIn env' := by
  induction e with
  | colRef ref => exact h ref (List.mem_singleton_self ref)
  | intLit n => rfl
  | binOp op l r ihl ihr =>
    rw [Expr.evalIn, Expr.evalIn, ihl fun ref hr => h ref (List.mem_append_left _ hr),
      ihr fun ref hr => h ref (List.mem_append_right _ hr)]

lemma holdsIn_congr {env' : Env} {e : Expr} (h : ∀ ref ∈ e.columns, env ref = env' ref) :
    e.holdsIn env = e.holdsIn env' := by
  rw [Expr.holdsIn, Expr.holdsIn, evalIn_congr h]

lemma wordOfBool_ne_zero (b : Bool) : (IRProgram.wordOfBool b != 0) = b := by
  cases b <;> rfl

lemma holdsIn_and (l r : Expr) :
    (Expr.binOp .and l r).holdsIn env = (l.holdsIn env && r.holdsIn env) := by
  unfold Expr.holdsIn
  rw [Expr.evalIn]
  cases l.evalIn env with
  | none => rfl
  | some a =>
    cases r.evalIn env with
    | none => simp
    | some b => exact wordOfBool_ne_zero _

/-- The WHERE clause holds where all its conjuncts do. -/
lemma holdsIn_flattenAnd (e : Expr) : e.holdsIn env = (flattenAnd e).all (Expr.holdsIn env) := by
  induction e using flattenAnd.induct with
  | case1 l r ihl ihr => rw [flattenAnd, List.all_append, holdsIn_and, ihl, ihr]
  | case2 e hne =>
    rw [flattenAnd, List.all_cons, List.all_nil, Bool.and_true]
    exact hne

lemma restValue_any (p : Predicate) (es : List Expr) (w : Word) :
    (p.restValue row es w).any (· != 0) =
      (w != 0 && es.all (Expr.holdsIn (row.env p.resolveColumn))) := by
  induction es generalizing w with
  | nil => simp [Predicate.restValue]
  | cons e rest ih =>
    rw [Predicate.restValue, eval_eq_evalIn, List.all_cons, Expr.holdsIn]
    cases e.evalIn (row.env p.resolveColumn) with
    | none => simp
    | some v =>
      change (p.restValue row rest (BinOpKind.and.eval w v)).any _ = _
      rw [ih, BinOpKind.eval, wordOfBool_ne_zero, Bool.and_assoc]
      rfl

/-- A filter keeps the rows on which all its conjuncts hold. -/
lemma predicate_holds {p : Predicate} (hne : p.conjuncts ≠ []) :
    p.holds row = p.conjuncts.all (Expr.holdsIn (row.env p.resolveColumn)) := by
  unfold Predicate.holds Predicate.value
  cases hc : p.conjuncts with
  | nil => exact absurd hc hne
  | cons e rest =>
    simp only [eval_eq_evalIn]
    rw [List.all_cons, Expr.holdsIn]
    cases e.evalIn (row.env p.resolveColumn) with
    | none => rfl
    | some v => exact restValue_any p rest v

lemma columns_of_mem_flattenAnd {e c : Expr} (hc : c ∈ flattenAnd e) {ref : ColumnRef}
    (href : ref ∈ c.columns) : ref ∈ e.columns := by
  induction e using flattenAnd.induct with
  | case1 l r ihl ihr =>
    rw [flattenAnd] at hc
    rcases List.mem_append.mp hc with hc | hc
    · exact List.mem_append_left _ (ihl hc)
    · exact List.mem_append_right _ (ihr hc)
  | case2 e hne =>
    rw [flattenAnd, List.mem_singleton] at hc
    · rwa [← hc]
    · exact hne

end

/-! ### The scans -/

/-- The IU ids of a scan. -/
def ScanTranslator.ids (scan : ScanTranslator) : Set Nat :=
  {id | scan.firstIU ≤ id ∧ id < scan.firstIU + scan.table.columns.length}

lemma lookup_filter_ne {α : Type} (l : List (String × α)) {a b : String} (h : b ≠ a) :
    (l.filter (·.1 != a)).lookup b = l.lookup b := by
  induction l with
  | nil => rfl
  | cons x rest ih =>
    by_cases hx : x.1 = a
    · rw [List.filter_cons_of_neg (by simp [hx]), ih, List.lookup_cons,
        beq_eq_false_iff_ne.mpr (hx ▸ h)]
    · rw [List.filter_cons_of_pos (by simp [hx]), List.lookup_cons, List.lookup_cons, ih]

/-- `map[a] = x` -/
lemma lookup_insert {α : Type} (l : List (String × α)) (a : String) (x : α) (b : String) :
    ((a, x) :: l.filter (·.1 != a)).lookup b = if b = a then some x else l.lookup b := by
  rw [List.lookup_cons]
  by_cases hb : b = a
  · simp [hb]
  · rw [beq_eq_false_iff_ne.mpr hb, if_neg hb, lookup_filter_ne l hb]

/-- Scans of different aliases are different operators with different IUs. -/
structure ScansApart (ctx : CompilationContext) (scans : Scans) : Prop where
  fresh : ∀ a s, scans.lookup a = some s →
    s.firstIU + s.table.columns.length ≤ ctx.nextIUId ∧ s.id < ctx.numOperators
  apart : ∀ a b s t, scans.lookup a = some s → scans.lookup b = some t → a ≠ b →
    s.id ≠ t.id ∧ Disjoint (ScanTranslator.ids s) (ScanTranslator.ids t)

lemma disjoint_ids_of_le {s t : ScanTranslator}
    (h : s.firstIU + s.table.columns.length ≤ t.firstIU) :
    Disjoint (ScanTranslator.ids s) (ScanTranslator.ids t) := by
  apply Set.disjoint_left.mpr
  rintro id ⟨-, hs⟩ ⟨ht, -⟩
  omega

lemma ScansApart.insert {ctx : CompilationContext} {scans : Scans} (h : ScansApart ctx scans)
    (a : String) (table : InMemoryTable) :
    ScansApart { ctx with
        numOperators := ctx.numOperators + 1
        nextIUId := ctx.nextIUId + table.columns.length }
      ((a, ⟨ctx.numOperators, table, ctx.nextIUId⟩) :: scans.filter (·.1 != a)) := by
  constructor
  · intro b s hs
    rw [lookup_insert] at hs
    by_cases hb : b = a
    · rw [if_pos hb] at hs
      cases hs
      exact ⟨Nat.le_refl _, Nat.lt_succ_self _⟩
    · rw [if_neg hb] at hs
      have hold := h.fresh b s hs
      exact ⟨by dsimp only; omega, by dsimp only; omega⟩
  · intro b c s t hs ht hne
    rw [lookup_insert] at hs ht
    by_cases hb : b = a
    · rw [if_pos hb] at hs
      rw [if_neg (hb ▸ hne.symm)] at ht
      cases hs
      have hold := h.fresh c t ht
      exact ⟨Nat.ne_of_gt hold.2, (disjoint_ids_of_le hold.1).symm⟩
    · rw [if_neg hb] at hs
      by_cases hc : c = a
      · rw [if_pos hc] at ht
        cases ht
        have hold := h.fresh b s hs
        exact ⟨Nat.ne_of_lt hold.2, disjoint_ids_of_le hold.1⟩
      · rw [if_neg hc] at ht
        exact h.apart b c s t hs ht hne

/-- The scans are those of the FROM entries. -/
structure ScansOf (catalog : SQLCatalog) (refs : List TableRef) (scans : Scans) : Prop where
  found : ∀ ref ∈ refs, ∃ s, scans.lookup ref.aliasName = some s
  table : ∀ a s, scans.lookup a = some s →
    ∃ ref ∈ refs, ref.aliasName = a ∧ catalog.lookup ref.tableName = .ok s.table

section

variable {catalog : SQLCatalog} {ctx ctx' : CompilationContext} {scans scans' : Scans}

lemma newScan_run (table : InMemoryTable) : newScan table ctx =
    .ok (⟨ctx.numOperators, table, ctx.nextIUId⟩, { ctx with
      numOperators := ctx.numOperators + 1
      nextIUId := ctx.nextIUId + table.columns.length }) := rfl

lemma run_createScans_cons {ref : TableRef} {rest : List TableRef}
    (h : createScans catalog (ref :: rest) scans ctx = .ok (scans', ctx')) :
    ∃ table, catalog.lookup ref.tableName = .ok table ∧
      createScans catalog rest ((ref.aliasName, ⟨ctx.numOperators, table, ctx.nextIUId⟩) ::
        scans.filter (·.1 != ref.aliasName)) { ctx with
          numOperators := ctx.numOperators + 1
          nextIUId := ctx.nextIUId + table.columns.length } = .ok (scans', ctx') := by
  obtain ⟨table, ctx₁, htable, hrest⟩ := run_bind_ok h
  obtain ⟨hlookup, rfl⟩ := run_ofExcept_ok htable
  rw [run_bind_of_ok (newScan_run table)] at hrest
  exact ⟨table, hlookup, hrest⟩

/-- Phase 1: every alias has a scan of its table. -/
lemma createScans_spec {refs : List TableRef} (done : List TableRef) (hdone : ScansOf catalog done scans)
    (hapart : ScansApart ctx scans)
    (h : createScans catalog refs scans ctx = .ok (scans', ctx')) :
    ScansOf catalog (done ++ refs) scans' ∧ ScansApart ctx' scans' ∧
      ctx'.program = ctx.program ∧ ctx'.heap = ctx.heap := by
  induction refs generalizing done scans ctx with
  | nil =>
    obtain ⟨rfl, rfl⟩ := run_pure_ok h
    rw [List.append_nil]
    exact ⟨hdone, hapart, rfl, rfl⟩
  | cons ref rest ih =>
    obtain ⟨table, hlookup, hrest⟩ := run_createScans_cons h
    have hdone' : ScansOf catalog (done ++ [ref]) ((ref.aliasName,
        ⟨ctx.numOperators, table, ctx.nextIUId⟩) :: scans.filter (·.1 != ref.aliasName)) := by
      constructor
      · intro ref' href'
        rw [lookup_insert]
        by_cases ha : ref'.aliasName = ref.aliasName
        · exact ⟨_, if_pos ha⟩
        · rw [if_neg ha]
          rcases List.mem_append.mp href' with hmem | hmem
          · exact hdone.found ref' hmem
          · exact absurd (by rw [List.mem_singleton.mp hmem]) ha
      · intro a s hs
        rw [lookup_insert] at hs
        by_cases ha : a = ref.aliasName
        · rw [if_pos ha] at hs
          cases hs
          exact ⟨ref, by simp, ha.symm, hlookup⟩
        · rw [if_neg ha] at hs
          obtain ⟨ref', hmem, hname, htable⟩ := hdone.table a s hs
          exact ⟨ref', List.mem_append_left _ hmem, hname, htable⟩
    have hstep := ih (done ++ [ref]) hdone' (hapart.insert ref.aliasName table) hrest
    rwa [List.append_assoc] at hstep

/-- The scans of a whole FROM list. -/
lemma createScans_scansOf {refs : List TableRef}
    (h : createScans catalog refs [] ctx = .ok (scans', ctx')) :
    ScansOf catalog refs scans' ∧ ScansApart ctx' scans' ∧ ctx'.program = ctx.program ∧
      ctx'.heap = ctx.heap := by
  have hnone : ScansOf catalog [] [] := ⟨fun _ h => (by cases h), fun _ _ h => (by cases h)⟩
  have hapart : ScansApart ctx [] := ⟨fun _ _ h => (by cases h), fun _ _ _ _ h => (by cases h)⟩
  exact createScans_spec [] hnone hapart h

lemma createScans_ok {refs : List TableRef} (h : ∀ ref ∈ refs, ∃ table,
    catalog.lookup ref.tableName = .ok table) (scans : Scans) (ctx : CompilationContext) :
    ∃ scans' ctx', createScans catalog refs scans ctx = .ok (scans', ctx') := by
  induction refs generalizing scans ctx with
  | nil => exact ⟨scans, ctx, rfl⟩
  | cons ref rest ih =>
    obtain ⟨table, htable⟩ := h ref List.mem_cons_self
    rw [createScans, htable,
      run_bind_of_ok (show Gen.ofExcept (.ok table) ctx = .ok (table, ctx) from rfl),
      run_bind_of_ok (newScan_run table)]
    exact ih (fun ref' hmem => h ref' (List.mem_cons_of_mem ref hmem)) _ _

end

lemma resolveColumn_eq {scans : Scans} {ref : ColumnRef} (h : ref.tableAlias ≠ "") :
    resolveColumn scans ref = match scans.lookup ref.tableAlias with
      | some scan => scan.getIU ref.colName
      | none => throwRuntime ("Unknown table alias: " ++ ref.tableAlias) := by
  unfold resolveColumn
  rw [if_neg h]
  rfl

lemma resolveColumn_iff {scans : Scans} {ref : ColumnRef} {iu : IU} (h : ref.tableAlias ≠ "") :
    resolveColumn scans ref = .ok iu ↔
      ∃ s, scans.lookup ref.tableAlias = some s ∧ s.getIU ref.colName = .ok iu := by
  rw [resolveColumn_eq h]
  cases scans.lookup ref.tableAlias with
  | none => simp [throwRuntime]
  | some s => simp

section

variable {scans : Scans} {ref : ColumnRef} {a : String} {e : CppError} {s : ScanTranslator}

lemma resolveColumn_of_error (h : ref.tableAlias = "") (ha : resolveAlias scans ref = .error e) :
    resolveColumn scans ref = .error e := by
  unfold resolveColumn
  rw [if_pos h, ha]
  rfl

lemma resolveColumn_of_found (h : ref.tableAlias = "") (ha : resolveAlias scans ref = .ok a)
    (hs : scans.lookup a = some s) : resolveColumn scans ref = s.getIU ref.colName := by
  unfold resolveColumn
  rw [if_pos h, ha]
  dsimp only [bind, Except.bind]
  rw [hs]

lemma resolveColumn_of_none (h : ref.tableAlias = "") (ha : resolveAlias scans ref = .ok a)
    (hs : scans.lookup a = none) :
    resolveColumn scans ref = throwRuntime ("Unknown table alias: " ++ a) := by
  unfold resolveColumn
  rw [if_pos h, ha]
  dsimp only [bind, Except.bind]
  rw [hs]

/-- The column is one of the scan under the alias that is given or found, unless there is none. -/
lemma resolveColumn_cases (scans : Scans) (ref : ColumnRef) :
    (∃ e, ref.tableAlias = "" ∧ resolveAlias scans ref = .error e ∧
      resolveColumn scans ref = .error e) ∨
    ∃ a, (∃ s, scans.lookup a = some s ∧ resolveColumn scans ref = s.getIU ref.colName) ∨
      resolveColumn scans ref = throwRuntime ("Unknown table alias: " ++ a) := by
  by_cases hne : ref.tableAlias = ""
  · cases ha : resolveAlias scans ref with
    | error e => exact .inl ⟨e, hne, rfl, resolveColumn_of_error hne ha⟩
    | ok a =>
      cases hs : scans.lookup a with
      | none => exact .inr ⟨a, .inr (resolveColumn_of_none hne ha hs)⟩
      | some s => exact .inr ⟨a, .inl ⟨s, hs, resolveColumn_of_found hne ha hs⟩⟩
  · refine .inr ⟨ref.tableAlias, ?_⟩
    rw [resolveColumn_eq hne]
    cases scans.lookup ref.tableAlias with
    | none => exact .inr rfl
    | some s => exact .inl ⟨s, rfl, rfl⟩

end

/-! ### The aliases of a conjunct -/

lemma mem_collectAliases {e : Expr} {out : List String} {a : String} :
    a ∈ collectAliases e out ↔ a ∈ out ∨ a ≠ "" ∧ ∃ ref ∈ e.columns, ref.tableAlias = a := by
  induction e generalizing out with
  | colRef ref =>
    unfold collectAliases Expr.columns
    split_ifs with h
    · constructor
      · exact .inl
      · rintro (hmem | ⟨hne, ref', href', rfl⟩)
        · exact hmem
        · rw [List.mem_singleton.mp href'] at hne ⊢
          exact h.resolve_left hne
    · rw [not_or] at h
      simp only [List.mem_append, List.mem_singleton, exists_eq_left]
      constructor
      · rintro (hmem | rfl)
        · exact .inl hmem
        · exact .inr ⟨h.1, rfl⟩
      · rintro (hmem | ⟨-, rfl⟩)
        · exact .inl hmem
        · exact .inr rfl
  | intLit n => simp [collectAliases, Expr.columns]
  | binOp op l r ihl ihr =>
    unfold collectAliases Expr.columns
    rw [ihr, ihl]
    simp only [List.mem_append, or_and_right, exists_or]
    rw [or_assoc, ← and_or_left]

lemma mem_conjunctAliases {e : Expr} {a : String} :
    a ∈ conjunctAliases e ↔ a ≠ "" ∧ ∃ ref ∈ e.columns, ref.tableAlias = a := by
  rw [conjunctAliases, mem_collectAliases]
  simp

lemma collectAliases_nodup {e : Expr} {out : List String} (h : out.Nodup) :
    (collectAliases e out).Nodup := by
  induction e generalizing out with
  | colRef ref =>
    unfold collectAliases
    split_ifs with hc
    · exact h
    · rw [not_or] at hc
      apply List.nodup_append.mpr
      refine ⟨h, List.nodup_singleton _, fun a ha b hb hab => hc.2 ?_⟩
      rwa [← List.mem_singleton.mp hb, ← hab]
  | intLit n => exact h
  | binOp op l r ihl ihr => exact ihr (ihl h)

/-- The two columns of a join key. -/
def keyColumns (c : Expr) : Option (ColumnRef × ColumnRef) :=
  if (conjunctAliases c).length = 2 then asColumnEq c else none

/-- A join key equates columns of two aliases. -/
lemma keyColumns_iff {c : Expr} {l r : ColumnRef} : keyColumns c = some (l, r) ↔
    c = .binOp .eq (.colRef l) (.colRef r) ∧ l.tableAlias ≠ "" ∧ r.tableAlias ≠ "" ∧
      l.tableAlias ≠ r.tableAlias := by
  have hlen : (conjunctAliases (.binOp .eq (.colRef l) (.colRef r))).length = 2 ↔
      l.tableAlias ≠ "" ∧ r.tableAlias ≠ "" ∧ l.tableAlias ≠ r.tableAlias := by
    simp only [conjunctAliases, collectAliases]
    by_cases hl : l.tableAlias = ""
    · by_cases hr : r.tableAlias = "" <;> simp [hl, hr]
    · by_cases hr : r.tableAlias = ""
      · simp [hl, hr]
      · by_cases hlr : r.tableAlias = l.tableAlias
        · simp [hl, hlr]
        · simp [hl, hr, hlr, Ne.symm hlr]
  unfold keyColumns
  constructor
  · intro h
    split_ifs at h with h2
    unfold asColumnEq at h
    split at h
    · cases h
      exact ⟨rfl, hlen.mp h2⟩
    · cases h
  · rintro ⟨rfl, hne⟩
    rw [if_pos (hlen.mpr hne)]
    rfl

/-! ### The classes of conjuncts -/

/-- The key built from a conjunct, either side first. -/
def KeyOf (scans : Scans) (l r : ColumnRef) (jk : JoinKey) : Prop :=
  ∃ lIU rIU, resolveColumn scans l = .ok lIU ∧ resolveColumn scans r = .ok rIU ∧
    (jk = ⟨l.tableAlias, r.tableAlias, lIU, rIU⟩ ∨ jk = ⟨r.tableAlias, l.tableAlias, rIU, lIU⟩)

/-- Filters, join keys and post-join filters are those of the conjuncts. -/
structure Classified (scans : Scans) (conjuncts : List Expr) (cs : Conjuncts) : Prop where
  filters : ∀ a, cs.filterConjuncts a = conjuncts.filter fun c => conjunctAliases c = [a]
  postJoin : cs.postJoinFilters = conjuncts.filter fun c =>
    (conjunctAliases c).length ≠ 1 ∧ keyColumns c = none
  keys : List.Forall₂ (fun lr jk => KeyOf scans lr.1 lr.2 jk) (conjuncts.filterMap keyColumns)
    cs.joinKeys

section

variable {scans : Scans} {aliases : List String} {cs cs' : Conjuncts} {c : Expr}

lemma scanIU_eq {ref : ColumnRef} (h : ref.tableAlias ≠ "") {iu : IU} :
    scanIU scans ref.tableAlias ref.colName = .ok iu ↔ resolveColumn scans ref = .ok iu := by
  rw [resolveColumn_iff h, scanIU]
  cases scans.lookup ref.tableAlias <;> simp

lemma makeJoinKey_eq {l r : ColumnRef} (hl : l.tableAlias ≠ "") (hr : r.tableAlias ≠ "") :
    makeJoinKey scans aliases l r =
      if aliases.idxOf l.tableAlias ≤ aliases.idxOf r.tableAlias then do
        let buildIU ← scanIU scans l.tableAlias l.colName
        let probeIU ← scanIU scans r.tableAlias r.colName
        return ⟨l.tableAlias, r.tableAlias, buildIU, probeIU⟩
      else do
        let buildIU ← scanIU scans r.tableAlias r.colName
        let probeIU ← scanIU scans l.tableAlias l.colName
        return ⟨r.tableAlias, l.tableAlias, buildIU, probeIU⟩ := by
  unfold makeJoinKey
  simp only [if_neg hl, if_neg hr, pure_bind]

lemma makeJoinKey_keyOf {l r : ColumnRef} (hl : l.tableAlias ≠ "") (hr : r.tableAlias ≠ "")
    {jk : JoinKey} (h : makeJoinKey scans aliases l r = .ok jk) : KeyOf scans l r jk := by
  rw [makeJoinKey_eq hl hr] at h
  split_ifs at h
  · cases hlIU : scanIU scans l.tableAlias l.colName with
    | error e => rw [hlIU] at h; cases h
    | ok lIU =>
      cases hrIU : scanIU scans r.tableAlias r.colName with
      | error e => rw [hlIU, hrIU] at h; cases h
      | ok rIU =>
        rw [hlIU, hrIU] at h
        cases h
        exact ⟨lIU, rIU, (scanIU_eq hl).mp hlIU, (scanIU_eq hr).mp hrIU, .inl rfl⟩
  · cases hrIU : scanIU scans r.tableAlias r.colName with
    | error e => rw [hrIU] at h; cases h
    | ok rIU =>
      cases hlIU : scanIU scans l.tableAlias l.colName with
      | error e => rw [hrIU, hlIU] at h; cases h
      | ok lIU =>
        rw [hrIU, hlIU] at h
        cases h
        exact ⟨lIU, rIU, (scanIU_eq hl).mp hlIU, (scanIU_eq hr).mp hrIU, .inr rfl⟩

lemma makeJoinKey_ok {l r : ColumnRef} (hl : l.tableAlias ≠ "") (hr : r.tableAlias ≠ "")
    {lIU rIU : IU} (hlIU : resolveColumn scans l = .ok lIU) (hrIU : resolveColumn scans r = .ok rIU) :
    ∃ jk, makeJoinKey scans aliases l r = .ok jk := by
  rw [makeJoinKey_eq hl hr, (scanIU_eq hl).mpr hlIU, (scanIU_eq hr).mpr hrIU]
  split_ifs
  · exact ⟨_, rfl⟩
  · exact ⟨_, rfl⟩

/-- What becomes of one conjunct. -/
lemma classifyConjunct_cases (h : classifyConjunct scans aliases cs c = .ok cs') :
    (∃ a, conjunctAliases c = [a] ∧ cs' = cs.addFilter a c) ∨
    (∃ l r jk, keyColumns c = some (l, r) ∧ KeyOf scans l r jk ∧
      cs' = { cs with joinKeys := cs.joinKeys ++ [jk] }) ∨
    ((conjunctAliases c).length ≠ 1 ∧ keyColumns c = none ∧
      cs' = { cs with postJoinFilters := cs.postJoinFilters ++ [c] }) := by
  unfold classifyConjunct at h
  split at h
  · rename_i a hc
    cases h
    exact .inl ⟨a, hc, rfl⟩
  · rename_i a b l r hc heq
    have hkey : keyColumns c = some (l, r) := by
      rw [keyColumns, if_pos (by rw [hc]; rfl), heq]
    obtain ⟨-, hl, hr, -⟩ := keyColumns_iff.mp hkey
    cases hjk : makeJoinKey scans aliases l r with
    | error e => rw [hjk] at h; cases h
    | ok jk =>
      rw [hjk] at h
      cases h
      exact .inr (.inl ⟨l, r, jk, hkey, makeJoinKey_keyOf hl hr hjk, rfl⟩)
  · rename_i hone htwo
    cases h
    refine .inr (.inr ⟨?_, ?_, rfl⟩)
    · intro hlen
      obtain ⟨a, ha⟩ := List.length_eq_one_iff.mp hlen
      exact hone a ha
    · unfold keyColumns
      split_ifs with hlen
      · obtain ⟨a, b, hab⟩ := List.length_eq_two.mp hlen
        cases heq : asColumnEq c with
        | none => rfl
        | some lr => exact absurd heq (htwo a b lr.1 lr.2 hab)
      · rfl

lemma forall₂_mem_left {α β : Type} {R : α → β → Prop} {xs : List α} {ys : List β}
    (h : List.Forall₂ R xs ys) {x : α} (hx : x ∈ xs) : ∃ y ∈ ys, R x y := by
  induction h with
  | nil => cases hx
  | cons hR _ ih =>
    rcases List.mem_cons.mp hx with rfl | hx
    · exact ⟨_, List.mem_cons_self, hR⟩
    · obtain ⟨y, hy, hR'⟩ := ih hx
      exact ⟨y, List.mem_cons_of_mem _ hy, hR'⟩

lemma Classified.sound {conjuncts : List Expr} (h : Classified scans conjuncts cs) {jk : JoinKey}
    (hjk : jk ∈ cs.joinKeys) : ∃ c ∈ conjuncts, ∃ l r, keyColumns c = some (l, r) ∧
      KeyOf scans l r jk := by
  obtain ⟨lr, hlr, hof⟩ := forall₂_mem_left h.keys.flip hjk
  obtain ⟨c, hc, hkey⟩ := List.mem_filterMap.mp hlr
  exact ⟨c, hc, lr.1, lr.2, hkey, hof⟩

lemma Classified.complete {conjuncts : List Expr} (h : Classified scans conjuncts cs)
    (hc : c ∈ conjuncts) {l r : ColumnRef} (hkey : keyColumns c = some (l, r)) :
    ∃ jk ∈ cs.joinKeys, KeyOf scans l r jk := by
  have hlr : (l, r) ∈ conjuncts.filterMap keyColumns := List.mem_filterMap.mpr ⟨c, hc, hkey⟩
  exact forall₂_mem_left h.keys hlr

lemma classified_nil : Classified scans [] {} := by
  constructor
  · exact fun _ => rfl
  · rfl
  · exact .nil

/-- A conjunct that is no join key leaves the join keys as they are. -/
lemma Classified.noKey {conjuncts : List Expr} (h : Classified scans conjuncts cs)
    (hnone : keyColumns c = none) : List.Forall₂ (fun lr jk => KeyOf scans lr.1 lr.2 jk)
      ((conjuncts ++ [c]).filterMap keyColumns) cs.joinKeys := by
  rw [List.filterMap_append, List.filterMap_cons_none hnone, List.filterMap_nil, List.append_nil]
  exact h.keys

lemma Classified.step {conjuncts : List Expr} (h : Classified scans conjuncts cs)
    (hstep : classifyConjunct scans aliases cs c = .ok cs') :
    Classified scans (conjuncts ++ [c]) cs' := by
  rcases classifyConjunct_cases hstep with ⟨a, ha, rfl⟩ | ⟨l, r, jk, hkey, hof, rfl⟩ |
    ⟨hlen, hnone, rfl⟩
  · have hlen : (conjunctAliases c).length = 1 := by rw [ha]; rfl
    have hnone : keyColumns c = none := by rw [keyColumns, hlen]; rfl
    constructor
    · intro b
      rw [List.filter_append, Conjuncts.addFilter, ← h.filters]
      by_cases hb : b = a
      · subst hb
        simp [ha]
      · simp [ha, Function.update_of_ne hb, Ne.symm hb]
    · rw [List.filter_append, List.filter_cons_of_neg (by simp [hlen]), List.filter_nil,
        List.append_nil]
      exact h.postJoin
    · exact h.noKey hnone
  · have hlen : (conjunctAliases c).length = 2 := by
      by_contra hne
      rw [keyColumns, if_neg hne] at hkey
      cases hkey
    constructor
    · intro b
      rw [List.filter_append, List.filter_cons_of_neg, List.filter_nil, List.append_nil]
      · exact h.filters b
      · intro hb
        rw [of_decide_eq_true hb] at hlen
        cases hlen
    · rw [List.filter_append, List.filter_cons_of_neg (by simp [hkey]), List.filter_nil,
        List.append_nil]
      exact h.postJoin
    · rw [List.filterMap_append, List.filterMap_cons_some hkey, List.filterMap_nil]
      exact List.rel_append h.keys (.cons hof .nil)
  · constructor
    · intro b
      rw [List.filter_append, List.filter_cons_of_neg, List.filter_nil, List.append_nil]
      · exact h.filters b
      · intro hb
        rw [of_decide_eq_true hb] at hlen
        exact hlen rfl
    · rw [List.filter_append, List.filter_cons_of_pos (by simp [hlen, hnone]), List.filter_nil,
        ← h.postJoin]
    · exact h.noKey hnone

lemma foldlM_classified (conjuncts : List Expr)
    (h : conjuncts.foldlM (classifyConjunct scans aliases) {} = .ok cs) :
    Classified scans conjuncts cs := by
  induction conjuncts using List.reverseRecOn generalizing cs with
  | nil =>
    cases h
    exact classified_nil
  | append_singleton conjuncts c ih =>
    rw [List.foldlM_append] at h
    cases hinit : conjuncts.foldlM (classifyConjunct scans aliases) {} with
    | error e => rw [hinit] at h; cases h
    | ok cs₁ =>
      rw [hinit] at h
      change (classifyConjunct scans aliases cs₁ c >>= pure) = .ok cs at h
      rw [bind_pure] at h
      exact (ih hinit).step h

/-- Phase 2: every conjunct is in its class. -/
lemma classify_spec {stmt : SelectStmt} (h : classify scans aliases stmt.whereExpr = .ok cs) :
    Classified scans stmt.conjuncts cs := by
  unfold classify at h
  unfold SelectStmt.conjuncts
  cases hw : stmt.whereExpr with
  | none =>
    rw [hw] at h
    cases h
    exact classified_nil
  | some e =>
    rw [hw] at h
    exact foldlM_classified (flattenAnd e) h

end

end Proofs

end TidyTuples
