import TidyTuples.Proofs.JoinTree

/-!
# The tree that the planner returns

`Planned` says which tree `plan` builds from the scans and the classified conjuncts, without the
code that builds it.
-/

namespace TidyTuples.Proofs

open QueryPlanner

/-- The scans joined so far, the last one first. -/
inductive Joined (scans : Scans) (cs : Conjuncts) : List String → Operator → Prop
  | scan {a : String} {op : Operator} : ScanUnder scans cs a op → Joined scans cs [a] op
  | first {f n : String} {build probe : Operator} {id : Nat} {ht : Word} :
      ScanUnder scans cs f build → ScanUnder scans cs n probe → (build.id = probe.id ↔ f = n) →
      Joined scans cs [f, n] (.hashJoin id build probe
        ((firstJoinKeys cs.joinKeys f n).map Prod.fst)
        ((firstJoinKeys cs.joinKeys f n).map Prod.snd) ht)
  | later {n : String} {done : List String} {build probe : Operator} {id : Nat} {ht : Word} :
      Joined scans cs done probe → 2 ≤ done.length → ScanUnder scans cs n build →
      build.id ≠ probe.id → Joined scans cs (n :: done) (.hashJoin id build probe
        ((laterJoinKeys cs.joinKeys n).map Prod.fst)
        ((laterJoinKeys cs.joinKeys n).map Prod.snd) ht)

inductive Planned (scans : Scans) (cs : Conjuncts) (order : List String) : Operator → Prop
  | bare {op : Operator} : Joined scans cs order op → cs.postJoinFilters = [] →
      Planned scans cs order op
  | filtered {op : Operator} {id : Nat} : Joined scans cs order op → cs.postJoinFilters ≠ [] →
      Planned scans cs order (.select id op (predicateOf scans cs.postJoinFilters))

/-- The order in which the FROM entries are joined: the second scan, the first, then the others
on top of them. -/
def joinOrder : List String → List String
  | first :: second :: rest => rest.reverse ++ [first, second]
  | aliases => aliases

lemma joinOrder_perm (aliases : List String) : (joinOrder aliases).Perm aliases := by
  match aliases with
  | [] => exact .refl _
  | [a] => exact .refl _
  | first :: second :: rest =>
    exact (List.perm_append_comm).trans ((List.reverse_perm rest).append_left [first, second])

/-- The aliases of the first join. -/
def joinBase (order : List String) : List String := order.drop (order.length - 2)

lemma joinBase_cons {n : String} {done : List String} (h : 2 ≤ done.length) :
    joinBase (n :: done) = joinBase done := by
  unfold joinBase
  have hlen : (n :: done).length - 2 = (done.length - 2) + 1 := by
    rw [List.length_cons]
    omega
  rw [hlen, List.drop_succ_cons]

lemma joinBase_subset {order : List String} {a : String} (h : a ∈ joinBase order) : a ∈ order :=
  List.mem_of_mem_drop h

lemma joinBase_joinOrder (aliases : List String) : joinBase (joinOrder aliases) = aliases.take 2 := by
  match aliases with
  | [] => rfl
  | [a] => rfl
  | first :: second :: rest =>
    unfold joinBase joinOrder
    have hlen : (rest.reverse ++ [first, second]).length - 2 = rest.reverse.length := by simp
    rw [hlen, List.drop_left]
    rfl

lemma joinBase_nodup {order : List String} (h : order.Nodup) : (joinBase order).Nodup :=
  h.sublist (List.drop_sublist _ _)

lemma joinBase_pair {f n : String} (h : (joinBase [f, n]).Nodup) : f ≠ n := by
  simpa using (List.nodup_cons.mp h).1

section

variable {scans : Scans} {cs : Conjuncts} {ctx ctx' : CompilationContext}

/-- Planning changes the counters only. -/
structure Unchanged (ctx ctx' : CompilationContext) : Prop where
  program : ctx'.program = ctx.program
  heap : ctx'.heap = ctx.heap
  operators : ctx.numOperators ≤ ctx'.numOperators

lemma Unchanged.refl (ctx : CompilationContext) : Unchanged ctx ctx := ⟨rfl, rfl, Nat.le_refl _⟩

lemma Unchanged.trans {ctx₁ ctx₂ ctx₃ : CompilationContext} (h : Unchanged ctx₁ ctx₂)
    (h' : Unchanged ctx₂ ctx₃) : Unchanged ctx₁ ctx₃ :=
  ⟨h'.program.trans h.program, h'.heap.trans h.heap, h.operators.trans h'.operators⟩

lemma newOperator_unchanged (ctx : CompilationContext) :
    Unchanged ctx { ctx with numOperators := ctx.numOperators + 1 } :=
  ⟨rfl, rfl, Nat.le_succ _⟩

/-! ### The scans under their filters -/

/-- The id of a plan is that of its scan or a new one. -/
lemma planScan_spec {a : String} {op : Operator} (h : planScan scans cs a ctx = .ok (op, ctx')) :
    ScanUnder scans cs a op ∧ Unchanged ctx ctx' ∧
      ((∃ s, scans.lookup a = some s ∧ op.id = s.id) ∨
        (op.id = ctx.numOperators ∧ ctx'.numOperators = ctx.numOperators + 1)) := by
  unfold planScan at h
  cases hs : scans.lookup a with
  | none =>
    rw [hs] at h
    cases h
  | some s =>
    rw [hs] at h
    dsimp only at h
    split_ifs at h with hnone
    · obtain ⟨rfl, rfl⟩ := run_pure_ok h
      exact ⟨.bare hs hnone, .refl _, .inl ⟨s, rfl, rfl⟩⟩
    · obtain ⟨id, ctx₁, hid, hrest⟩ := run_bind_ok h
      cases hid
      obtain ⟨rfl, rfl⟩ := run_pure_ok hrest
      exact ⟨.filtered hs hnone, newOperator_unchanged ctx, .inr ⟨rfl, rfl⟩⟩

/-- The plans of the aliases in `done`; operators from `base` on are new. -/
structure PlansOf (scans : Scans) (cs : Conjuncts) (base : Nat) (ctx : CompilationContext)
    (done : List String) (plans : List (String × Operator)) : Prop where
  found : ∀ a ∈ done, ∃ op, plans.lookup a = some op
  under : ∀ a op, plans.lookup a = some op → ScanUnder scans cs a op
  fresh : ∀ a op, plans.lookup a = some op → op.id < ctx.numOperators
  origin : ∀ a op, plans.lookup a = some op →
    (∃ s, scans.lookup a = some s ∧ op.id = s.id) ∨ base ≤ op.id
  apart : ∀ a b op op', plans.lookup a = some op → plans.lookup b = some op' → a ≠ b →
    op.id ≠ op'.id

lemma PlansOf.insert {base : Nat} {done : List String} {plans : List (String × Operator)}
    (h : PlansOf scans cs base ctx done plans)
    (hids : ∀ a b s t, scans.lookup a = some s → scans.lookup b = some t → a ≠ b → s.id ≠ t.id)
    (hscans : ∀ a s, scans.lookup a = some s → s.id < base) (hbase : base ≤ ctx.numOperators)
    {a : String} {op : Operator} (hrun : planScan scans cs a ctx = .ok (op, ctx')) :
    PlansOf scans cs base ctx' (done ++ [a]) ((a, op) :: plans.filter (·.1 != a)) := by
  obtain ⟨hunder, hsame, hid⟩ := planScan_spec hrun
  have hcases : ∀ {b : String} {op' : Operator},
      ((a, op) :: plans.filter (·.1 != a)).lookup b = some op' →
      (b = a ∧ op' = op) ∨ (b ≠ a ∧ plans.lookup b = some op') := by
    intro b op' hb
    rw [lookup_insert] at hb
    split_ifs at hb with hba
    · exact .inl ⟨hba, (Option.some.inj hb).symm⟩
    · exact .inr ⟨hba, hb⟩
  have hfresh : op.id < ctx'.numOperators := by
    rcases hid with ⟨s, hs, hop⟩ | ⟨hop, hnum⟩
    · rw [hop]
      exact Nat.lt_of_lt_of_le (hscans a s hs) (hbase.trans hsame.operators)
    · omega
  have happart : ∀ {b : String} {op' : Operator}, b ≠ a → plans.lookup b = some op' →
      op.id ≠ op'.id := by
    intro b op' hba hb
    rcases hid with ⟨s, hs, hop⟩ | ⟨hop, -⟩
    · rcases h.origin b op' hb with ⟨t, ht, hop'⟩ | hge
      · rw [hop, hop']
        exact hids a b s t hs ht hba.symm
      · have hlt := hscans a s hs
        omega
    · have hlt := h.fresh b op' hb
      omega
  constructor
  · intro b hb
    rw [lookup_insert]
    by_cases hba : b = a
    · exact ⟨op, if_pos hba⟩
    · rw [if_neg hba]
      rcases List.mem_append.mp hb with hb | hb
      · exact h.found b hb
      · exact absurd (List.mem_singleton.mp hb) hba
  · intro b op' hb
    rcases hcases hb with ⟨rfl, rfl⟩ | ⟨-, hb⟩
    · exact hunder
    · exact h.under b op' hb
  · intro b op' hb
    rcases hcases hb with ⟨rfl, rfl⟩ | ⟨-, hb⟩
    · exact hfresh
    · exact Nat.lt_of_lt_of_le (h.fresh b op' hb) hsame.operators
  · intro b op' hb
    rcases hcases hb with ⟨rfl, rfl⟩ | ⟨-, hb⟩
    · rcases hid with hscan | ⟨hop, -⟩
      · exact .inl hscan
      · exact .inr (hop ▸ hbase)
    · exact h.origin b op' hb
  · intro b c op₁ op₂ hb hc hne
    rcases hcases hb with ⟨rfl, rfl⟩ | ⟨hba, hb'⟩
    · rcases hcases hc with ⟨rfl, rfl⟩ | ⟨hca, hc'⟩
      · exact absurd rfl hne
      · exact happart hca hc'
    · rcases hcases hc with ⟨rfl, rfl⟩ | ⟨-, hc'⟩
      · exact (happart hba hb').symm
      · exact h.apart b c op₁ op₂ hb' hc' hne

/-- Phase 3, first part: every alias has its scan under its filter. -/
lemma planScans_spec {base : Nat} {aliases done : List String} {plans plans' : List (String × Operator)}
    (hids : ∀ a b s t, scans.lookup a = some s → scans.lookup b = some t → a ≠ b → s.id ≠ t.id)
    (hscans : ∀ a s, scans.lookup a = some s → s.id < base) (hbase : base ≤ ctx.numOperators)
    (h : PlansOf scans cs base ctx done plans)
    (hrun : planScans scans cs aliases plans ctx = .ok (plans', ctx')) :
    PlansOf scans cs base ctx' (done ++ aliases) plans' ∧ Unchanged ctx ctx' := by
  induction aliases generalizing done plans ctx with
  | nil =>
    obtain ⟨rfl, rfl⟩ := run_pure_ok hrun
    rw [List.append_nil]
    exact ⟨h, .refl _⟩
  | cons a rest ih =>
    obtain ⟨op, ctx₁, hop, hrest⟩ := run_bind_ok hrun
    have hsame := (planScan_spec hop).2.1
    obtain ⟨hplans, hrestSame⟩ :=
      ih (hbase.trans hsame.operators) (h.insert hids hscans hbase hop) hrest
    rw [List.append_assoc] at hplans
    exact ⟨hplans, hsame.trans hrestSame⟩

lemma plansOf_nil (scans : Scans) (cs : Conjuncts) (base : Nat) (ctx : CompilationContext) :
    PlansOf scans cs base ctx [] [] := by
  constructor
  · intro a ha
    cases ha
  all_goals
    intro a
    simp

/-! ### The joins -/

variable {alloc : Nat → Word} {base : Nat} {done : List String} {plans : List (String × Operator)}

lemma planAt_ok {a : String} {op : Operator} (h : planAt plans a ctx = .ok (op, ctx')) :
    plans.lookup a = some op ∧ ctx' = ctx := by
  unfold planAt at h
  cases hop : plans.lookup a with
  | none =>
    rw [hop] at h
    cases h
  | some op' =>
    rw [hop] at h
    obtain ⟨rfl, rfl⟩ := run_pure_ok h
    exact ⟨rfl, rfl⟩

lemma newHashJoin_ok {build probe root : Operator} {keys : List (IU × IU)}
    (h : newHashJoin alloc build probe keys ctx = .ok (root, ctx')) :
    root = .hashJoin ctx.numOperators build probe (keys.map Prod.fst) (keys.map Prod.snd)
      (alloc ctx.numOperators) ∧ ctx' = { ctx with numOperators := ctx.numOperators + 1 } := by
  obtain ⟨id, ctx₁, hid, hrest⟩ := run_bind_ok h
  cases hid
  obtain ⟨rfl, rfl⟩ := run_pure_ok hrest
  exact ⟨rfl, rfl⟩

/-- A join is newer than the plans, so that its id is none of theirs. -/
lemma joinRest_spec {aliases : List String} {planRoot root : Operator}
    (hplans : PlansOf scans cs base ctx done plans) {ctx₁ : CompilationContext}
    (hnew : ctx.numOperators ≤ planRoot.id) (hold : planRoot.id < ctx₁.numOperators)
    {joined : List String} (htree : Joined scans cs joined planRoot) (htwo : 2 ≤ joined.length)
    (hrun : joinRest alloc cs.joinKeys plans aliases planRoot ctx₁ = .ok (root, ctx')) :
    Joined scans cs (aliases.reverse ++ joined) root ∧ Unchanged ctx₁ ctx' := by
  induction aliases generalizing planRoot joined ctx₁ with
  | nil =>
    obtain ⟨rfl, rfl⟩ := run_pure_ok hrun
    exact ⟨htree, .refl _⟩
  | cons n rest ih =>
    obtain ⟨build, ctx₂, hbuild, hrun₂⟩ := run_bind_ok hrun
    obtain ⟨hlookup, rfl⟩ := planAt_ok hbuild
    obtain ⟨join, ctx₃, hjoin, hrest⟩ := run_bind_ok hrun₂
    obtain ⟨rfl, rfl⟩ := newHashJoin_ok hjoin
    have hid : build.id ≠ planRoot.id := by
      have hlt := hplans.fresh n build hlookup
      omega
    have hstep := @Joined.later scans cs n joined build planRoot ctx₂.numOperators
      (alloc ctx₂.numOperators) htree htwo (hplans.under n build hlookup) hid
    have hnew' : ctx.numOperators ≤ ctx₂.numOperators := by omega
    have htwo' : 2 ≤ (n :: joined).length := Nat.le_succ_of_le htwo
    obtain ⟨hjoined, hsame⟩ := ih (show _ ≤ Operator.id (.hashJoin ctx₂.numOperators _ _ _ _ _)
      from hnew') (Nat.lt_succ_self _) hstep htwo' hrest
    rw [List.reverse_cons, List.append_assoc]
    exact ⟨hjoined, (newOperator_unchanged ctx₂).trans hsame⟩

/-- Phase 3, second part: the joins of the plans. -/
lemma joinTree_spec {aliases : List String} {root : Operator}
    (hplans : PlansOf scans cs base ctx done plans)
    (hrun : joinTree alloc cs.joinKeys plans aliases ctx = .ok (root, ctx')) :
    Joined scans cs (joinOrder aliases) root ∧ Unchanged ctx ctx' := by
  match aliases with
  | [] => cases hrun
  | [only] =>
    obtain ⟨hlookup, rfl⟩ := planAt_ok hrun
    exact ⟨.scan (hplans.under only root hlookup), .refl _⟩
  | first :: second :: rest =>
    obtain ⟨build, ctx₁, hbuild, hrun₁⟩ := run_bind_ok hrun
    obtain ⟨hlookup₁, rfl⟩ := planAt_ok hbuild
    obtain ⟨probe, ctx₂, hprobe, hrun₂⟩ := run_bind_ok hrun₁
    obtain ⟨hlookup₂, rfl⟩ := planAt_ok hprobe
    obtain ⟨join, ctx₃, hjoin, hrest⟩ := run_bind_ok hrun₂
    obtain ⟨rfl, rfl⟩ := newHashJoin_ok hjoin
    have hsides : build.id = probe.id ↔ first = second := by
      constructor
      · intro hid
        by_contra hne
        exact hplans.apart first second build probe hlookup₁ hlookup₂ hne hid
      · rintro rfl
        rw [hlookup₁] at hlookup₂
        cases hlookup₂
        rfl
    have hstep := @Joined.first scans cs first second build probe ctx₂.numOperators
      (alloc ctx₂.numOperators) (hplans.under first build hlookup₁) (hplans.under second probe hlookup₂)
      hsides
    obtain ⟨hjoined, hsame⟩ := joinRest_spec hplans (Nat.le_refl _) (Nat.lt_succ_self _) hstep
      (Nat.le_refl _) hrest
    exact ⟨hjoined, (newOperator_unchanged ctx₂).trans hsame⟩

lemma wrapPostJoin_spec {order : List String} {planRoot root : Operator}
    (htree : Joined scans cs order planRoot)
    (hrun : wrapPostJoin scans cs planRoot ctx = .ok (root, ctx')) :
    Planned scans cs order root ∧ Unchanged ctx ctx' := by
  unfold wrapPostJoin at hrun
  split_ifs at hrun with hnone
  · obtain ⟨rfl, rfl⟩ := run_pure_ok hrun
    exact ⟨.bare htree hnone, .refl _⟩
  · obtain ⟨id, ctx₁, hid, hrest⟩ := run_bind_ok hrun
    cases hid
    obtain ⟨rfl, rfl⟩ := run_pure_ok hrest
    exact ⟨.filtered htree hnone, newOperator_unchanged ctx⟩

/-- What `plan` returns. -/
structure PlanOf (catalog : SQLCatalog) (stmt : SelectStmt) (ctx : CompilationContext)
    (result : PlanResult) (scans : Scans) (cs : Conjuncts) : Prop where
  created : ∃ ctx₁, createScans catalog stmt.fromList [] ctx = .ok (scans, ctx₁) ∧
    ScansApart ctx₁ scans
  scansOf : ScansOf catalog stmt.fromList scans
  classified : classify scans (stmt.fromList.map TableRef.aliasName) stmt.whereExpr = .ok cs
  root : Planned scans cs (joinOrder (stmt.fromList.map TableRef.aliasName)) result.root
  output : ∃ output, resolveSelectList scans (stmt.fromList.map TableRef.aliasName)
    stmt.selectList = .ok output ∧ result.outputIUs = output.map Prod.fst

theorem plan_spec {catalog : SQLCatalog} {stmt : SelectStmt} {result : PlanResult}
    (h : plan alloc catalog stmt ctx = .ok (result, ctx')) :
    ∃ scans cs, PlanOf catalog stmt ctx result scans cs ∧ ctx'.program = ctx.program ∧
      ctx'.heap = ctx.heap := by
  obtain ⟨scans, ctx₁, hscans, h₁⟩ := run_bind_ok h
  obtain ⟨cs, ctx₂, hcs, h₂⟩ := run_bind_ok h₁
  obtain ⟨hclass, rfl⟩ := run_ofExcept_ok hcs
  obtain ⟨plans, ctx₃, hplans, h₃⟩ := run_bind_ok h₂
  obtain ⟨joined, ctx₄, hjoined, h₄⟩ := run_bind_ok h₃
  obtain ⟨root, ctx₅, hroot, h₅⟩ := run_bind_ok h₄
  obtain ⟨output, ctx₆, hout, h₆⟩ := run_bind_ok h₅
  obtain ⟨houtput, rfl⟩ := run_ofExcept_ok hout
  obtain ⟨rfl, rfl⟩ := run_pure_ok h₆
  obtain ⟨hof, happart, hprog, hheap⟩ := createScans_scansOf hscans
  obtain ⟨hplansOf, hsame₁⟩ := planScans_spec
    (fun a b s t hs ht hne => (happart.apart a b s t hs ht hne).1)
    (fun a s hs => (happart.fresh a s hs).2) (Nat.le_refl _) (plansOf_nil scans cs _ _) hplans
  obtain ⟨hjoinedOf, hsame₂⟩ := joinTree_spec hplansOf hjoined
  obtain ⟨hplanned, hsame₃⟩ := wrapPostJoin_spec hjoinedOf hroot
  have hsame := (hsame₁.trans hsame₂).trans hsame₃
  refine ⟨scans, cs, ?_, hsame.program.trans hprog, hsame.heap.trans hheap⟩
  exact {
    created := ⟨_, hscans, happart⟩
    scansOf := hof
    classified := hclass
    root := hplanned
    output := ⟨output, houtput, rfl⟩ }

end

end TidyTuples.Proofs
