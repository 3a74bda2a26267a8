import TidyTuples.Proofs.PlanCorrect

/-!
# How statements are rejected

The errors of code generation are those of the scopes, of the column resolution and of the printer.
Planning fails while it creates the scans, classifies the conjuncts or resolves the SELECT list, and
nowhere else.
-/

namespace TidyTuples

/-- The error is a `std::runtime_error`. -/
def CppError.Thrown (e : CppError) : Prop := ∃ what, e = .runtimeError what

namespace Proofs

open QueryPlanner IRProgram

section

variable {ctx : CompilationContext} {P : CppError → Prop}

/-! ### Code generation -/

/-- Wherever code can be emitted, the consumer only fails with errors in `P`. -/
def ConsumerRaises (P : CppError → Prop) (consume : Consumer) : Prop :=
  ∀ (ctx : CompilationContext) (scope : ConsumerScope) (child : Nat) (ius : List IU),
    Ready ctx.program → ScopeOk ctx.program scope → Binds scope ius →
    ∀ e, consume scope child ctx = .error e → P e

lemma Fails.error {α : Type} {g : Gen α} (h : Fails P g) {e : CppError} (hg : g ctx = .error e) :
    P e := by
  obtain ⟨e', he', hg'⟩ := h ctx
  rw [hg] at hg'
  cases hg'
  exact he'

lemma ifStmt_raises (hv : Valid ctx.program) {cond : IRValueRef} {body : Gen Unit}
    (hbody : ∀ e, body (ctx.withProgram (ctx.program.openIf cond)) = .error e → P e) {e : CppError}
    (h : Gen.ifStmt cond body ctx = .error e) : P e := by
  cases hrun : body (ctx.withProgram (ctx.program.openIf cond)) with
  | error e' =>
    rw [ifStmt_fails hv hrun] at h
    cases h
    exact hbody e hrun
  | ok r =>
    rw [(run_ifStmt_iff hv cond body).mpr ⟨r.2, hrun, rfl⟩] at h
    cases h

lemma countedLoop_raises (hv : Valid ctx.program) {name : String} {zero bound one : IRValueRef}
    {body : IRValueRef → Gen Unit}
    (hemits : ∀ ctx₂, body (.instr ctx.program.loopIndex)
      (ctx.withProgram (ctx.program.openLoop name zero bound)) = .ok ((), ctx₂) →
      Emits False (ctx.program.openLoop name zero bound) ctx₂.program)
    (hbody : ∀ e, body (.instr ctx.program.loopIndex)
      (ctx.withProgram (ctx.program.openLoop name zero bound)) = .error e → P e) {e : CppError}
    (h : Gen.countedLoop name zero bound one body ctx = .error e) : P e := by
  cases hrun : body (.instr ctx.program.loopIndex)
      (ctx.withProgram (ctx.program.openLoop name zero bound)) with
  | error e' =>
    rw [countedLoop_fails hv hrun] at h
    cases h
    exact hbody e hrun
  | ok r =>
    obtain ⟨ctx', hloop, -⟩ := countedLoop_ok ctx one hv hrun (hemits r.2 hrun)
    rw [hloop] at h
    cases h

variable (hP : ∀ iu, P (notInScope iu))
include hP

lemma select_raises {id : Nat} {pred : Predicate} {parent : Consumer} (hraise : pred.Raises P)
    (h : ConsumerRaises P parent) : ConsumerRaises P (selectConsume id pred parent) := by
  intro ctx scope child ius hready hscope hb e he
  unfold selectConsume at he
  by_cases hin : pred.ResolvesIn ius
  · obtain ⟨cond, ctx₁, hcond, -, -⟩ := Predicate.eval_quiet hb hin ctx
    obtain ⟨a₁, -⟩ := Predicate.eval_advances False hready hscope False.elim hcond
    have hscope₁ := hscope.mono a₁.loc
    have hv₁ := a₁.ready.valid
    rw [run_bind_of_ok hcond,
      run_bind_of_ok (show Gen.program ctx₁ = .ok (ctx₁.program, ctx₁) from rfl)] at he
    split_ifs at he
    · exact h ctx₁ scope id ius a₁.ready hscope₁ hb e he
    · apply ifStmt_raises hv₁ _ he
      exact h _ scope id ius (openIf_ready hv₁ cond.valueRef)
        (hscope₁.mono (openIf_spec hv₁ cond.valueRef).loc) hb
  · exact ((Predicate.eval_fails hP hraise hb hin).bind _).error he

lemma buildSide_raises {j : HashJoinTranslator} {scope : ConsumerScope} {ius : List IU}
    (hb : Binds scope ius) {e : CppError} (he : j.consumeBuildSide scope ctx = .error e) : P e := by
  unfold HashJoinTranslator.consumeBuildSide at he
  by_cases hk : ∀ iu ∈ j.buildKeys, iu.id ∈ ius.map IU.id
  · by_cases hp : ∀ iu ∈ j.buildPayloadIUs, iu.id ∈ ius.map IU.id
    · obtain ⟨⟨⟩, ctx', hrun, -⟩ := consumeBuildSide_lays hb hk hp ctx
      unfold HashJoinTranslator.consumeBuildSide at hrun
      rw [hrun] at he
      cases he
    · refine ((hb.getAll hk).bind_fails fun vals _ => ?_ : Fails P _).error he
      exact (hb.getAll_fails hP hp).bind _
  · exact ((hb.getAll_fails hP hk).bind _).error he

lemma probeSide_raises {j : HashJoinTranslator} {parent : Consumer}
    (hemits : ConsumerEmits False parent) (h : ConsumerRaises P parent) {scope : ConsumerScope}
    {ius : List IU} (hready : Ready ctx.program) (hscope : ScopeOk ctx.program scope)
    (hb : Binds scope ius) {e : CppError} (he : j.consumeProbeSide parent scope ctx = .error e) :
    P e := by
  by_cases hkeys : ∀ iu ∈ j.probeKeys, iu.id ∈ ius.map IU.id
  · obtain ⟨ctx₁, matchesPtr, zero, bound, one, adv, hm, -, hrun⟩ :=
      probeSide_opens parent hready hscope hb hkeys
    have hv := adv.ready.valid
    have hloc := (openLoop_spec hv "hj_match" zero bound).loc
    have hloop : Ready (ctx₁.withProgram (ctx₁.program.openLoop "hj_match" zero bound)).program :=
      openLoop_ready hv _ _ _
    have hscope₁ := (hscope.mono adv.loc).mono hloc
    have hm₁ := hm.mono hloc
    have hidx := loopIndex_available hv "hj_match" zero bound
    rw [hrun] at he
    apply countedLoop_raises hv _ _ he
    · exact fun ctx₂ hbody => probeBody_emits hemits hloop hscope₁ hm₁ hidx hbody
    · intro e' he'
      obtain ⟨ctx₂, scope₂, hr₂, hs₂, hb₂, -, hbody⟩ :=
        probeBody_opens (j := j) parent hloop hscope₁ hb hm₁ hidx
      exact h ctx₂ scope₂ j.id _ hr₂ hs₂ hb₂ e' (hbody.symm.trans he')
  · exact ((hb.getAll_fails hP hkeys).bind _).error he

lemma join_raises {j : HashJoinTranslator} {parent : Consumer}
    (hemits : ConsumerEmits False parent) (h : ConsumerRaises P parent) :
    ConsumerRaises P (j.consume parent) := by
  intro ctx scope child ius hready hscope hb e he
  unfold HashJoinTranslator.consume at he
  split_ifs at he
  · exact buildSide_raises hP hb he
  · exact probeSide_raises hP hemits h hready hscope hb he

omit hP in
lemma scan_raises {scan : ScanTranslator} {parent : Consumer}
    (hemits : ConsumerEmits False parent) (h : ConsumerRaises P parent) (hv : Valid ctx.program)
    (ho : Open ctx.program) {e : CppError} (he : scan.produce parent ctx = .error e) : P e := by
  obtain ⟨p, zeroOff, count, one, hstart, hopens⟩ := scanProduce_opens scan parent hv ho
  have hvalid : Valid (ctx.withProgram p).program := hstart.valid
  have hloop : Ready (ctx.withProgram
      (p.openLoop (scan.table.name ++ "_scan") (.instr zeroOff) (.instr count))).program :=
    openLoop_ready hstart.valid _ _ _
  have hidx := loopIndex_available hstart.valid (scan.table.name ++ "_scan") (.instr zeroOff)
    (.instr count)
  rw [hopens] at he
  apply countedLoop_raises hvalid _ _ he
  · exact fun ctx₂ hbody => scanBody_emits hemits hloop hidx hbody
  · intro e' he'
    obtain ⟨ctx₁, scope, hr, hs, hb, -, hbody⟩ := scanBody_opens scan parent hloop hidx
    exact h ctx₁ scope scan.id _ hr hs hb e' (hbody.symm.trans he')

/-- The errors of code generation, also where the two sides of a join are the same operator. -/
theorem produce_raises (op : Operator) (hraise : op.Raises P) {parent : Consumer}
    (hemits : ConsumerEmits False parent) (h : ConsumerRaises P parent) (hv : Valid ctx.program)
    (ho : Open ctx.program) {e : CppError} (he : op.produce parent ctx = .error e) : P e := by
  induction op generalizing parent ctx with
  | scan scan => exact scan_raises hemits h hv ho he
  | select id child pred ih =>
    exact ih hraise.1 (select_emits hemits False.elim) (select_raises hP hraise.2 h) hv ho he
  | hashJoin id build probe buildKeys probeKeys ht ihb ihp =>
    let j := HashJoinTranslator.of id build buildKeys probeKeys ht
    have hjemits : ConsumerEmits False (j.consume parent) := join_emits hemits
    have hjraises := join_raises (j := j) hP hemits h
    cases hrun : build.produce (j.consume parent) ctx with
    | error e' =>
      have herr : Operator.produce (.hashJoin id build probe buildKeys probeKeys ht) parent ctx =
          .error e' := run_bind_of_error hrun
      rw [herr] at he
      cases he
      exact ihb hraise.1 hjemits hjraises hv ho hrun
    | ok r =>
      obtain ⟨-, hv₁, ho₁⟩ :=
        ((Emits.const _ _ _).trans (produce_emits build hjemits False.elim hv ho hrun)).grows hv ho
      have hrest : Operator.produce (.hashJoin id build probe buildKeys probeKeys ht) parent ctx =
          probe.produce (j.consume parent) r.2 := run_bind_of_ok hrun
      exact ihp hraise.2 hjemits hjraises hv₁ ho₁ (hrest.symm.trans he)

lemma print_raises {self : Word} {outputIUs : List IU} (hwide : P tooWide) :
    ConsumerRaises P (printConsume self outputIUs) := by
  intro ctx scope child ius hready hscope hb e he
  by_cases hout : outputIUs.length ≤ 8 ∧ ∀ iu ∈ outputIUs, iu.id ∈ ius.map IU.id
  · obtain ⟨ctx', hrun, -⟩ := print_lays hout.1 hout.2 ctx scope hready hscope hb
    rw [hrun] at he
    cases he
  · obtain ⟨e', he', hrun⟩ := print_fails (fun _ => hP) (fun _ => hwide) hout ctx scope hready hscope hb
    rw [hrun] at he
    cases he
    exact he'

lemma generateCode_raises {root : Operator} {self : Word} {outputIUs : List IU}
    (hraise : root.Raises P) (hwide : P tooWide) (hv : Valid ctx.program) (ho : Open ctx.program)
    {e : CppError} (he : generateCode root self outputIUs ctx = .error e) : P e := by
  cases hrun : root.produce (printConsume self outputIUs) ctx with
  | error e' =>
    have herr : generateCode root self outputIUs ctx = .error e' := run_bind_of_error hrun
    rw [herr] at he
    cases he
    exact produce_raises hP root hraise (print_emits self outputIUs) (print_raises hP hwide) hv ho hrun
  | ok r =>
    have hok : generateCode root self outputIUs ctx = _ := run_bind_of_ok hrun
    rw [hok] at he
    cases he

end

/-! ### Planning -/

section

variable {α β : Type} {ctx ctx' : CompilationContext} {scans : Scans} {cs : Conjuncts}
  {alloc : Nat → Word} {plans : List (String × Operator)} {catalog : SQLCatalog} {stmt : SelectStmt}
  {aliases : List String} {e : CppError}

lemma run_bind_error {x : Gen α} {k : α → Gen β} (h : (x >>= k) ctx = .error e) :
    x ctx = .error e ∨ ∃ a ctx₁, x ctx = .ok (a, ctx₁) ∧ k a ctx₁ = .error e := by
  cases hx : x ctx with
  | error e' =>
    rw [run_bind_of_error hx] at h
    cases h
    exact .inl rfl
  | ok r =>
    rw [run_bind_of_ok hx] at h
    exact .inr ⟨r.1, r.2, rfl, h⟩

lemma run_ofExcept_error {x : Except CppError α} (h : Gen.ofExcept x ctx = .error e) :
    x = .error e := by
  cases x with
  | error e' =>
    cases h
    rfl
  | ok a => cases h

lemma planScan_ok (cs : Conjuncts) (ctx : CompilationContext) {a : String} {s : ScanTranslator}
    (hs : scans.lookup a = some s) : ∃ r, planScan scans cs a ctx = .ok r := by
  unfold planScan
  rw [hs]
  dsimp only
  split_ifs
  · exact ⟨_, rfl⟩
  · exact ⟨_, rfl⟩

lemma planScans_ok (cs : Conjuncts) (plans : List (String × Operator)) (ctx : CompilationContext)
    (h : ∀ a ∈ aliases, ∃ s, scans.lookup a = some s) :
    ∃ r, planScans scans cs aliases plans ctx = .ok r := by
  induction aliases generalizing plans ctx with
  | nil => exact ⟨_, rfl⟩
  | cons a rest ih =>
    obtain ⟨s, hs⟩ := h a List.mem_cons_self
    obtain ⟨r, hr⟩ := planScan_ok cs ctx hs
    rw [planScans, run_bind_of_ok hr]
    exact ih _ _ fun b hb => h b (List.mem_cons_of_mem a hb)

lemma planAt_of_some {a : String} {op : Operator} (h : plans.lookup a = some op) :
    planAt plans a ctx = .ok (op, ctx) := by
  unfold planAt
  rw [h]
  rfl

lemma newHashJoin_run (build probe : Operator) (keys : List (IU × IU)) :
    newHashJoin alloc build probe keys ctx = .ok (.hashJoin ctx.numOperators build probe
      (keys.map Prod.fst) (keys.map Prod.snd) (alloc ctx.numOperators),
      { ctx with numOperators := ctx.numOperators + 1 }) := rfl

lemma joinRest_ok (joinKeys : List JoinKey) (planRoot : Operator) (ctx : CompilationContext)
    (h : ∀ a ∈ aliases, ∃ op, plans.lookup a = some op) :
    ∃ r, joinRest alloc joinKeys plans aliases planRoot ctx = .ok r := by
  induction aliases generalizing planRoot ctx with
  | nil => exact ⟨_, rfl⟩
  | cons a rest ih =>
    obtain ⟨op, hop⟩ := h a List.mem_cons_self
    rw [joinRest, run_bind_of_ok (planAt_of_some hop), run_bind_of_ok (newHashJoin_run _ _ _)]
    exact ih _ _ fun b hb => h b (List.mem_cons_of_mem a hb)

lemma joinTree_ok (alloc : Nat → Word) (joinKeys : List JoinKey) (ctx : CompilationContext)
    (hne : aliases ≠ []) (h : ∀ a ∈ aliases, ∃ op, plans.lookup a = some op) :
    ∃ r, joinTree alloc joinKeys plans aliases ctx = .ok r := by
  match aliases with
  | [] => exact absurd rfl hne
  | [only] =>
    obtain ⟨op, hop⟩ := h only List.mem_cons_self
    exact ⟨_, planAt_of_some hop⟩
  | first :: second :: rest =>
    obtain ⟨build, hbuild⟩ := h first List.mem_cons_self
    obtain ⟨probe, hprobe⟩ := h second (List.mem_cons_of_mem first List.mem_cons_self)
    rw [joinTree, run_bind_of_ok (planAt_of_some hbuild), run_bind_of_ok (planAt_of_some hprobe),
      run_bind_of_ok (newHashJoin_run _ _ _)]
    exact joinRest_ok _ _ _ fun a ha => h a (List.mem_cons_of_mem first (List.mem_cons_of_mem second ha))

lemma wrapPostJoin_ok (scans : Scans) (cs : Conjuncts) (planRoot : Operator)
    (ctx : CompilationContext) : ∃ r, wrapPostJoin scans cs planRoot ctx = .ok r := by
  unfold wrapPostJoin
  split_ifs
  · exact ⟨_, rfl⟩
  · exact ⟨_, rfl⟩

/-- Planning fails in three places only. -/
lemma plan_error (hne : stmt.fromList ≠ []) (h : plan alloc catalog stmt ctx = .error e) :
    createScans catalog stmt.fromList [] ctx = .error e ∨ ∃ scans ctx₁,
      createScans catalog stmt.fromList [] ctx = .ok (scans, ctx₁) ∧
      (classify scans (stmt.fromList.map TableRef.aliasName) stmt.whereExpr = .error e ∨
        resolveSelectList scans (stmt.fromList.map TableRef.aliasName) stmt.selectList = .error e) := by
  rcases run_bind_error h with hscans | ⟨scans, ctx₁, hscans, h₁⟩
  · exact .inl hscans
  refine .inr ⟨scans, ctx₁, hscans, ?_⟩
  rcases run_bind_error h₁ with hclass | ⟨cs, ctx₂, hclass, h₂⟩
  · exact .inl (run_ofExcept_error hclass)
  obtain ⟨-, rfl⟩ := run_ofExcept_ok hclass
  obtain ⟨hof, happart, -⟩ := createScans_scansOf hscans
  have hfound : ∀ a ∈ stmt.fromList.map TableRef.aliasName, ∃ s, scans.lookup a = some s := by
    intro a ha
    obtain ⟨ref, href, rfl⟩ := List.mem_map.mp ha
    exact hof.found ref href
  obtain ⟨⟨plans, ctx₃⟩, hplans⟩ := planScans_ok cs [] ctx₂ hfound
  rw [run_bind_of_ok hplans] at h₂
  obtain ⟨hplansOf, -⟩ := planScans_spec
    (fun a b s t hs ht hne => (happart.apart a b s t hs ht hne).1)
    (fun a s hs => (happart.fresh a s hs).2) (Nat.le_refl _) (plansOf_nil scans cs _ _) hplans
  rw [List.nil_append] at hplansOf
  obtain ⟨⟨joined, ctx₄⟩, hjoined⟩ :=
    joinTree_ok alloc cs.joinKeys ctx₃ (by simpa using hne) hplansOf.found
  rw [run_bind_of_ok hjoined] at h₂
  obtain ⟨⟨root, ctx₅⟩, hroot⟩ := wrapPostJoin_ok scans cs joined ctx₄
  rw [run_bind_of_ok hroot] at h₂
  rcases run_bind_error h₂ with hout | ⟨output, ctx₆, -, h₃⟩
  · exact .inr (run_ofExcept_error hout)
  · cases h₃

lemma foldlM_error {f : β → α → Except CppError β} {xs : List α} {init : β}
    (h : xs.foldlM f init = .error e) : ∃ x ∈ xs, ∃ acc, f acc x = .error e := by
  induction xs generalizing init with
  | nil => cases h
  | cons x rest ih =>
    rw [List.foldlM_cons] at h
    cases hx : f init x with
    | error e' =>
      rw [hx] at h
      cases h
      exact ⟨x, List.mem_cons_self, init, hx⟩
    | ok acc =>
      rw [hx] at h
      obtain ⟨y, hy, hrest⟩ := ih h
      exact ⟨y, List.mem_cons_of_mem x hy, hrest⟩

lemma mapM_error {f : α → Except CppError β} {xs : List α} (h : xs.mapM f = .error e) :
    ∃ x ∈ xs, f x = .error e := by
  induction xs with
  | nil => cases h
  | cons x rest ih =>
    rw [List.mapM_cons] at h
    cases hx : f x with
    | error e' =>
      rw [hx] at h
      cases h
      exact ⟨x, List.mem_cons_self, hx⟩
    | ok y =>
      rw [hx] at h
      cases hrest : rest.mapM f with
      | error e' =>
        rw [hrest] at h
        cases h
        obtain ⟨z, hz, hfz⟩ := ih hrest
        exact ⟨z, List.mem_cons_of_mem x hz, hfz⟩
      | ok ys =>
        rw [hrest] at h
        cases h

/-- Only the keys can fail to be classified. -/
lemma classify_error (h : classify scans aliases stmt.whereExpr = .error e) :
    ∃ c ∈ stmt.conjuncts, ∃ l r, keyColumns c = some (l, r) ∧
      makeJoinKey scans aliases l r = .error e := by
  unfold classify at h
  unfold SelectStmt.conjuncts
  cases hw : stmt.whereExpr with
  | none =>
    rw [hw] at h
    cases h
  | some e =>
    rw [hw] at h
    obtain ⟨c, hc, cs, herr⟩ := foldlM_error h
    refine ⟨c, hc, ?_⟩
    unfold classifyConjunct at herr
    split at herr
    · cases herr
    · rename_i a b l r hab heq
      refine ⟨l, r, ?_, ?_⟩
      · rw [keyColumns, hab, if_pos (by rfl), heq]
      · cases hjk : makeJoinKey scans aliases l r with
        | error e' =>
          rw [hjk] at herr
          cases herr
          rfl
        | ok jk =>
          rw [hjk] at herr
          cases herr
    · cases herr

lemma resolveSelectList_error {selectList : List SelectItem}
    (h : resolveSelectList scans aliases selectList = .error e) :
    ∃ item ∈ selectList, resolveItem scans aliases item = .error e := by
  unfold resolveSelectList at h
  cases hall : selectList.mapM (resolveItem scans aliases) with
  | error e' =>
    rw [hall] at h
    cases h
    exact mapM_error hall
  | ok pss =>
    rw [hall] at h
    cases h

/-- A `*` fails where a column of a FROM entry is not found. -/
lemma resolveStar_error (h : resolveItem scans aliases .star = .error e) :
    ∃ a ∈ aliases, expandAlias scans a = .error e := by
  unfold resolveItem at h
  cases hall : aliases.mapM (expandAlias scans) with
  | error e' =>
    rw [hall] at h
    cases h
    exact mapM_error hall
  | ok pss =>
    rw [hall] at h
    cases h

lemma expandAlias_error {a : String} {s : ScanTranslator} (hs : scans.lookup a = some s)
    (h : expandAlias scans a = .error e) : ∃ col ∈ s.table.columns, s.getIU col.name = .error e := by
  unfold expandAlias at h
  rw [hs] at h
  obtain ⟨col, hcol, herr⟩ := mapM_error h
  refine ⟨col, hcol, ?_⟩
  cases hget : s.getIU col.name with
  | error e' =>
    rw [hget] at herr
    cases herr
    rfl
  | ok iu =>
    rw [hget] at herr
    cases herr

end

end Proofs

end TidyTuples
