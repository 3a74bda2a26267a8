import TidyTuples.Proofs.Layout
import TidyTuples.Sql.Runner

/-!
# When code generation fails

A tree that is not scoped is rejected while its code is generated, so that generation succeeds on
the scoped trees and on no others. `P` says which errors are raised on the way.
-/

namespace TidyTuples

/-- The error of `ConsumerScope::get`. -/
def notInScope (iu : IU) : CppError := .runtimeError ("IU not in scope: " ++ iu.name)

/-- The column resolution only fails with errors in `P`. -/
def Predicate.Raises (P : CppError → Prop) (pred : Predicate) : Prop :=
  pred.conjuncts ≠ [] ∧ ∀ ref e, pred.resolveColumn ref = .error e → P e

def Operator.Raises (P : CppError → Prop) : Operator → Prop
  | scan _ => True
  | select _ child predicate => child.Raises P ∧ predicate.Raises P
  | hashJoin _ build probe _ _ _ => build.Raises P ∧ probe.Raises P

namespace Proofs

open IRProgram

section

variable {α β : Type} {ctx : CompilationContext} {P : CppError → Prop}

/-- Straight-line generation fails with an error in `P`. -/
def Fails (P : CppError → Prop) (g : Gen α) : Prop := ∀ ctx, ∃ e, P e ∧ g ctx = .error e

lemma Fails.bind {g : Gen α} (h : Fails P g) (k : α → Gen β) : Fails P (g >>= k) := by
  intro ctx
  obtain ⟨e, he, hg⟩ := h ctx
  exact ⟨e, he, run_bind_of_error hg⟩

lemma Lays.bind_fails {g : Gen α} {k : α → Gen β} {f : Heap → Heap} {Q : α → Prop}
    (h : Lays g f Q) (h' : ∀ a, Q a → Fails P (k a)) : Fails P (g >>= k) := by
  intro ctx
  obtain ⟨a, ctx₁, hg, -, ha⟩ := h ctx
  obtain ⟨e, he, hk⟩ := h' a ha ctx₁
  refine ⟨e, he, ?_⟩
  rw [run_bind_of_ok hg, hk]

lemma fails_ofExcept {e : CppError} (h : P e) : Fails P (Gen.ofExcept (.error e : Except CppError α)) :=
  fun _ => ⟨e, h, rfl⟩

/-! ### Predicates -/

lemma Binds.get_fails {scope : ConsumerScope} {ius : List IU} (h : Binds scope ius) {iu : IU}
    (hiu : iu.id ∉ ius.map IU.id) : scope.get iu = .error (notInScope iu) := by
  have hnone : scope.bindings iu.id = none := by
    cases hv : scope.bindings iu.id with
    | none => rfl
    | some v => exact absurd (h.of_get hv) hiu
  rw [ConsumerScope.get, hnone]
  rfl

section

variable (hP : ∀ iu, P (notInScope iu))
include hP

lemma Binds.getAll_fails {scope : ConsumerScope} {ius : List IU} (h : Binds scope ius)
    {req : List IU} (hreq : ¬ ∀ iu ∈ req, iu.id ∈ ius.map IU.id) : Fails P (scope.getAll req) := by
  have hvals : ∃ e, P e ∧ req.mapM scope.get = .error e := by
    induction req with
    | nil => exact absurd (fun iu hiu => by cases hiu) hreq
    | cons iu rest ih =>
      rw [List.mapM_cons]
      by_cases hiu : iu.id ∈ ius.map IU.id
      · obtain ⟨v, hv⟩ := h.get hiu
        obtain ⟨e, he, hrest⟩ := ih fun hall => hreq (List.forall_mem_cons.mpr ⟨hiu, hall⟩)
        refine ⟨e, he, ?_⟩
        rw [hv, hrest]
        rfl
      · refine ⟨notInScope iu, hP iu, ?_⟩
        rw [h.get_fails hiu]
        rfl
  obtain ⟨e, he, hvals⟩ := hvals
  unfold ConsumerScope.getAll
  rw [hvals]
  exact fails_ofExcept he

lemma evalExpr_fails {resolve : ColumnRef → Except CppError IU}
    (hres : ∀ ref e, resolve ref = .error e → P e) {scope : ConsumerScope} {ius : List IU}
    (hb : Binds scope ius) {e : Expr} (h : ¬ e.ResolvesIn resolve ius) :
    Fails P (evalExpr resolve scope e) := by
  induction e with
  | colRef ref =>
    rw [evalExpr]
    cases hr : resolve ref with
    | error e => exact (fails_ofExcept (hres ref e hr)).bind _
    | ok iu =>
      have hiu : iu.id ∉ ius.map IU.id := fun hmem => h ⟨iu, hr, hmem⟩
      apply (quiet_ofExcept (P := fun a => a = iu) rfl).bind_fails
      intro a ha
      rw [ha, hb.get_fails hiu]
      exact fails_ofExcept (hP iu)
  | intLit n => exact absurd trivial h
  | binOp op l r ihl ihr =>
    rw [evalExpr]
    by_cases hl : l.ResolvesIn resolve ius
    · apply (evalExpr_quiet hb hl).bind_fails
      intro a _
      exact (ihr fun hr => h ⟨hl, hr⟩).bind _
    · exact (ihl hl).bind _

lemma Predicate.evalRest_fails {pred : Predicate}
    (hres : ∀ ref e, pred.resolveColumn ref = .error e → P e) {scope : ConsumerScope} {ius : List IU}
    (hb : Binds scope ius) {es : List Expr} (h : ¬ ∀ e ∈ es, e.ResolvesIn pred.resolveColumn ius)
    (v : SQLValue) : Fails P (pred.evalRest scope es v) := by
  induction es generalizing v with
  | nil => exact absurd (fun e he => by cases he) h
  | cons e rest ih =>
    unfold Predicate.evalRest
    by_cases he : e.ResolvesIn pred.resolveColumn ius
    · have hand : ∀ a b : SQLValue, Quiet (a.and b) fun _ => True :=
        fun a b => Quiet.bind (quiet_build _) fun _ _ => quiet_pure trivial
      apply (evalExpr_quiet hb he).bind_fails
      intro a _
      apply (hand v a).bind_fails
      intro b _
      exact ih (fun hall => h (List.forall_mem_cons.mpr ⟨he, hall⟩)) b
    · exact (evalExpr_fails hP hres hb he).bind _

lemma Predicate.eval_fails {pred : Predicate} (hres : pred.Raises P) {scope : ConsumerScope}
    {ius : List IU} (hb : Binds scope ius) (h : ¬ pred.ResolvesIn ius) :
    Fails P (pred.eval scope) := by
  obtain ⟨hne, hraise⟩ := hres
  unfold Predicate.eval
  cases hc : pred.conjuncts with
  | nil => exact absurd hc hne
  | cons e rest =>
    by_cases he : e.ResolvesIn pred.resolveColumn ius
    · apply (evalExpr_quiet hb he).bind_fails
      intro v _
      apply Predicate.evalRest_fails hP hraise hb
      intro hall
      apply h
      rw [Predicate.ResolvesIn, hc]
      exact ⟨List.cons_ne_nil e rest, List.forall_mem_cons.mpr ⟨he, hall⟩⟩
    · exact (evalExpr_fails hP hraise hb he).bind _

end

/-! ### Loops and consumers -/

/-- Wherever code can be emitted, the consumer fails. -/
def ConsumerFails (P : CppError → Prop) (consume : Consumer) (child : Nat) (ius : List IU) : Prop :=
  ∀ (ctx : CompilationContext) (scope : ConsumerScope), Ready ctx.program →
    ScopeOk ctx.program scope → Binds scope ius → ∃ e, P e ∧ consume scope child ctx = .error e

lemma ifStmt_fails (hv : Valid ctx.program) {cond : IRValueRef} {body : Gen Unit} {e : CppError}
    (h : body (ctx.withProgram (ctx.program.openIf cond)) = .error e) :
    Gen.ifStmt cond body ctx = .error e := by
  have hl₁ := addBlock_length hv "if_true"
  have hl₂ := addBlock_length (addBlock_valid hv "if_true") "if_false"
  change Gen.ifStmt cond body (ctx.withProgram ctx.program) = _
  unfold Gen.ifStmt
  rw [run_bind_of_ok (run_addBlock _ _), run_bind_of_ok (run_addBlock _ _),
    run_bind_of_ok (run_addBlock _ _), run_bind_of_ok (run_addCondBranch _ _ _ _),
    run_bind_of_ok (run_setBlock _ _)]
  simp only [hl₁, hl₂]
  exact run_bind_of_error h

lemma countedLoop_fails (hv : Valid ctx.program) {name : String} {zero bound one : IRValueRef}
    {body : IRValueRef → Gen Unit} {e : CppError} (h : body (.instr ctx.program.loopIndex)
      (ctx.withProgram (ctx.program.openLoop name zero bound)) = .error e) :
    Gen.countedLoop name zero bound one body ctx = .error e := by
  have hl₁ := addBlock_length hv (name ++ "_header")
  have hl₂ := addBlock_length (addBlock_valid hv (name ++ "_header")) (name ++ "_body")
  change Gen.countedLoop name zero bound one body (ctx.withProgram ctx.program) = _
  unfold Gen.countedLoop
  rw [run_bind_of_ok (run_addBlock _ _), run_bind_of_ok (run_addBlock _ _),
    run_bind_of_ok (run_addBlock _ _), run_bind_of_ok (run_currentBlock _),
    run_bind_of_ok (run_addBranch _ _), run_bind_of_ok (run_setBlock _ _),
    run_bind_of_ok (run_addPhi _ _ _), run_bind_of_ok (run_addBinary _ _ _ _ _),
    run_bind_of_ok (run_addCondBranch _ _ _ _), run_bind_of_ok (run_setBlock _ _)]
  simp only [hl₁, hl₂]
  exact run_bind_of_error h

lemma select_fails {id child : Nat} {pred : Predicate} {parent : Consumer} {ius : List IU}
    (hfail : ¬ pred.ResolvesIn ius → (∀ iu, P (notInScope iu)) ∧ pred.Raises P)
    (h : pred.ResolvesIn ius → ConsumerFails P parent id ius) :
    ConsumerFails P (selectConsume id pred parent) child ius := by
  intro ctx scope hready hscope hb
  unfold selectConsume
  by_cases hin : pred.ResolvesIn ius
  · obtain ⟨cond, ctx₁, hcond, -, -⟩ := Predicate.eval_quiet hb hin ctx
    obtain ⟨a₁, -⟩ := Predicate.eval_advances False hready hscope False.elim hcond
    have hscope₁ := hscope.mono a₁.loc
    have hv₁ := a₁.ready.valid
    rw [run_bind_of_ok hcond,
      run_bind_of_ok (show Gen.program ctx₁ = .ok (ctx₁.program, ctx₁) from rfl)]
    split_ifs
    · exact h hin ctx₁ scope a₁.ready hscope₁ hb
    · obtain ⟨e, he, hparent⟩ := h hin (ctx₁.withProgram (ctx₁.program.openIf cond.valueRef)) scope
        (openIf_ready hv₁ cond.valueRef) (hscope₁.mono (openIf_spec hv₁ cond.valueRef).loc) hb
      exact ⟨e, he, ifStmt_fails hv₁ hparent⟩
  · obtain ⟨e, he, hcond⟩ := Predicate.eval_fails (hfail hin).1 (hfail hin).2 hb hin ctx
    exact ⟨e, he, run_bind_of_error hcond⟩

lemma buildSide_fails (hP : ∀ iu, P (notInScope iu)) {j : HashJoinTranslator}
    {scope : ConsumerScope} {ius : List IU} (hb : Binds scope ius)
    (h : ¬ ∀ iu ∈ j.buildKeys, iu.id ∈ ius.map IU.id) : Fails P (j.consumeBuildSide scope) :=
  (hb.getAll_fails hP h).bind _

lemma probeSide_fails {j : HashJoinTranslator} {parent : Consumer} {scope : ConsumerScope}
    {ius : List IU} (hready : Ready ctx.program) (hscope : ScopeOk ctx.program scope)
    (hb : Binds scope ius)
    (hfail : (¬ ∀ iu ∈ j.probeKeys, iu.id ∈ ius.map IU.id) → ∀ iu, P (notInScope iu))
    (h : (∀ iu ∈ j.probeKeys, iu.id ∈ ius.map IU.id) →
      ConsumerFails P parent j.id (ius ++ j.buildKeys ++ j.buildPayloadIUs)) :
    ∃ e, P e ∧ j.consumeProbeSide parent scope ctx = .error e := by
  by_cases hkeys : ∀ iu ∈ j.probeKeys, iu.id ∈ ius.map IU.id
  · obtain ⟨ctx₁, matchesPtr, zero, bound, one, adv, hm, -, hrun⟩ :=
      probeSide_opens parent hready hscope hb hkeys
    have hv := adv.ready.valid
    have hloc := (openLoop_spec hv "hj_match" zero bound).loc
    have hloop : Ready (ctx₁.withProgram (ctx₁.program.openLoop "hj_match" zero bound)).program :=
      openLoop_ready hv _ _ _
    obtain ⟨ctx₂, scope₂, hr₂, hs₂, hb₂, -, hbody⟩ := probeBody_opens (j := j) parent hloop
      ((hscope.mono adv.loc).mono hloc) hb (hm.mono hloc)
      (loopIndex_available hv _ _ _)
    obtain ⟨e, he, hfail⟩ := h hkeys ctx₂ scope₂ hr₂ hs₂ hb₂
    refine ⟨e, he, ?_⟩
    rw [hrun]
    exact countedLoop_fails hv (hbody.trans hfail)
  · obtain ⟨e, he, hfail⟩ := hb.getAll_fails (hfail hkeys) hkeys ctx
    exact ⟨e, he, run_bind_of_error hfail⟩

lemma scan_fails {scan : ScanTranslator} {parent : Consumer}
    (h : ConsumerFails P parent scan.id scan.colIUs) (hv : Valid ctx.program)
    (ho : Open ctx.program) : ∃ e, P e ∧ scan.produce parent ctx = .error e := by
  obtain ⟨p, zeroOff, count, one, hstart, hopens⟩ := scanProduce_opens scan parent hv ho
  have hloop : Ready (ctx.withProgram
      (p.openLoop (scan.table.name ++ "_scan") (.instr zeroOff) (.instr count))).program :=
    openLoop_ready hstart.valid _ _ _
  obtain ⟨ctx₁, scope, hr, hs, hb, -, hbody⟩ := scanBody_opens scan parent hloop
      (loopIndex_available hstart.valid _ _ _)
  obtain ⟨e, he, hfail⟩ := h ctx₁ scope hr hs hb
  refine ⟨e, he, ?_⟩
  rw [hopens]
  have hvalid : Valid (ctx.withProgram p).program := hstart.valid
  exact countedLoop_fails hvalid (hbody.trans hfail)

/-! ### Operator trees -/

/-- No code is generated for a tree that is not scoped, nor for one whose consumer fails. -/
theorem produce_fails (op : Operator) (hids : SidesDistinct op)
    (hfail : ¬ op.Scoped → (∀ iu, P (notInScope iu)) ∧ op.Raises P) {parent : Consumer}
    (he : ConsumerEmits False parent)
    (h : op.Scoped → ConsumerFails P parent op.id op.outputIUs) (hv : Valid ctx.program)
    (ho : Open ctx.program) : ∃ e, P e ∧ op.produce parent ctx = .error e := by
  induction op generalizing parent ctx with
  | scan scan => exact scan_fails (h trivial) hv ho
  | select id child pred ih =>
    have hchild : ¬ child.Scoped → (∀ iu, P (notInScope iu)) ∧ child.Raises P := by
      intro hs
      obtain ⟨hP, hraise⟩ := hfail fun hall => hs hall.1
      exact ⟨hP, hraise.1⟩
    apply ih hids hchild (select_emits he False.elim) _ hv ho
    intro hs
    have hpred : ¬ pred.ResolvesIn child.outputIUs → (∀ iu, P (notInScope iu)) ∧ pred.Raises P := by
      intro hin
      obtain ⟨hP, hraise⟩ := hfail fun hall => hin hall.2
      exact ⟨hP, hraise.2⟩
    exact select_fails hpred fun hin => h ⟨hs, hin⟩
  | hashJoin id build probe buildKeys probeKeys ht ihb ihp =>
    obtain ⟨hne, hidb, hidp⟩ := hids
    let j := HashJoinTranslator.of id build buildKeys probeKeys ht
    by_cases hbuild : build.Scoped ∧ ∀ iu ∈ buildKeys, iu.id ∈ build.outputIUs.map IU.id
    · obtain ⟨hsb, hbk⟩ := hbuild
      have hlays : ConsumerLays (j.consume parent) build.id build.outputIUs j.layoutBuild :=
        buildSide_lays hbk
      obtain ⟨ctx₁, hrun₁, -⟩ := produce_lays build hidb hsb (join_emits he) hlays hv ho
      have e₁ := produce_emits build (join_emits he) False.elim hv ho hrun₁
      obtain ⟨-, hv₁, ho₁⟩ := ((Emits.const _ _ _).trans e₁).grows hv ho
      have hprobe : probe.Scoped → ConsumerFails P (j.consume parent) probe.id probe.outputIUs := by
        intro hsp ctx₀ scope hready hscope hb
        unfold HashJoinTranslator.consume
        rw [if_neg (show probe.id ≠ j.buildId from hne.symm)]
        exact probeSide_fails hready hscope hb
          (fun hpk => (hfail fun hall => hpk hall.2.2.2).1) fun hpk => h ⟨hsb, hsp, hbk, hpk⟩
      have hfailp : ¬ probe.Scoped → (∀ iu, P (notInScope iu)) ∧ probe.Raises P := by
        intro hsp
        obtain ⟨hP, hraise⟩ := hfail fun hall => hsp hall.2.1
        exact ⟨hP, hraise.2⟩
      obtain ⟨e, hPe, hrun₂⟩ := ihp hidp hfailp (join_emits he) hprobe hv₁ ho₁
      exact ⟨e, hPe, (run_bind_of_ok hrun₁).trans hrun₂⟩
    · obtain ⟨hP, hraise⟩ := hfail fun hall => hbuild ⟨hall.1, hall.2.2.1⟩
      have hfails : build.Scoped → ConsumerFails P (j.consume parent) build.id build.outputIUs := by
        intro hsb ctx₀ scope _ _ hb
        unfold HashJoinTranslator.consume
        rw [if_pos (show build.id = j.buildId from rfl)]
        exact buildSide_fails hP hb (fun hbk => hbuild ⟨hsb, hbk⟩) ctx₀
      obtain ⟨e, hPe, hrun⟩ := ihb hidb (fun _ => ⟨hP, hraise.1⟩) (join_emits he) hfails hv ho
      exact ⟨e, hPe, run_bind_of_error hrun⟩

/-- The error of `PrintTranslator::consume`. -/
def tooWide : CppError := .runtimeError "SELECT list too wide (max 8 columns)"

lemma print_fails {self : Word} {outputIUs ius : List IU} {child : Nat}
    (hP : outputIUs.length ≤ 8 → ∀ iu, P (notInScope iu)) (hwide : 8 < outputIUs.length → P tooWide)
    (h : ¬ (outputIUs.length ≤ 8 ∧ ∀ iu ∈ outputIUs, iu.id ∈ ius.map IU.id)) :
    ConsumerFails P (printConsume self outputIUs) child ius := by
  intro ctx scope _ _ hb
  unfold printConsume
  by_cases hlen : 8 < outputIUs.length
  · rw [if_pos hlen]
    exact ⟨_, hwide hlen, rfl⟩
  · rw [if_neg hlen]
    have hlen' : outputIUs.length ≤ 8 := Nat.le_of_not_lt hlen
    have hout : ¬ ∀ iu ∈ outputIUs, iu.id ∈ ius.map IU.id := fun hall => h ⟨hlen', hall⟩
    apply (quiet_build (fun p => p.addConstInt self .ptr)).bind_fails
    intro selfPtr _
    apply (quiet_build fun p => p.addConstInt (BitVec.ofNat 64 outputIUs.length) .int64).bind_fails
    intro nColsRef _
    exact (hb.getAll_fails (hP hlen') hout).bind _

/-- Code is generated for the scoped trees with output IUs in scope, and for no others. -/
theorem generateCode_ok_iff (root : Operator) (self : Word) (outputIUs : List IU)
    (hids : SidesDistinct root) (hraise : root.Raises fun _ => True) (hv : Valid ctx.program)
    (ho : Open ctx.program) : (∃ ctx', generateCode root self outputIUs ctx = .ok ((), ctx')) ↔
      root.Scoped ∧ outputIUs.length ≤ 8 ∧ ∀ iu ∈ outputIUs, iu.id ∈ root.outputIUs.map IU.id := by
  constructor
  · rintro ⟨ctx', hgen⟩
    by_contra hnot
    obtain ⟨e, -, hfail⟩ := produce_fails root hids (fun _ => ⟨fun _ => trivial, hraise⟩)
      (print_emits self outputIUs) (fun hs => print_fails (fun _ _ => trivial) (fun _ => trivial)
        fun hout => hnot ⟨hs, hout⟩) hv ho
    have herr : generateCode root self outputIUs ctx = .error e := run_bind_of_error hfail
    rw [herr] at hgen
    cases hgen
  · rintro ⟨hs, hwide, hout⟩
    obtain ⟨ctx₁, hproduce, -⟩ := produce_lays root hids hs (print_emits self outputIUs)
      (print_lays hwide hout) hv ho
    exact ⟨_, run_bind_of_ok hproduce⟩

end

end Proofs

end TidyTuples
