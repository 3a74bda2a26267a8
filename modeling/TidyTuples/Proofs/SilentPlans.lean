import TidyTuples.Proofs.Acceptance
import TidyTuples.Proofs.CompiledPlans
import TidyTuples.Proofs.Policies

/-!
# Plans that print nothing

Where FROM starts with the same alias twice, the first join has one operator on both sides. Both
pipelines then build, none probes, and nothing of what is above the join gets a row.
-/

namespace TidyTuples

/-- Anything but the printing of a row. -/
def silent : Policy where
  constants _ _ := True
  calls fn := fn ≠ .printRow

namespace Proofs

open QueryPlanner IRProgram

/-! ### What a silent program does to memory -/

section

variable {P : IRProgram} {arch : Arch} {s s' : QueryState}

lemma callRuntime_rows {fn : RuntimeFn} {args : List Value} {heap heap' : Heap} {v : Value}
    (hfn : fn ≠ .printRow) (h : callRuntime fn args heap = some (v, heap')) :
    heap'.rows = heap.rows := by
  unfold callRuntime at h
  split at h
  · obtain ⟨w, -, heq⟩ := Option.bind_eq_some_iff.mp h
    cases heq
    rfl
  · obtain ⟨heap₁, hinsert, heq⟩ := Option.bind_eq_some_iff.mp h
    cases heq
    unfold insertFn at hinsert
    split at hinsert
    · cases hinsert
    · split_ifs at hinsert
      obtain ⟨table, -, htable⟩ := Option.bind_eq_some_iff.mp hinsert
      cases htable
      rfl
  · obtain ⟨⟨ht, heap₁⟩, hlookup, heq⟩ := Option.bind_eq_some_iff.mp h
    cases heq
    unfold lookupAllFn at hlookup
    split at hlookup
    · cases hlookup
    · split_ifs at hlookup
      obtain ⟨table, -, htable⟩ := Option.bind_eq_some_iff.mp hlookup
      cases htable
      rfl
  · cases h
    rfl
  · split at h
    · cases h
      rfl
    · cases h
      rfl
  · obtain ⟨w, -, heq⟩ := Option.bind_eq_some_iff.mp h
    cases heq
    rfl
  · obtain ⟨w, -, heq⟩ := Option.bind_eq_some_iff.mp h
    cases heq
    rfl
  · exact absurd rfl hfn
  · cases h

lemma execInstr_rows {ref : Nat} {i : Instr} (hcall : ∀ t fn args, i = .call t fn args → silent.calls fn)
    (h : execInstr arch.machine ref i s = some s') : s'.mem.rows = s.mem.rows := by
  cases i with
  | call t fn args =>
    unfold execInstr at h
    dsimp only at h
    split at h
    · cases h
    · next v mem hrun =>
      have hrows := callRuntime_rows (hcall t fn args rfl) hrun
      split_ifs at h
      · cases h
        exact hrows
      · cases h
        exact hrows
  | binary op t a b =>
    unfold execInstr at h
    dsimp only at h
    split_ifs at h <;> · cases h; rfl
  | unary op t a =>
    unfold execInstr at h
    dsimp only at h
    split_ifs at h <;> · cases h; rfl
  | _ =>
    cases h
    rfl

/-- The run has not printed, unless it is stuck. -/
def HasRows (rows : Word → List (List Word)) : Outcome Value Heap → Prop
  | .goto _ s => s.mem.rows = rows
  | .returned _ s => s.mem.rows = rows
  | .stuck _ => True

variable (hcalls : ∀ off t fn args, P.instrAt off = some (.call t fn args) → silent.calls fn)
include hcalls

lemma execInstrs_rows (blk : Nat) (instrs : List Nat) (s : QueryState) :
    HasRows s.mem.rows (P.execInstrs arch.machine blk instrs s) := by
  induction instrs generalizing s with
  | nil => exact rfl
  | cons ref rest ih =>
    cases hi : P.instrAt ref with
    | none =>
      rw [execInstrs, hi]
      exact trivial
    | some i =>
      have hnext : ∀ s₁, execInstr arch.machine ref i s = some s₁ →
          HasRows s.mem.rows (P.execInstrs arch.machine blk rest s₁) := by
        intro s₁ hexec
        rw [← execInstr_rows (fun t fn args hcall => hcalls ref t fn args (hcall ▸ hi)) hexec]
        exact ih s₁
      rw [execInstrs, hi]
      cases i with
      | branch target => exact rfl
      | condBranch cond trueBlock falseBlock => exact rfl
      | ret value => exact rfl
      | phi t entries => exact ih s
      | _ =>
        dsimp only
        split
        · exact trivial
        · next s₁ hexec => exact hnext s₁ hexec

lemma stepBlock_rows (fn : IRFunction) (src : Option Nat) (blk : Nat) (s : QueryState) :
    HasRows s.mem.rows (P.stepBlock arch.machine fn src blk s) := by
  unfold stepBlock
  cases fn.blocks[blk]? with
  | none => exact trivial
  | some bb =>
    cases src with
    | none => exact execInstrs_rows hcalls blk bb.instructions _
    | some src => exact execInstrs_rows hcalls blk bb.instructions _

/-- By induction on the blocks that are run. -/
lemma runBlocks_rows (fn : IRFunction) (fuel : Nat) (src : Option Nat) (blk : Nat) (s : QueryState) :
    HasRows s.mem.rows (P.runBlocks arch.machine fn fuel src blk s) := by
  induction fuel generalizing src blk s with
  | zero => exact rfl
  | succ fuel ih =>
    have hstep : HasRows s.mem.rows (P.stepBlock arch.machine fn src blk s) :=
      stepBlock_rows hcalls fn src blk s
    rw [runBlocks]
    cases hout : P.stepBlock arch.machine fn src blk s with
    | goto next s₁ =>
      rw [hout] at hstep
      change s₁.mem.rows = s.mem.rows at hstep
      rw [← hstep]
      exact ih (some blk) next s₁
    | returned v s₁ =>
      rw [hout] at hstep
      exact hstep
    | stuck s₁ => exact trivial

end

/-! ### The code of a plan with one operator on both sides -/

section

variable {scans : Scans} {cs : Conjuncts} {conjs : List Expr} {order : List String}
  {root : Operator} {ctx ctx' : CompilationContext} {parent : Consumer}

lemma silent_allowsExpr (e : Expr) : silent.AllowsExpr e := by
  induction e with
  | colRef ref => exact trivial
  | intLit w => exact trivial
  | binOp op l r ihl ihr => exact ⟨ihl, ihr, fun _ _ => trivial⟩

lemma silent_allowsTree (op : Operator) : silent.AllowsTree op := by
  induction op with
  | scan s => exact ⟨trivial, trivial, trivial, fun _ _ => trivial, by simp [silent]⟩
  | select id child pred ih => exact ⟨ih, fun c _ => silent_allowsExpr c⟩
  | hashJoin id build probe bks pks ht ihb ihp =>
    exact ⟨ihb, ihp, trivial, trivial, trivial, fun _ _ => trivial, fun _ _ => trivial, by simp [silent]⟩

/-- A pipeline that builds: code is generated for it without a print. -/
lemma ScanUnder.builds {a : String} (h : ScanUnder scans cs a root) {j : HashJoinTranslator}
    (hside : root.id = j.buildId) (hj : silent.AllowsJoin j) (he : ConsumerEmits False parent)
    (hlays : ConsumerLays (j.consume parent) root.id root.outputIUs j.layoutBuild)
    (hv : Valid ctx.program) (ho : Open ctx.program) (hsilent : Obeys silent ctx.program)
    (hrun : root.produce (j.consume parent) ctx = .ok ((), ctx')) :
    Obeys silent ctx'.program ∧ ctx'.heap.rows = ctx.heap.rows ∧ Valid ctx'.program ∧
      Open ctx'.program := by
  have hobeys := produce_obeys root (silent_allowsTree root) (join_emits he)
    (join_obeys hj he fun hne => absurd hside hne) hv ho hsilent hrun
  have e : Emits False _ _ := produce_emits root (join_emits he) False.elim hv ho hrun
  obtain ⟨-, hv', ho'⟩ := ((Emits.const _ _ _).trans e).grows hv ho
  have hscoped := h.scoped_iff.mpr ((h.produce_iff (join_emits he) hlays hv ho).mp ⟨_, hrun⟩)
  obtain ⟨ctx₁, hrun₁, hheap⟩ := produce_lays root h.distinct hscoped (join_emits he) hlays hv ho
  rw [hrun] at hrun₁
  cases hrun₁
  refine ⟨hobeys, ?_, hv', ho'⟩
  rw [hheap]
  exact layout_invariant root (P := fun heap => heap.rows = ctx.heap.rows) (f := j.layoutBuild)
    (fun _ h => h) (fun _ _ _ _ h => ⟨h, h⟩) rfl

/-- The induction is on the joins, for any consumer of the rows: it is never asked. -/
lemma Joined.silent (h : Joined scans cs order root) (hbase : ¬ (joinBase order).Nodup)
    (hclass : Classified scans conjs cs) (he : ConsumerEmits False parent) (hv : Valid ctx.program)
    (ho : Open ctx.program) (hsilent : Obeys silent ctx.program)
    (hrun : root.produce parent ctx = .ok ((), ctx')) :
    Obeys silent ctx'.program ∧ ctx'.heap.rows = ctx.heap.rows := by
  induction h generalizing parent ctx ctx' with
  | scan h => exact absurd (List.nodup_singleton _) hbase
  | @first f n build probe id ht hb hp hid =>
    obtain rfl : f = n := by
      by_contra hne
      apply hbase
      change [f, n].Nodup
      simp [hne]
    rw [firstJoinKeys_self hclass] at hrun
    have hj := (silent_allowsTree (.hashJoin id build probe [] [] ht)).2.2
    have hsame := hid.mpr rfl
    obtain ⟨⟨⟩, ctx₁, hbuild, hprobe⟩ := run_bind_ok hrun
    obtain ⟨hsilent₁, hrows₁, hv₁, ho₁⟩ := hb.builds rfl hj he
      (sameSide_lays hclass hb hb rfl parent) hv ho hsilent hbuild
    obtain ⟨hsilent₂, hrows₂, -, -⟩ := hp.builds hsame.symm hj he
      (sameSide_lays hclass hb hp hsame parent) hv₁ ho₁ hsilent₁ hprobe
    exact ⟨hsilent₂, hrows₂.trans hrows₁⟩
  | @later n done build probe id ht hjoined htwo hb hid ih =>
    rw [joinBase_cons htwo] at hbase
    have hj := (silent_allowsTree (.hashJoin id build probe
      ((laterJoinKeys cs.joinKeys n).map Prod.fst) ((laterJoinKeys cs.joinKeys n).map Prod.snd) ht)).2.2
    have hkeys : ∀ iu ∈ (laterJoinKeys cs.joinKeys n).map Prod.fst,
        iu.id ∈ build.outputIUs.map IU.id := by
      intro iu hiu
      obtain ⟨p, hmem, rfl⟩ := List.mem_map.mp hiu
      obtain ⟨c, hc, heq⟩ := laterJoinKeys_sound hclass hmem
      exact (hb.outputs hclass _).mpr heq.otherAlias.1
    obtain ⟨⟨⟩, ctx₁, hbuild, hprobe⟩ := run_bind_ok hrun
    obtain ⟨hsilent₁, hrows₁, hv₁, ho₁⟩ := hb.builds rfl hj he (buildSide_lays hkeys) hv ho hsilent
      hbuild
    obtain ⟨hsilent₂, hrows₂⟩ := ih hbase (join_emits he) hv₁ ho₁ hsilent₁ hprobe
    exact ⟨hsilent₂, hrows₂.trans hrows₁⟩

/-- A filter over such joins is never asked either. -/
lemma Planned.silent (h : Planned scans cs order root) (hbase : ¬ (joinBase order).Nodup)
    (hclass : Classified scans conjs cs) (he : ConsumerEmits False parent) (hv : Valid ctx.program)
    (ho : Open ctx.program) (hsilent : Obeys silent ctx.program)
    (hrun : root.produce parent ctx = .ok ((), ctx')) :
    Obeys silent ctx'.program ∧ ctx'.heap.rows = ctx.heap.rows := by
  cases h with
  | bare hj => exact hj.silent hbase hclass he hv ho hsilent hrun
  | filtered hj => exact hj.silent hbase hclass (select_emits he False.elim) hv ho hsilent hrun

/-- Where FROM starts with the same alias twice, the code of a compiled statement prints nothing. -/
theorem CompiledPlan.silent {alloc : Nat → Word} {catalog : SQLCatalog} {printer : Word}
    {stmt : SelectStmt} {heap : Heap} {result : PlanResult}
    (h : CompiledPlan alloc catalog printer stmt heap result scans cs ctx ctx')
    (hsame : ¬ ((stmt.fromList.map TableRef.aliasName).take 2).Nodup) (arch : Arch) (fn : IRFunction)
    (fuel : Nat) (regs : IRValueRef → Value) :
    HasRows heap.rows (ctx'.program.runFunction arch.machine fn fuel ⟨regs, ctx'.heap, []⟩) := by
  obtain ⟨ctx₁, hproduce, rfl⟩ := run_generateCode h.generated
  obtain ⟨hsilent, hrows⟩ := h.planned.root.silent (joinBase_joinOrder _ ▸ hsame)
    (classify_spec h.planned.classified) (print_emits printer result.outputIUs)
    (h.program ▸ queryProgram_valid) (h.program ▸ queryProgram_open) (h.program ▸ queryProgram_obeys)
    hproduce
  have hret : Obeys TidyTuples.silent (ctx₁.program.addReturn .null).2 :=
    hsilent.emit_other (i := .ret .null) (by simp [Instr.op])
  have hruns : HasRows ctx₁.heap.rows (IRProgram.runBlocks arch.machine _ fn fuel none 0 _) :=
    runBlocks_rows hret.calls fn fuel none 0 ⟨regs, ctx₁.heap, []⟩
  rwa [hrows, h.memory] at hruns

end

end Proofs

end TidyTuples
