import TidyTuples.Proofs.CompiledQueries

/-!
# The runtime calls of a query

A function and its machine code call the runtime in the same order with the same arguments. A run of
the interpreter only adds to what it has done, so the calls made so far are those of any later state.
-/

namespace TidyTuples

open Translator IRProgram

/-- The runtime functions called, with the values of their arguments. -/
def runtimeCalls {V : Type} (trace : List (Event V)) : List (RuntimeFn × List V) :=
  trace.filterMap fun
    | .call fn args => some (fn, args)
    | _ => none

/-- What has been done until the run is left or ends. -/
def Outcome.trace {V σ : Type} : Outcome V σ → List (Event V)
  | .goto _ s => s.trace
  | .returned _ s => s.trace
  | .stuck s => s.trace

def CodeOutcome.trace {V σ : Type} : CodeOutcome V σ → List (Event V)
  | .goto _ v => v.trace
  | .returned v => v.trace
  | .stuck v => v.trace

namespace Proofs

section

variable {V σ : Type} {P : IRProgram} {fn : IRFunction}

lemma runtimeCalls_visible (trace : List (Event V)) :
    runtimeCalls (visible trace) = runtimeCalls trace := by
  induction trace with
  | nil => rfl
  | cons e trace ih =>
    rw [visible] at ih ⊢
    cases e <;> simpa [runtimeCalls, Event.isEnter] using ih

lemma runtimeCalls_mono {trace trace' : List (Event V)} (h : trace <+: trace') :
    runtimeCalls trace <+: runtimeCalls trace' := h.filterMap _

lemma runtimeCalls_of_sameRun {o : Outcome V σ} {o' : CodeOutcome V σ} (h : SameRun o o') :
    runtimeCalls o'.trace = runtimeCalls o.trace := by
  cases h with
  | goes heffects => exact (congrArg _ heffects.trace).trans (runtimeCalls_visible _)
  | returns heffects => exact (congrArg _ heffects.trace).trans (runtimeCalls_visible _)
  | sticks heffects => exact (congrArg _ heffects.trace).trans (runtimeCalls_visible _)

/-! ### Runs add to the trace -/

lemma prefix_execInstr (M : Machine V σ) {ref : Nat} {i : Instr} {s s' : ExecState V σ}
    (h : execInstr M ref i s = some s') : s.trace <+: s'.trace := by
  cases i with
  | binary op ty a b =>
    rw [execInstr] at h
    split_ifs at h
    · cases h
      exact List.prefix_append _ _
    all_goals
      cases h
      exact List.prefix_refl _
  | unary op ty a =>
    rw [execInstr] at h
    split_ifs at h
    all_goals
      cases h
      exact List.prefix_refl _
  | call ty callee args =>
    rw [execInstr] at h
    cases hcall : M.call callee (args.map s.regs) s.mem with
    | none =>
      rw [hcall] at h
      cases h
    | some r =>
      rw [hcall] at h
      obtain rfl := Option.some.inj h
      have happend : s.trace <+: s.trace ++ [.call callee (args.map s.regs)] :=
        List.prefix_append _ _
      split_ifs
      · exact happend
      · exact happend
  | _ =>
    obtain rfl := Option.some.inj h
    exact List.prefix_refl _

lemma prefix_execInstrs (M : Machine V σ) (blk : Nat) (refs : List Nat) (s : ExecState V σ) :
    s.trace <+: (P.execInstrs M blk refs s).trace := by
  induction refs generalizing s with
  | nil => exact List.prefix_refl _
  | cons ref rest ih =>
    rw [execInstrs]
    split
    · exact List.prefix_refl _
    · exact List.prefix_refl _
    · exact List.prefix_refl _
    · exact List.prefix_refl _
    · exact ih s
    · cases hexec : execInstr M ref _ s with
      | none => exact List.prefix_refl _
      | some s' => exact (prefix_execInstr M hexec).trans (ih s')

lemma prefix_stepBlock (M : Machine V σ) (src : Option Nat) (blk : Nat) (s : ExecState V σ) :
    s.trace <+: (P.stepBlock M fn src blk s).trace := by
  rw [stepBlock]
  cases fn.blocks[blk]? with
  | none => exact List.prefix_refl _
  | some bb =>
    have henter : s.trace <+: s.trace ++ [.enter blk] := List.prefix_append _ _
    cases src with
    | none => exact henter.trans (prefix_execInstrs M blk bb.instructions (s.emitEvent (.enter blk)))
    | some src =>
      exact henter.trans (prefix_execInstrs M blk bb.instructions { s.emitEvent (.enter blk) with
        regs := P.applyPhis src s.regs (P.phisOf bb.instructions) s.regs })

lemma prefix_runBlocks (M : Machine V σ) (fuel : Nat) (src : Option Nat) (blk : Nat)
    (s : ExecState V σ) : s.trace <+: (P.runBlocks M fn fuel src blk s).trace := by
  induction fuel generalizing src blk s with
  | zero => exact List.prefix_refl _
  | succ fuel ih =>
    have hstep : s.trace <+: (P.stepBlock M fn src blk s).trace := prefix_stepBlock M src blk s
    rw [runBlocks]
    cases hend : P.stepBlock M fn src blk s with
    | goto next s' =>
      rw [hend] at hstep
      exact hstep.trans (ih (some blk) next s')
    | returned value s' =>
      rw [hend] at hstep
      exact hstep
    | stuck s' =>
      rw [hend] at hstep
      exact hstep

/-- A longer run has done what the shorter one has. -/
lemma runBlocks_mono (M : Machine V σ) {n n' : Nat} (hn : n ≤ n') (src : Option Nat) (blk : Nat)
    (s : ExecState V σ) :
    (P.runBlocks M fn n src blk s).trace <+: (P.runBlocks M fn n' src blk s).trace := by
  induction n generalizing n' src blk s with
  | zero => exact prefix_runBlocks M n' src blk s
  | succ n ih =>
    obtain ⟨n', rfl⟩ : ∃ m, n' = m + 1 := ⟨n' - 1, by omega⟩
    rw [runBlocks, runBlocks]
    cases P.stepBlock M fn src blk s with
    | goto next s' => exact ih (Nat.le_of_succ_le_succ hn) (some blk) next s'
    | returned value s' => exact List.prefix_refl _
    | stuck s' => exact List.prefix_refl _

end

/-! ### The calls of the machine code -/

/-- The functions that the compiled code calls before it returns within `fuel` jumps. -/
def calledFns (arch : Arch) (fuel : Nat) (program : IRProgram) (heap : Heap) :
    Option (List RuntimeFn) :=
  (program.functions[program.currentFnIdx]?).bind fun fn =>
    match arch.target.runCode (translateFunction program fn) fuel (.block 0)
      ⟨fun _ => .word 0, heap, []⟩ with
    | .returned v => some ((runtimeCalls v.trace).map Prod.fst)
    | _ => none

/-- Two rows are inserted; the one of the other table is looked up, matched and printed. -/
def sampleJoinCalls : List RuntimeFn :=
  [.loadColumnValue, .insert, .loadColumnValue, .insert, .loadColumnValue, .lookupAll, .matchCount,
    .matchAt, .getKey, .printRow]

lemma sampleJoin_calls : (generateCode sampleJoin 8192 [⟨"b.y", .integer, 1⟩]
      ⟨queryProgram, sampleHeap, 2, 4⟩).toOption.any (fun r =>
    calledFns .x86 30 r.2.program.eliminateDeadCode r.2.heap == some sampleJoinCalls) = true := by
  decide +kernel

lemma returned_of_calledFns {arch : Arch} {fuel : Nat} {program : IRProgram} {heap : Heap}
    {fns : List RuntimeFn} {fn : IRFunction}
    (hfn : program.functions[program.currentFnIdx]? = some fn)
    (h : calledFns arch fuel program heap = some fns) :
    ∃ v, arch.target.runCode (translateFunction program fn) fuel (.block 0)
      ⟨fun _ => .word 0, heap, []⟩ = .returned v ∧ (runtimeCalls v.trace).map Prod.fst = fns := by
  rw [calledFns, hfn, Option.bind_some] at h
  cases hend : arch.target.runCode (translateFunction program fn) fuel (.block 0)
      ⟨fun _ => .word 0, heap, []⟩ with
  | goto label v =>
    rw [hend] at h
    cases h
  | stuck v =>
    rw [hend] at h
    cases h
  | returned v =>
    rw [hend] at h
    exact ⟨v, rfl, Option.some.inj h⟩

/-- The code calls the runtime as its function does, and returns after the calls after which its
function returns. -/
theorem generateCode_calls (arch : Arch) (root : Operator) (self : Word) (outputIUs : List IU)
    (ctx ctx' : CompilationContext) (hctx : ctx.program = queryProgram)
    (hbool : BooleanPredicates root)
    (h : generateCode root self outputIUs ctx = .ok ((), ctx')) :
    ∃ fn, ctx'.program.eliminateDeadCode.functions[ctx'.program.currentFnIdx]? = some fn ∧
      ∀ (heap : Heap) (values : IRValueRef → Value) (regs : VReg → Value),
        (∀ x w, ctx'.program.constIntValue x = some w → values x = .word w) →
        arch.target.RunsClean (translateFunction ctx'.program.eliminateDeadCode fn)
          ⟨regs, heap, []⟩ →
        (∀ calls, (∃ n, calls <+: runtimeCalls (ctx'.program.eliminateDeadCode.runFunction
              arch.machine fn n ⟨values, heap, []⟩).trace) ↔
            ∃ m, calls <+: runtimeCalls (arch.target.runCode
              (translateFunction ctx'.program.eliminateDeadCode fn) m (.block 0)
              ⟨regs, heap, []⟩).trace) ∧
        ∀ calls mem, (∃ n value s', ctx'.program.eliminateDeadCode.runFunction arch.machine fn n
              ⟨values, heap, []⟩ = .returned value s' ∧ s'.mem = mem ∧
              runtimeCalls s'.trace = calls) ↔
            ∃ m v', arch.target.runCode (translateFunction ctx'.program.eliminateDeadCode fn) m
              (.block 0) ⟨regs, heap, []⟩ = .returned v' ∧ v'.mem = mem ∧
              runtimeCalls v'.trace = calls := by
  have hP := generateCode_queryCode root self outputIUs hctx hbool h
  obtain ⟨fn, hfn⟩ := exists_function hP
  refine ⟨eliminated ctx'.program fn, eliminated_functions hfn,
    fun heap values regs hconsts hclean => ?_⟩
  obtain ⟨hforward, hbackward⟩ := translateFunction_simulates arch.target (logical_target arch)
    (translatable_eliminated hP hfn) ⟨values, heap, []⟩ ⟨regs, heap, []⟩ hconsts ⟨rfl, rfl⟩ hclean
  refine ⟨fun calls => ⟨?_, ?_⟩, fun calls mem => ⟨?_, ?_⟩⟩
  · rintro ⟨n, hcalls⟩
    obtain ⟨n', hn, m, hsame⟩ := hforward n
    refine ⟨m, ?_⟩
    rw [runtimeCalls_of_sameRun hsame]
    exact hcalls.trans (runtimeCalls_mono (runBlocks_mono arch.machine hn none 0 _))
  · rintro ⟨m, hcalls⟩
    obtain ⟨n, hsame⟩ := hbackward m
    rw [runtimeCalls_of_sameRun hsame] at hcalls
    exact ⟨n, hcalls⟩
  · rintro ⟨n, value, s', hrun, hmem, rfl⟩
    obtain ⟨m, v', hcode, hmem', htrace⟩ :=
      (returned_iff hforward hbackward mem (visible s'.trace)).mp ⟨n, value, s', hrun, hmem, rfl⟩
    exact ⟨m, v', hcode, hmem', by rw [htrace, runtimeCalls_visible]⟩
  · rintro ⟨m, v', hcode, hmem, rfl⟩
    obtain ⟨n, value, s', hrun, hmem', htrace⟩ :=
      (returned_iff hforward hbackward mem v'.trace).mpr ⟨m, v', hcode, hmem, rfl⟩
    exact ⟨n, value, s', hrun, hmem', by rw [← htrace, runtimeCalls_visible]⟩

theorem generateCode_calls_sampleJoin : ∃ ctx' fn,
    generateCode sampleJoin 8192 [⟨"b.y", .integer, 1⟩] ⟨queryProgram, sampleHeap, 2, 4⟩ =
      .ok ((), ctx') ∧
    ctx'.program.eliminateDeadCode.functions[ctx'.program.currentFnIdx]? = some fn ∧
    ∃ n value s' m v', ctx'.program.eliminateDeadCode.runFunction Arch.x86.machine fn n
        ⟨constFile ctx'.program, ctx'.heap, []⟩ = .returned value s' ∧
      Arch.x86.target.runCode (translateFunction ctx'.program.eliminateDeadCode fn) m (.block 0)
        ⟨fun _ => .word 0, ctx'.heap, []⟩ = .returned v' ∧
      runtimeCalls s'.trace = runtimeCalls v'.trace ∧
      (runtimeCalls s'.trace).map Prod.fst = sampleJoinCalls := by
  obtain ⟨ctx', hgen, hcalled⟩ := exists_of_any sampleJoin_calls
  obtain ⟨ctx₁, hgen₁, -, hclean⟩ := sampleJoin_code
  obtain rfl : ctx₁ = ctx' := congrArg Prod.snd (Except.ok.inj (hgen₁.symm.trans hgen))
  obtain ⟨fn, hfn, hruns⟩ := generateCode_calls .x86 sampleJoin 8192 [⟨"b.y", .integer, 1⟩]
    ⟨queryProgram, sampleHeap, 2, 4⟩ ctx₁ rfl sampleJoin_boolean hgen
  obtain ⟨v', hcode, hfns⟩ := returned_of_calledFns hfn (beq_iff_eq.mp hcalled)
  obtain ⟨n, value, s', hrun, -, hcalls⟩ :=
    ((hruns ctx₁.heap (constFile ctx₁.program) _ (fun _ _ h => constFile_eq .x86 h)
      (hclean fn hfn)).2 _ _).mpr ⟨30, v', hcode, rfl, rfl⟩
  exact ⟨ctx₁, fn, hgen, hfn, n, value, s', 30, v', hrun, hcode, hcalls, by rw [hcalls, hfns]⟩

end Proofs

end TidyTuples
