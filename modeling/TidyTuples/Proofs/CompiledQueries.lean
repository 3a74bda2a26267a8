import TidyTuples.Proofs.Correctness
import TidyTuples.Proofs.GeneratedCode

/-!
# Queries as machine code

From an operator tree to the code that the host runs: dead code elimination keeps the behaviour of
generated code, whose blocks may fall through, and the translation keeps it in every run that reads no
register before it is written.
-/

namespace TidyTuples

open Translator IRProgram

namespace Proofs

/-! ### The elimination -/

section

variable {V σ : Type} {P : IRProgram} {fn : IRFunction}

/-- A function all of whose blocks are reached, and what is left of it. -/
lemma runBlocks_eliminated (M : Machine V σ) (hfn : fn ∈ P.functions)
    (hreach : ∀ b < fn.blocks.length, Reachable P fn b) (fuel : Nat) (src : Option Nat) (b : Nat)
    {s s' : ExecState V σ} (hs : Agree (usedInReachable P) s s') :
    AgreeOutcome (usedInReachable P) (P.runBlocks M fn fuel src b s)
      (P.eliminateDeadCode.runBlocks M (eliminated P fn) fuel src b s') := by
  have hdata : P.eliminateDeadCode.instrData = P.instrData := rfl
  induction fuel generalizing src b s s' with
  | zero => exact ⟨rfl, hs⟩
  | succ fuel ih =>
    rw [runBlocks, runBlocks]
    have hstep : AgreeOutcome (usedInReachable P) (P.stepBlock M fn src b s)
        (P.eliminateDeadCode.stepBlock M (eliminated P fn) src b s') := by
      cases hblk : fn.blocks[b]? with
      | none =>
        have hnone : (eliminated P fn).blocks[b]? = none := by
          unfold eliminated removeUnused clearUnreachable
          rw [List.getElem?_map, List.getElem?_mapIdx, hblk]
          rfl
        unfold stepBlock
        rw [hblk, hnone]
        exact hs
      | some blk =>
        have hb := (List.getElem?_eq_some_iff.mp hblk).1
        have hmem := mem_reachableBlocks (hreach b hb) hb
        have hcleared : (P.clearUnreachable fn).blocks[b]? = some blk := by
          unfold clearUnreachable
          rw [List.getElem?_mapIdx, hblk]
          simp only [Option.map_some, if_pos hmem]
        have huses : ∀ ref ∈ blk.instructions, ∀ i, P.instrAt ref = some i →
            UsesIn (usedInReachable P) i := fun ref href i hi =>
          usesIn_usedOffsets (List.mem_map_of_mem hfn) (List.mem_of_getElem? hcleared) href hi
        have hblk' := eliminated_block hblk hmem
        have hphis : P.eliminateDeadCode.phisOf
            (blk.instructions.filter (P.keepInstr (usedInReachable P))) =
              (P.phisOf blk.instructions).filter (P.keepInstr (usedInReachable P)) :=
          List.filter_comm ..
        have henter := hs.emitEvent (.enter b)
        unfold stepBlock
        rw [hblk, hblk']
        dsimp only
        refine execInstrs_agree hdata b blk.instructions huses ?_
        cases src with
        | none => exact henter
        | some src =>
          refine ⟨henter.mem, henter.trace, fun ref href => ?_⟩
          dsimp only
          rw [hphis]
          exact applyPhis_agree hdata src (P.phisOf blk.instructions)
            (fun r hr => huses r (List.mem_of_mem_filter hr)) henter.regs henter.regs ref href
    cases h₁ : P.stepBlock M fn src b s with
    | goto next s₁ =>
      cases h₂ : P.eliminateDeadCode.stepBlock M (eliminated P fn) src b s' with
      | goto next' s₁' =>
        rw [h₁, h₂] at hstep
        obtain ⟨rfl, hs₁⟩ := hstep
        exact ih (some b) next hs₁
      | returned v s₁' =>
        rw [h₁, h₂] at hstep
        exact hstep.elim
      | stuck s₁' =>
        rw [h₁, h₂] at hstep
        exact hstep.elim
    | returned v s₁ =>
      cases h₂ : P.eliminateDeadCode.stepBlock M (eliminated P fn) src b s' with
      | goto next' s₁' =>
        rw [h₁, h₂] at hstep
        exact hstep.elim
      | returned v' s₁' =>
        rw [h₁, h₂] at hstep
        exact hstep
      | stuck s₁' =>
        rw [h₁, h₂] at hstep
        exact hstep.elim
    | stuck s₁ =>
      cases h₂ : P.eliminateDeadCode.stepBlock M (eliminated P fn) src b s' with
      | goto next' s₁' =>
        rw [h₁, h₂] at hstep
        exact hstep.elim
      | returned v' s₁' =>
        rw [h₁, h₂] at hstep
        exact hstep.elim
      | stuck s₁' =>
        rw [h₁, h₂] at hstep
        exact hstep

/-! ### The translation -/

/-- What is left of the code of a query does what the code did. -/
lemma runFunction_eliminated (M : Machine V σ) (hP : QueryCode P)
    (hfn : P.functions[P.currentFnIdx]? = some fn) (fuel : Nat) (s : ExecState V σ) :
    SameOutcome (P.runFunction M fn fuel s)
      (P.eliminateDeadCode.runFunction M (eliminated P fn) fuel s) :=
  (runBlocks_eliminated M (List.mem_of_getElem? hfn)
    (fun _ hb => reachable_of_queryCode hP hfn hb) fuel none 0 ⟨rfl, rfl, fun _ _ => rfl⟩).same

lemma eliminated_functions (hfn : P.functions[P.currentFnIdx]? = some fn) :
    P.eliminateDeadCode.functions[P.currentFnIdx]? = some (eliminated P fn) := by
  rw [eliminateDeadCode_functions, List.getElem?_map, hfn]
  rfl

lemma exists_function (hP : QueryCode P) : ∃ fn, P.functions[P.currentFnIdx]? = some fn :=
  ⟨_, List.getElem?_eq_getElem hP.valid.fnIdx⟩

end

/-- The bits of 0 and 1. -/
lemma wordOfBool_bits : (∀ a b, wordOfBool a &&& wordOfBool b = wordOfBool (a && b)) ∧
    (∀ a b, wordOfBool a ||| wordOfBool b = wordOfBool (a || b)) ∧
    ∀ a, wordOfBool a ^^^ 1 = wordOfBool !a := by decide

lemma logical_target (arch : Arch) : arch.target.Logical where
  lAnd a b := by cases a <;> cases b <;> rfl
  lOr a b := by cases a <;> cases b <;> rfl
  lNot a := by cases a <;> rfl
  and a b := congrArg Value.word (wordOfBool_bits.1 a b)
  or a b := congrArg Value.word (wordOfBool_bits.2.1 a b)
  xor a := congrArg Value.word (wordOfBool_bits.2.2 a)

/-! ### The code of the sample join -/

/-- The code returns within `fuel` jumps from zeroed registers, and has read no register before it was
written. -/
def returnsClean (arch : Arch) (code : List VInstr) (heap : Heap) (fuel : Nat) : Bool :=
  let v : VState Value Heap := ⟨fun _ => .word 0, heap, []⟩
  decide (WrittenFirst [] (arch.target.executed code fuel (.block 0) v)) &&
    match arch.target.runCode code fuel (.block 0) v with
    | .returned _ => true
    | _ => false

lemma runsClean_of_returnsClean {arch : Arch} {code : List VInstr} {heap : Heap} {fuel : Nat}
    (h : returnsClean arch code heap fuel = true) :
    arch.target.RunsClean code ⟨fun _ => .word 0, heap, []⟩ := by
  obtain ⟨hlog, hrun⟩ := Bool.and_eq_true_iff.mp h
  cases hend : arch.target.runCode code fuel (.block 0) ⟨fun _ => .word 0, heap, []⟩ with
  | returned v => exact runsClean_of_returned hend (of_decide_eq_true hlog)
  | goto label v =>
    rw [hend] at hrun
    cases hrun
  | stuck v =>
    rw [hend] at hrun
    cases hrun

lemma exists_of_any {α : Type} {x : Except CppError (Unit × α)} {f : Unit × α → Bool}
    (h : x.toOption.any f = true) : ∃ a, x = .ok ((), a) ∧ f ((), a) = true := by
  cases x with
  | error e => cases h
  | ok r => exact ⟨r.2, rfl, h⟩

/-- The constants are known, and the machine code is clean. -/
def compilesClean (arch : Arch) (fuel : Nat) (r : Unit × CompilationContext) : Bool :=
  decide (ConstsDenote r.2.program) &&
    (r.2.program.eliminateDeadCode.functions[r.2.program.currentFnIdx]?).all fun fn =>
      returnsClean arch (translateFunction r.2.program.eliminateDeadCode fn) r.2.heap fuel

lemma sampleJoin_compilesClean : (generateCode sampleJoin 8192 [⟨"b.y", .integer, 1⟩]
    ⟨queryProgram, sampleHeap, 2, 4⟩).toOption.any (compilesClean .x86 30) = true := by
  decide +kernel

/-- The code of the sample join, compiled and run on its tables. -/
lemma sampleJoin_code : ∃ ctx', generateCode sampleJoin 8192 [⟨"b.y", .integer, 1⟩]
      ⟨queryProgram, sampleHeap, 2, 4⟩ = .ok ((), ctx') ∧ ConstsDenote ctx'.program ∧
    ∀ fn, ctx'.program.eliminateDeadCode.functions[ctx'.program.currentFnIdx]? = some fn →
      Arch.x86.target.RunsClean (translateFunction ctx'.program.eliminateDeadCode fn)
        ⟨fun _ => .word 0, ctx'.heap, []⟩ := by
  obtain ⟨ctx', hgen, hctx'⟩ := exists_of_any sampleJoin_compilesClean
  obtain ⟨hdenotes, hclean⟩ := Bool.and_eq_true_iff.mp hctx'
  refine ⟨ctx', hgen, of_decide_eq_true hdenotes, fun fn hfn => ?_⟩
  dsimp only at hclean
  rw [hfn] at hclean
  exact runsClean_of_returnsClean hclean

lemma constFile_eq (arch : Arch) {P : IRProgram} {x : IRValueRef} {w : Word}
    (h : P.constIntValue x = some w) : constFile P x = arch.target.const w := by
  rw [constFile, h]
  rfl

lemma sampleJoin_boolean : BooleanPredicates sampleJoin := by
  simp [sampleJoin, BooleanPredicates, Expr.isBoolean, Expr.isArith]

theorem translateFunction_returns_iff_sampleJoin : ∃ ctx' fn,
    generateCode sampleJoin 8192 [⟨"b.y", .integer, 1⟩] ⟨queryProgram, sampleHeap, 2, 4⟩ =
      .ok ((), ctx') ∧
    ctx'.program.eliminateDeadCode.functions[ctx'.program.currentFnIdx]? = some fn ∧
    ∀ mem trace, (∃ n value s', ctx'.program.eliminateDeadCode.runFunction Arch.x86.machine fn n
        ⟨constFile ctx'.program, ctx'.heap, []⟩ = .returned value s' ∧ s'.mem = mem ∧
        visible s'.trace = trace) ↔
      ∃ m v', Arch.x86.target.runCode (translateFunction ctx'.program.eliminateDeadCode fn) m
        (.block 0) ⟨fun _ => .word 0, ctx'.heap, []⟩ = .returned v' ∧ v'.mem = mem ∧
        v'.trace = trace := by
  obtain ⟨ctx', hgen, -, hclean⟩ := sampleJoin_code
  have hP := generateCode_queryCode _ _ _ rfl sampleJoin_boolean hgen
  obtain ⟨fn, hfn⟩ := exists_function hP
  have hleft := eliminated_functions hfn
  exact ⟨ctx', _, hgen, hleft, translateFunction_returns_iff Arch.x86.target (logical_target _)
    (translatable_eliminated hP hfn) ⟨constFile ctx'.program, ctx'.heap, []⟩ _
    (fun _ _ h => constFile_eq _ h) ⟨rfl, rfl⟩ (hclean _ hleft)⟩

/-- For every operator tree with boolean predicates, the code of its function after the elimination
of dead code does what the function does: the same stores and calls, and an end of the same kind. -/
theorem generateCode_translates {V σ : Type} (M : Target V σ) (hM : M.Logical) (root : Operator)
    (self : Word) (outputIUs : List IU) (ctx ctx' : CompilationContext)
    (hctx : ctx.program = queryProgram) (hbool : BooleanPredicates root)
    (h : generateCode root self outputIUs ctx = .ok ((), ctx')) :
    ∃ fn, ctx'.program.eliminateDeadCode.functions[ctx'.program.currentFnIdx]? = some fn ∧
      ∀ s v, (∀ x w, ctx'.program.constIntValue x = some w → s.regs x = M.const w) →
        SameEffects s v → M.RunsClean (translateFunction ctx'.program.eliminateDeadCode fn) v →
        (∀ n, ∃ n' ≥ n, ∃ m,
          SameRun (ctx'.program.eliminateDeadCode.runFunction M.toMachine fn n' s)
            (M.runCode (translateFunction ctx'.program.eliminateDeadCode fn) m (.block 0) v)) ∧
        ∀ m, ∃ n, SameRun (ctx'.program.eliminateDeadCode.runFunction M.toMachine fn n s)
          (M.runCode (translateFunction ctx'.program.eliminateDeadCode fn) m (.block 0) v) := by
  have hP := generateCode_queryCode root self outputIUs hctx hbool h
  obtain ⟨fn, hfn⟩ := exists_function hP
  refine ⟨eliminated ctx'.program fn, eliminated_functions hfn, fun s v hconsts heffects hclean => ?_⟩
  exact translateFunction_simulates M hM (translatable_eliminated hP hfn) s v hconsts heffects hclean

theorem generateCode_translates_sampleJoin : ∃ ctx' fn,
    generateCode sampleJoin 8192 [⟨"b.y", .integer, 1⟩] ⟨queryProgram, sampleHeap, 2, 4⟩ =
      .ok ((), ctx') ∧
    ctx'.program.eliminateDeadCode.functions[ctx'.program.currentFnIdx]? = some fn ∧
    ∃ n ≥ 40, ∃ m, SameRun (ctx'.program.eliminateDeadCode.runFunction Arch.x86.machine fn n
        ⟨constFile ctx'.program, ctx'.heap, []⟩)
      (Arch.x86.target.runCode (translateFunction ctx'.program.eliminateDeadCode fn) m (.block 0)
        ⟨fun _ => .word 0, ctx'.heap, []⟩) := by
  obtain ⟨ctx', hgen, -, hclean⟩ := sampleJoin_code
  obtain ⟨fn, hfn, hruns⟩ := generateCode_translates Arch.x86.target (logical_target _) sampleJoin 8192
    [⟨"b.y", .integer, 1⟩] ⟨queryProgram, sampleHeap, 2, 4⟩ ctx' rfl sampleJoin_boolean hgen
  exact ⟨ctx', fn, hgen, hfn, (hruns _ _ (fun _ _ h => constFile_eq _ h) ⟨rfl, rfl⟩
    (hclean fn hfn)).1 40⟩

/-! ### The rows -/

/-- What the machine code has done when it returns, the function it comes from does. -/
lemma runFunction_of_returned (arch : Arch) (root : Operator) (self : Word) (outputIUs : List IU)
    (ctx ctx' : CompilationContext) (hctx : ctx.program = queryProgram)
    (hgen : generateCode root self outputIUs ctx = .ok ((), ctx')) (hbool : BooleanPredicates root)
    {fn : IRFunction} (hfn : ctx'.program.functions[ctx'.program.currentFnIdx]? = some fn)
    {v v' : VState Value Heap} (hmem : v.mem = ctx'.heap) (htrace : v.trace = [])
    (hclean : arch.target.RunsClean
      (translateFunction ctx'.program.eliminateDeadCode (eliminated ctx'.program fn)) v) {m : Nat}
    (hrun : arch.target.runCode
      (translateFunction ctx'.program.eliminateDeadCode (eliminated ctx'.program fn)) m (.block 0) v =
        .returned v') :
    ∃ fuel value s', ctx'.program.runFunction arch.machine fn fuel
      ⟨constFile ctx'.program, ctx'.heap, []⟩ = .returned value s' ∧ s'.mem = v'.mem := by
  have hP := generateCode_queryCode root self outputIUs hctx hbool hgen
  obtain ⟨n, hcode⟩ := (translateFunction_simulates arch.target (logical_target arch)
    (translatable_eliminated hP hfn) ⟨constFile ctx'.program, ctx'.heap, []⟩ v
    (fun _ _ h => constFile_eq arch h) ⟨hmem, htrace⟩ hclean).2 m
  have hsame := runFunction_eliminated arch.machine hP hfn n
    ⟨constFile ctx'.program, ctx'.heap, []⟩
  rw [hrun] at hcode
  obtain ⟨value, s₁, hleft, heffects⟩ := hcode.function_returns
  rw [show ctx'.program.eliminateDeadCode.runFunction arch.machine (eliminated ctx'.program fn) n
    ⟨constFile ctx'.program, ctx'.heap, []⟩ = .returned value s₁ from hleft] at hsame
  obtain ⟨s', hfull, hmem'⟩ := hsame.returned_left
  exact ⟨n, value, s', hfull, hmem'.trans heffects.mem.symm⟩

/-- The machine code of an operator tree returns, and has printed the rows of the tree. -/
lemma compiledCode_prints (arch : Arch) (root : Operator) (self : Word) (outputIUs : List IU)
    (ctx ctx' : CompilationContext) (hctx : ctx.program = queryProgram)
    (hgen : generateCode root self outputIUs ctx = .ok ((), ctx')) (hbool : BooleanPredicates root)
    (hids : SidesDistinct root) (htables : root.tables.Nodup) (hscoped : root.Scoped)
    (hfits : root.Fits) (hloaded : root.Loaded ctx.heap) (hwide : outputIUs.length ≤ 8)
    (houtput : ∀ iu ∈ outputIUs, iu.id ∈ root.outputIUs.map IU.id)
    (hdenotes : ConstsDenote ctx'.program) :
    ∃ fn, ctx'.program.eliminateDeadCode.functions[ctx'.program.currentFnIdx]? = some fn ∧
      ∀ v : VState Value Heap, v.mem = ctx'.heap → v.trace = [] →
        arch.target.RunsClean (translateFunction ctx'.program.eliminateDeadCode fn) v →
        ∃ m v', arch.target.runCode (translateFunction ctx'.program.eliminateDeadCode fn) m
            (.block 0) v = .returned v' ∧
          (v'.mem.rows self).map (·.map some) =
            (ctx.heap.rows self).map (·.map some) ++ root.result outputIUs := by
  have hP := generateCode_queryCode root self outputIUs hctx hbool hgen
  obtain ⟨fn, hfn⟩ := exists_function hP
  refine ⟨eliminated ctx'.program fn, eliminated_functions hfn, fun v hmem htrace hclean => ?_⟩
  obtain ⟨fuel, s', hrun, hrows⟩ := runFunction_prints arch root self outputIUs hctx hgen hids htables
    hscoped hfits hloaded hwide houtput hfn hdenotes (constRegs_constFile _)
  -- what is left of the code returns as well
  have hsame := runFunction_eliminated arch.machine hP hfn fuel
    ⟨constFile ctx'.program, ctx'.heap, []⟩
  rw [hrun] at hsame
  obtain ⟨s₁, hleft, hmem₁⟩ := hsame.returned_right
  -- and so does its translation
  obtain ⟨n, hn, m, hcode⟩ := (translateFunction_simulates arch.target (logical_target arch)
    (translatable_eliminated hP hfn) ⟨constFile ctx'.program, ctx'.heap, []⟩ v
    (fun _ _ h => constFile_eq arch h) ⟨hmem, htrace⟩ hclean).1 fuel
  rw [runFunction_of_le hn hleft] at hcode
  obtain ⟨v', hend, heffects⟩ := hcode.code_returns
  refine ⟨m, v', hend, ?_⟩
  rw [heffects.mem, ← hmem₁, hrows]

end Proofs

end TidyTuples
