import TidyTuples.Ir.DeadCode
import Mathlib.Data.Finset.Range

/-!
# Dead code elimination preserves behaviour

An unreachable block is never entered, and the register of a removed instruction is read by no
instruction that is left. Both programs therefore run in lockstep, block by block, with register
files that agree on every register that has a use.
-/

namespace TidyTuples.Proofs

/-- Reachability from the entry block along the branches that end the blocks. -/
inductive Reachable (P : IRProgram) (fn : IRFunction) : Nat → Prop
  | entry : Reachable P fn 0
  | step {b c : Nat} : Reachable P fn b → c ∈ P.blockSuccessors fn b → Reachable P fn c

def EndsInTerminator (P : IRProgram) (instructions : List Nat) : Prop :=
  ∃ init last i, instructions = init ++ [last] ∧ P.instrAt last = some i ∧ i.isTerminator = true ∧
    ∀ ref ∈ init, ∀ i, P.instrAt ref = some i → i.isTerminator = false

/-- Every reachable block ends in exactly one terminator. Of SSA form this is all that the
elimination needs. -/
def BlocksTerminated (P : IRProgram) (fn : IRFunction) : Prop :=
  ∀ b blk, Reachable P fn b → fn.blocks[b]? = some blk → EndsInTerminator P blk.instructions

section Simulation

variable {V σ : Type}

/-- The register files agree on everything but unused instruction results. -/
structure Agree (used : List Nat) (s s' : ExecState V σ) : Prop where
  mem : s.mem = s'.mem
  trace : s.trace = s'.trace
  regs : ∀ ref, (∀ offset, ref = .instr offset → offset ∈ used) → s.regs ref = s'.regs ref

/-- Two outcomes that look the same from outside. -/
def SameOutcome : Outcome V σ → Outcome V σ → Prop
  | .goto b s, .goto b' s' => b = b' ∧ s.mem = s'.mem ∧ s.trace = s'.trace
  | .returned v s, .returned v' s' => v = v' ∧ s.mem = s'.mem ∧ s.trace = s'.trace
  | .stuck s, .stuck s' => s.mem = s'.mem ∧ s.trace = s'.trace
  | _, _ => False

/-- `SameOutcome` with the register invariant kept where the run goes on. -/
def AgreeOutcome (used : List Nat) : Outcome V σ → Outcome V σ → Prop
  | .goto b s, .goto b' s' => b = b' ∧ Agree used s s'
  | .returned v s, .returned v' s' => v = v' ∧ Agree used s s'
  | .stuck s, .stuck s' => Agree used s s'
  | _, _ => False

lemma SameOutcome.returned_left {o : Outcome V σ} {value : Option V} {s' : ExecState V σ}
    (h : SameOutcome o (.returned value s')) : ∃ s, o = .returned value s ∧ s.mem = s'.mem := by
  cases o with
  | goto b s => exact h.elim
  | returned v s => exact ⟨s, by rw [h.1], h.2.1⟩
  | stuck s => exact h.elim

lemma SameOutcome.returned_right {o : Outcome V σ} {value : Option V} {s : ExecState V σ}
    (h : SameOutcome (.returned value s) o) : ∃ s', o = .returned value s' ∧ s.mem = s'.mem := by
  cases o with
  | goto b s' => exact h.elim
  | returned v s' => exact ⟨s', by rw [h.1], h.2.1⟩
  | stuck s' => exact h.elim

lemma AgreeOutcome.same {used : List Nat} {o o' : Outcome V σ} (h : AgreeOutcome used o o') :
    SameOutcome o o' := by
  cases o <;> cases o' <;> simp only [AgreeOutcome] at h <;> simp only [SameOutcome]
  · exact ⟨h.1, h.2.mem, h.2.trace⟩
  · exact ⟨h.1, h.2.mem, h.2.trace⟩
  · exact ⟨h.mem, h.trace⟩

variable {used : List Nat} {s s' : ExecState V σ}

lemma Agree.emitEvent (h : Agree used s s') (e : Event V) :
    Agree used (s.emitEvent e) (s'.emitEvent e) :=
  ⟨h.mem, by simp only [ExecState.emitEvent, h.trace], h.regs⟩

lemma Agree.setReg (h : Agree used s s') (ref : Nat) (v : V) :
    Agree used (s.setReg ref v) (s'.setReg ref v) := by
  refine ⟨h.mem, h.trace, fun r hr => ?_⟩
  by_cases hrr : r = .instr ref
  · simp [ExecState.setReg, hrr]
  · simp only [ExecState.setReg, Function.update_of_ne hrr, h.regs r hr]

/-- Writing a register without uses is invisible. -/
lemma Agree.setReg_left (h : Agree used s s') {ref : Nat} (hne : ref ∉ used) (v : V) :
    Agree used (s.setReg ref v) s' := by
  refine ⟨h.mem, h.trace, fun r hr => ?_⟩
  have hrr : r ≠ .instr ref := fun he => hne (hr ref he)
  simp only [ExecState.setReg, Function.update_of_ne hrr, h.regs r hr]

/-- The operands of an instruction have uses. -/
def UsesIn (used : List Nat) (i : Instr) : Prop :=
  ∀ offset, .instr offset ∈ i.uses → offset ∈ used

lemma Agree.read (h : Agree used s s') {i : Instr} (hi : UsesIn used i) {r : IRValueRef}
    (href : r ∈ i.uses) : s.regs r = s'.regs r :=
  h.regs r fun offset he => hi offset (he ▸ href)

variable {M : Machine V σ}

/-- An instruction that stays has the same effect on both sides. -/
lemma execInstr_agree {i : Instr} (hi : UsesIn used i) (h : Agree used s s') (ref : Nat) :
    Option.Rel (Agree used) (execInstr M ref i s) (execInstr M ref i s') := by
  cases i with
  | constInt ty value => exact .some (h.setReg ref _)
  | constBool value => exact .some (h.setReg ref _)
  | binary op ty a b =>
    simp only [execInstr]
    by_cases hstore : op = .store
    · subst hstore
      have ha := h.read hi (r := a) (by simp [Instr.uses, Opcode.isBinary])
      have hb := h.read hi (r := b) (by simp [Instr.uses, Opcode.isBinary])
      simp only [if_true, ha, hb, h.mem]
      exact .some ⟨rfl, by simp only [ExecState.emitEvent, h.trace], h.regs⟩
    simp only [if_neg hstore]
    by_cases hbin : op.isBinary = true
    · have ha := h.read hi (r := a) (by simp [Instr.uses, hbin])
      have hb := h.read hi (r := b) (by simp [Instr.uses, hbin])
      simp only [hbin, if_true, ha, hb]
      exact .some (h.setReg ref _)
    simp only [if_neg hbin]
    by_cases hun : op.isUnary = true
    · have ha := h.read hi (r := a) (by simp [Instr.uses, hbin, hun])
      simp only [hun, if_true, ha, h.mem]
      exact .some (h.setReg ref _)
    · simp only [if_neg hun]
      exact .some h
  | unary op ty a =>
    simp only [execInstr]
    by_cases hun : op.isUnary = true
    · have ha := h.read hi (r := a) (by simp [Instr.uses, hun])
      simp only [hun, if_true, ha, h.mem]
      exact .some (h.setReg ref _)
    · simp only [if_neg hun]
      exact .some h
  | rotateRight a shift =>
    simp only [execInstr, h.read hi (r := a) (by simp [Instr.uses])]
    exact .some (h.setReg ref _)
  | gep base off =>
    simp only [execInstr, h.read hi (r := base) (by simp [Instr.uses])]
    exact .some (h.setReg ref _)
  | call ty fn args =>
    have hargs : args.map s.regs = args.map s'.regs :=
      List.map_congr_left fun a ha => h.read hi (r := a) ha
    simp only [execInstr, hargs, h.mem]
    cases M.call fn (args.map s'.regs) s'.mem with
    | none => exact .none
    | some p =>
      have hcall : Agree used ({ s with mem := p.2 }.emitEvent (.call fn (args.map s'.regs)))
          ({ s' with mem := p.2 }.emitEvent (.call fn (args.map s'.regs))) :=
        ⟨rfl, by simp only [ExecState.emitEvent, h.trace], h.regs⟩
      by_cases hty : ty = .void
      · simp only [hty, if_true]
        exact .some hcall
      · simp only [if_neg hty]
        exact .some (hcall.setReg ref p.1)
  | branch t => exact .some h
  | condBranch c t f => exact .some h
  | ret v => exact .some h
  | phi ty entries => exact .some h

/-- A removed instruction only writes its own register. -/
lemma execInstr_removed {i : Instr} {ref : Nat} (hside : i.hasSideEffect = false)
    (hne : ref ∉ used) (h : Agree used s s') :
    ∃ s₁, execInstr M ref i s = some s₁ ∧ Agree used s₁ s' := by
  cases i with
  | constInt ty value => exact ⟨_, rfl, h.setReg_left hne _⟩
  | constBool value => exact ⟨_, rfl, h.setReg_left hne _⟩
  | binary op ty a b =>
    have hstore : op ≠ .store := by
      rintro rfl
      simp [Instr.hasSideEffect, Instr.op] at hside
    simp only [execInstr, if_neg hstore]
    split_ifs
    · exact ⟨_, rfl, h.setReg_left hne _⟩
    · exact ⟨_, rfl, h.setReg_left hne _⟩
    · exact ⟨_, rfl, h⟩
  | unary op ty a =>
    simp only [execInstr]
    split_ifs
    · exact ⟨_, rfl, h.setReg_left hne _⟩
    · exact ⟨_, rfl, h⟩
  | rotateRight a shift => exact ⟨_, rfl, h.setReg_left hne _⟩
  | gep base off => exact ⟨_, rfl, h.setReg_left hne _⟩
  | call ty fn args => simp [Instr.hasSideEffect, Instr.op] at hside
  | branch t => exact ⟨_, rfl, h⟩
  | condBranch c t f => exact ⟨_, rfl, h⟩
  | ret v => exact ⟨_, rfl, h⟩
  | phi ty entries => exact ⟨_, rfl, h⟩

variable {P P' : IRProgram} (hdata : P'.instrData = P.instrData)

include hdata

lemma instrAt_eq (ref : Nat) : P'.instrAt ref = P.instrAt ref := by
  simp only [IRProgram.instrAt, hdata]

/-- Running a block and running what is left of it. -/
lemma execInstrs_agree (blk : Nat) (instructions : List Nat)
    (huses : ∀ ref ∈ instructions, ∀ i, P.instrAt ref = some i → UsesIn used i)
    (h : Agree used s s') :
    AgreeOutcome used (P.execInstrs M blk instructions s)
      (P'.execInstrs M blk (instructions.filter (P.keepInstr used)) s') := by
  induction instructions generalizing s s' with
  | nil => exact ⟨rfl, h⟩
  | cons ref rest ih =>
    have hrest : ∀ ref ∈ rest, ∀ i, P.instrAt ref = some i → UsesIn used i :=
      fun r hr => huses r (List.mem_cons_of_mem ref hr)
    cases hi : P.instrAt ref with
    | none =>
      have hkeep : P.keepInstr used ref = true := by simp [IRProgram.keepInstr, hi]
      simp only [List.filter_cons_of_pos hkeep, IRProgram.execInstrs, instrAt_eq hdata, hi]
      exact h
    | some i =>
      have hui := huses ref List.mem_cons_self i hi
      by_cases hkeep : P.keepInstr used ref = true
      · rw [List.filter_cons_of_pos hkeep]
        have hexec := execInstr_agree (M := M) hui h ref
        cases i with
        | branch t =>
          simp only [IRProgram.execInstrs, instrAt_eq hdata, hi]
          exact ⟨rfl, h⟩
        | condBranch c t f =>
          have hc := h.read hui (r := c) (by simp [Instr.uses])
          simp only [IRProgram.execInstrs, instrAt_eq hdata, hi, hc]
          exact ⟨rfl, h⟩
        | ret v =>
          have hv := h.read hui (r := v) (by simp [Instr.uses])
          simp only [IRProgram.execInstrs, instrAt_eq hdata, hi, hv]
          exact ⟨rfl, h⟩
        | phi ty entries =>
          simp only [IRProgram.execInstrs, instrAt_eq hdata, hi]
          exact ih hrest h
        | constInt _ _ | constBool _ | binary _ _ _ _ | unary _ _ _ | rotateRight _ _ | gep _ _
        | call _ _ _ =>
          simp only [IRProgram.execInstrs, instrAt_eq hdata, hi]
          revert hexec
          generalize execInstr M ref _ s = o
          generalize execInstr M ref _ s' = o'
          rintro (h₁ | _)
          · exact ih hrest h₁
          · exact h
      · rw [List.filter_cons_of_neg hkeep]
        simp only [IRProgram.keepInstr, hi, Option.map_some, Option.getD_some, Bool.or_eq_true,
          decide_eq_true_eq, not_or, Bool.not_eq_true] at hkeep
        obtain ⟨s₁, hs₁, h₁⟩ := execInstr_removed (M := M) hkeep.1 hkeep.2 h
        cases i with
        | branch t => simp [Instr.hasSideEffect, Instr.op] at hkeep
        | condBranch c t f => simp [Instr.hasSideEffect, Instr.op] at hkeep
        | ret v => simp [Instr.hasSideEffect, Instr.op] at hkeep
        | phi ty entries =>
          simp only [IRProgram.execInstrs, hi]
          exact ih hrest h
        | constInt _ _ | constBool _ | binary _ _ _ _ | unary _ _ _ | rotateRight _ _ | gep _ _
        | call _ _ _ =>
          simp only [IRProgram.execInstrs, hi, hs₁]
          exact ih hrest h₁

lemma incoming_eq (src ref : Nat) : P'.incoming src ref = P.incoming src ref := by
  simp only [IRProgram.incoming, instrAt_eq hdata]

/-- The PHIs that are left read used registers only, so they take the same values. -/
lemma applyPhis_agree (src : Nat) (phis : List Nat) {old old' regs regs' : IRValueRef → V}
    (huses : ∀ ref ∈ phis, ∀ i, P.instrAt ref = some i → UsesIn used i)
    (hold : ∀ ref, (∀ offset, ref = .instr offset → offset ∈ used) → old ref = old' ref)
    (hregs : ∀ ref, (∀ offset, ref = .instr offset → offset ∈ used) → regs ref = regs' ref)
    (ref : IRValueRef) (href : ∀ offset, ref = .instr offset → offset ∈ used) :
    P.applyPhis src old phis regs ref =
      P'.applyPhis src old' (phis.filter (P.keepInstr used)) regs' ref := by
  induction phis generalizing regs regs' with
  | nil => exact hregs ref href
  | cons p phis ih =>
    have hrest : ∀ ref ∈ phis, ∀ i, P.instrAt ref = some i → UsesIn used i :=
      fun r hr => huses r (List.mem_cons_of_mem p hr)
    by_cases hkeep : P.keepInstr used p = true
    · rw [List.filter_cons_of_pos hkeep, IRProgram.applyPhis, IRProgram.applyPhis,
        incoming_eq hdata]
      apply ih hrest
      intro r hr
      cases hin : P.incoming src p with
      | none => exact hregs r hr
      | some value =>
        have hval : old value = old' value := by
          refine hold value fun offset he => ?_
          subst he
          cases hi : P.instrAt p with
          | none => simp [IRProgram.incoming, hi] at hin
          | some i =>
            cases i with
            | phi ty entries =>
              refine huses p List.mem_cons_self _ hi offset ?_
              simp only [IRProgram.incoming, hi, Option.map_eq_some_iff] at hin
              obtain ⟨entry, hentry, hfst⟩ := hin
              exact List.mem_map.mpr ⟨entry, List.mem_of_find?_eq_some hentry, hfst⟩
            | _ => simp [IRProgram.incoming, hi] at hin
        by_cases hrp : r = .instr p
        · simp [hrp, hval]
        · simp only [Function.update_of_ne hrp, hregs r hr]
    · rw [List.filter_cons_of_neg hkeep, IRProgram.applyPhis]
      apply ih hrest
      intro r hr
      have hp : p ∉ used := by
        simp only [IRProgram.keepInstr, Bool.or_eq_true, decide_eq_true_eq, not_or] at hkeep
        exact hkeep.2
      cases P.incoming src p with
      | none => exact hregs r hr
      | some value =>
        have hrp : r ≠ .instr p := fun he => hp (hr p he)
        simp only [Function.update_of_ne hrp, hregs r hr]

end Simulation

/-! ### The blocks that are cleared -/

lemma instr_successors_length (i : Instr) : i.successors.length ≤ 2 := by
  cases i <;> simp [Instr.successors]

lemma blockSuccessors_length (P : IRProgram) (fn : IRFunction) (b : Nat) :
    (P.blockSuccessors fn b).length ≤ 2 := by
  unfold IRProgram.blockSuccessors
  split
  · simp
  · split
    · simp
    · next ref _ =>
      cases P.instrAt ref with
      | none => simp
      | some i => exact instr_successors_length i

/-- The walk marks every reachable block. -/
theorem mem_reachableBlocks {P : IRProgram} {fn : IRFunction} {b : Nat} (h : Reachable P fn b)
    (hb : b < fn.blocks.length) : b ∈ P.reachableBlocks fn := by
  obtain ⟨hentry, hclosed⟩ := Worklist.explore_closed (fun b => b < fn.blocks.length)
    (P.blockSuccessors fn) (Finset.range fn.blocks.length) (by simp) 2
    (blockSuccessors_length P fn) (2 * fn.blocks.length + 1) [0] []
    (by simp [Worklist.work]; omega) (by simp)
  induction h with
  | entry => exact hentry 0 (by simp) hb
  | @step b c hreach hc ih =>
    refine hclosed b (ih ?_) c hc hb
    by_contra hlen
    have hnone : fn.blocks[b]? = none := List.getElem?_eq_none (by omega)
    simp [IRProgram.blockSuccessors, hnone] at hc

/-- The walk marks reachable blocks only. -/
lemma reachable_of_mem {P : IRProgram} {fn : IRFunction} {b : Nat} (h : b ∈ P.reachableBlocks fn) :
    Reachable P fn b := by
  apply Worklist.explore_sound (fun x hx y hy => Reachable.step hx hy) _ _ _ _ _ b h
  · intro x hx
    rw [List.mem_singleton.mp hx]
    exact .entry
  · exact fun x hx => absurd hx List.not_mem_nil

/-- The byte of a block is set where the block has been seen. -/
structure Marks (n : Nat) (w : ReachabilityWalk) (state : List Nat × List Nat) : Prop where
  worklist : w.worklist = state.1
  size : w.reachable.length = n
  marked : ∀ b < n, w.reachable[b]? = some true ↔ b ∈ state.2

lemma Marks.start (fn : IRFunction) : Marks fn.blocks.length (IRProgram.walkStart fn) ([0], []) := by
  refine ⟨rfl, List.length_replicate, fun b hb => ?_⟩
  simp [IRProgram.walkStart, List.getElem?_replicate]

/-- An iteration on the bytes does what it does on the set of seen blocks. -/
lemma Marks.step {P : IRProgram} {fn : IRFunction} {w : ReachabilityWalk}
    {state state' : List Nat × List Nat} (h : Marks fn.blocks.length w state)
    (hstep : Worklist.step (fun b => b < fn.blocks.length) (P.blockSuccessors fn) state = some state') :
    ∃ w', P.walkStep fn w = some w' ∧ Marks fn.blocks.length w' state' := by
  obtain ⟨worklist, seen⟩ := state
  obtain ⟨reachable, pending⟩ := w
  obtain ⟨rfl, hsize, hmarked⟩ := h
  cases pending with
  | nil => cases hstep
  | cons bi pending =>
    rw [Worklist.step] at hstep
    by_cases hnew : bi < fn.blocks.length ∧ bi ∉ seen
    · rw [if_pos hnew] at hstep
      cases hstep
      have hskip : ¬(fn.blocks.length ≤ bi ∨ reachable[bi]? = some true) := by
        rintro (hlen | hset)
        · exact absurd hnew.1 (Nat.not_lt.mpr hlen)
        · exact hnew.2 ((hmarked bi hnew.1).mp hset)
      refine ⟨_, if_neg hskip, rfl, ?_, fun b hb => ?_⟩
      · exact (List.length_set ..).trans hsize
      · change (reachable.set bi true)[b]? = some true ↔ b ∈ bi :: seen
        rw [List.getElem?_set, List.mem_cons, hsize]
        by_cases hbi : bi = b
        · rw [if_pos hbi, if_pos hnew.1]
          exact ⟨fun _ => .inl hbi.symm, fun _ => rfl⟩
        · rw [if_neg hbi, hmarked b hb]
          exact ⟨.inr, fun hor => hor.resolve_left (Ne.symm hbi)⟩
    · rw [if_neg hnew] at hstep
      cases hstep
      have hskip : fn.blocks.length ≤ bi ∨ reachable[bi]? = some true := by
        by_cases hlen : fn.blocks.length ≤ bi
        · exact .inl hlen
        · have hlt := Nat.not_le.mp hlen
          exact .inr ((hmarked bi hlt).mpr (by_contra fun hnot => hnew ⟨hlt, hnot⟩))
      exact ⟨_, if_pos hskip, rfl, hsize, hmarked⟩

/-- The worklist loop ends within `2 * n + 1` iterations on `n` blocks. The bytes it leaves set are
those of the reachable blocks, and the blocks whose bytes are not set are cleared. -/
theorem walk_exact (P : IRProgram) (fn : IRFunction) :
    ∃ k ≤ 2 * fn.blocks.length + 1, ∃ w,
      Worklist.steps (P.walkStep fn) k (IRProgram.walkStart fn) = some w ∧ P.walkStep fn w = none ∧
      w.reachable.length = fn.blocks.length ∧
      (∀ b < fn.blocks.length, w.reachable[b]? = some true ↔ Reachable P fn b) ∧
      P.clearUnreachable fn = { fn with blocks := (fn.blocks.mapIdx fun b blk =>
        if w.reachable[b]? = some true then blk else { blk with instructions := [] }) } := by
  obtain ⟨k, hk, hrun⟩ := Worklist.steps_explore (fun b => b < fn.blocks.length)
    (P.blockSuccessors fn) (Finset.range fn.blocks.length) (by simp) 2
    (blockSuccessors_length P fn) (2 * fn.blocks.length + 1) [0] []
    (by simp [Worklist.work]; omega)
  obtain ⟨w, hw, hmarks⟩ := Worklist.steps_simulates (fun _ _ _ h => Marks.step h) k
    (Marks.start fn) hrun
  have hend : P.walkStep fn w = none := by
    unfold IRProgram.walkStep
    rw [hmarks.worklist]
  refine ⟨k, hk, w, hw, hend, hmarks.size, fun b hb => ?_, ?_⟩
  · exact (hmarks.marked b hb).trans ⟨reachable_of_mem, fun h => mem_reachableBlocks h hb⟩
  · have hblocks : (fn.blocks.mapIdx fun b blk =>
          if b ∈ P.reachableBlocks fn then blk else { blk with instructions := [] }) =
        fn.blocks.mapIdx fun b blk =>
          if w.reachable[b]? = some true then blk else { blk with instructions := [] } := by
      apply List.ext_getElem?
      intro b
      rw [List.getElem?_mapIdx, List.getElem?_mapIdx]
      by_cases hb : b < fn.blocks.length
      · have hiff := hmarks.marked b hb
        change w.reachable[b]? = some true ↔ b ∈ P.reachableBlocks fn at hiff
        simp only [hiff]
      · rw [List.getElem?_eq_none (Nat.not_lt.mp hb)]
        rfl
    unfold IRProgram.clearUnreachable
    rw [hblocks]

lemma usesIn_usedOffsets {P : IRProgram} {functions : List IRFunction} {fn : IRFunction}
    (hfn : fn ∈ functions) {blk : BasicBlock} (hblk : blk ∈ fn.blocks) {ref : Nat}
    (href : ref ∈ blk.instructions) {i : Instr} (hi : P.instrAt ref = some i) :
    UsesIn (P.usedOffsets functions) i := by
  intro offset hoff
  refine List.mem_flatMap.mpr ⟨fn, hfn, List.mem_flatMap.mpr ⟨blk, hblk,
    List.mem_flatMap.mpr ⟨ref, href, ?_⟩⟩⟩
  simp only [hi, Option.map_some, Option.getD_some, List.mem_filterMap]
  exact ⟨_, hoff, rfl⟩

section

variable {P : IRProgram} {fn : IRFunction}

/-- Where the last instruction of a terminated block sends control. -/
lemma execInstrs_goto_successor {V σ : Type} {M : Machine V σ} {instructions : List Nat}
    (hterm : EndsInTerminator P instructions) {blk next : Nat} {s s₁ : ExecState V σ}
    (hrun : P.execInstrs M blk instructions s = .goto next s₁) :
    ∃ last i, instructions.getLast? = some last ∧ P.instrAt last = some i ∧
      next ∈ i.successors := by
  obtain ⟨init, last, i, rfl, hlast, hi, hinit⟩ := hterm
  refine ⟨last, i, by simp, hlast, ?_⟩
  induction init generalizing s with
  | nil =>
    cases i <;> simp only [Instr.isTerminator, Bool.false_eq_true] at hi <;>
      simp only [List.nil_append, IRProgram.execInstrs, hlast] at hrun
    · cases hrun
      simp [Instr.successors]
    · cases hrun
      simp only [Instr.successors, List.mem_cons, List.not_mem_nil, or_false]
      split_ifs <;> simp
    · cases hrun
  | cons ref init ih =>
    have hinit' : ∀ r ∈ init, ∀ i, P.instrAt r = some i → i.isTerminator = false :=
      fun r hr => hinit r (List.mem_cons_of_mem ref hr)
    cases hri : P.instrAt ref with
    | none => simp [IRProgram.execInstrs, hri] at hrun
    | some j =>
      have hj := hinit ref List.mem_cons_self j hri
      cases j with
      | branch _ | condBranch _ _ _ | ret _ => simp [Instr.isTerminator] at hj
      | phi ty entries =>
        simp only [List.cons_append, IRProgram.execInstrs, hri] at hrun
        exact ih hrun hinit'
      | constInt _ _ | constBool _ | binary _ _ _ _ | unary _ _ _ | rotateRight _ _ | gep _ _
      | call _ _ _ =>
        simp only [List.cons_append, IRProgram.execInstrs, hri] at hrun
        revert hrun
        generalize execInstr M ref _ s = o
        intro hrun
        cases o with
        | none => cases hrun
        | some s₂ => exact ih hrun hinit'

end

theorem runBlocks_eliminate {V σ : Type} (M : Machine V σ) {P P' : IRProgram}
    (hdata : P'.instrData = P.instrData) {fn fn' : IRFunction} {used : List Nat}
    (hterm : BlocksTerminated P fn)
    (hlen : fn'.blocks.length = fn.blocks.length)
    (hblocks : ∀ (b : Nat) (blk : BasicBlock), Reachable P fn b → fn.blocks[b]? = some blk → ∃ blk',
      fn'.blocks[b]? = some blk' ∧ blk'.instructions = blk.instructions.filter (P.keepInstr used) ∧
      ∀ ref ∈ blk.instructions, ∀ i, P.instrAt ref = some i → UsesIn used i)
    (fuel : Nat) (src : Option Nat) (b : Nat) (s s' : ExecState V σ) (hb : Reachable P fn b)
    (hs : Agree used s s') :
    AgreeOutcome used (P.runBlocks M fn fuel src b s) (P'.runBlocks M fn' fuel src b s') := by
  induction fuel generalizing src b s s' with
  | zero => exact ⟨rfl, hs⟩
  | succ fuel ih =>
    simp only [IRProgram.runBlocks]
    cases hblk : fn.blocks[b]? with
    | none =>
      have hnone : fn'.blocks[b]? = none := by
        rw [List.getElem?_eq_none_iff] at hblk ⊢
        omega
      simp only [IRProgram.stepBlock, hblk, hnone]
      exact hs
    | some blk =>
      obtain ⟨blk', hblk', hinstrs, huses⟩ := hblocks b blk hb hblk
      have hphis : P'.phisOf blk'.instructions =
          (P.phisOf blk.instructions).filter (P.keepInstr used) := by
        simp only [IRProgram.phisOf, instrAt_eq hdata, hinstrs, List.filter_filter, Bool.and_comm]
      have henter := hs.emitEvent (.enter b)
      have hstep : AgreeOutcome used (P.stepBlock M fn src b s) (P'.stepBlock M fn' src b s') := by
        simp only [IRProgram.stepBlock, hblk, hblk', hinstrs]
        refine execInstrs_agree hdata b blk.instructions huses ?_
        cases src with
        | none => exact henter
        | some src =>
          refine ⟨henter.mem, henter.trace, fun ref href => ?_⟩
          rw [← hinstrs, hphis]
          exact applyPhis_agree hdata src (P.phisOf blk.instructions)
            (fun r hr => huses r (List.mem_of_mem_filter hr)) henter.regs henter.regs ref href
      cases hrun : P.stepBlock M fn src b s with
      | goto next s₁ =>
        rw [hrun] at hstep
        cases hrun' : P'.stepBlock M fn' src b s' with
        | goto next' s₁' =>
          rw [hrun'] at hstep
          obtain ⟨rfl, hs₁⟩ := hstep
          refine ih (some b) next s₁ s₁' (.step hb ?_) hs₁
          simp only [IRProgram.stepBlock, hblk] at hrun
          obtain ⟨last, i, hlast, hi, hsucc⟩ :=
            execInstrs_goto_successor (hterm b blk hb hblk) hrun
          simpa [IRProgram.blockSuccessors, hblk, hlast, hi] using hsucc
        | returned v s₁' => rw [hrun'] at hstep; exact hstep.elim
        | stuck s₁' => rw [hrun'] at hstep; exact hstep.elim
      | returned v s₁ =>
        rw [hrun] at hstep
        cases hrun' : P'.stepBlock M fn' src b s' with
        | goto next' s₁' => rw [hrun'] at hstep; exact hstep.elim
        | returned v' s₁' => rw [hrun'] at hstep; exact hstep
        | stuck s₁' => rw [hrun'] at hstep; exact hstep.elim
      | stuck s₁ =>
        rw [hrun] at hstep
        cases hrun' : P'.stepBlock M fn' src b s' with
        | goto next' s₁' => rw [hrun'] at hstep; exact hstep.elim
        | returned v' s₁' => rw [hrun'] at hstep; exact hstep.elim
        | stuck s₁' => rw [hrun'] at hstep; exact hstep

/-- For every number of blocks run from every initial state, a function and what is left of it
have entered the same blocks, issued the same stores and calls with the same operand values and,
where they are done, returned the same value. -/
theorem eliminateDeadCode_preserves {V σ : Type} (M : Machine V σ) (P : IRProgram) (k : Nat)
    (fn : IRFunction) (hfn : P.functions[k]? = some fn) (hterm : BlocksTerminated P fn) :
    ∃ fn', P.eliminateDeadCode.functions[k]? = some fn' ∧ ∀ fuel s,
      SameOutcome (P.runFunction M fn fuel s) (P.eliminateDeadCode.runFunction M fn' fuel s) := by
  let cleared := P.functions.map P.clearUnreachable
  let used := P.usedOffsets cleared
  let fn' := P.removeUnused used (P.clearUnreachable fn)
  have hfn' : P.eliminateDeadCode.functions[k]? = some fn' := by
    simp [IRProgram.eliminateDeadCode, List.getElem?_map, hfn, fn', used, cleared]
  refine ⟨fn', hfn', fun fuel s => ?_⟩
  have hcleared : P.clearUnreachable fn ∈ cleared :=
    List.mem_map.mpr ⟨fn, List.mem_of_getElem? hfn, rfl⟩
  have hrun := @runBlocks_eliminate V σ M P P.eliminateDeadCode rfl fn fn' used hterm
    (by simp [fn', IRProgram.removeUnused, IRProgram.clearUnreachable]) (by
      intro b blk hb hblk
      obtain ⟨hlt, hget⟩ := List.getElem?_eq_some_iff.mp hblk
      have hmem := mem_reachableBlocks hb hlt
      have hclear : (P.clearUnreachable fn).blocks[b]? = some blk := by
        simp [IRProgram.clearUnreachable, List.getElem?_mapIdx, hblk, hmem]
      refine ⟨{ blk with instructions := blk.instructions.filter (P.keepInstr used) }, ?_, rfl, ?_⟩
      · simp [fn', IRProgram.removeUnused, List.getElem?_map, hclear]
      · intro ref href i hi
        exact usesIn_usedOffsets hcleared (List.mem_of_getElem? hclear) href hi)
    fuel none 0 s s .entry ⟨rfl, rfl, fun _ _ => rfl⟩
  exact hrun.same

/-- A function with an unused constant and a block that no branch leads to. -/
def deadBlockProgram : IRProgram :=
  let (_, p) := IRProgram.beginFunction {} "dce" .void []
  let (reachable, p) := p.addBlock "reachable"
  let (dead, p) := p.addBlock "dead"
  let (_, p) := p.addConstInt 7 .int64
  let (_, p) := p.addBranch reachable
  let (_, p) := (p.setInsertionPoint 0 dead).addConstInt 42 .int64
  let (_, p) := p.addReturn .null
  ((p.setInsertionPoint 0 reachable).addReturn .null).2

def deadBlockFunction : IRFunction :=
  ⟨"dce", .void, [], [], [⟨"entry", [0, 16]⟩, ⟨"reachable", [48]⟩, ⟨"dead", [24, 40]⟩], []⟩

theorem eliminateDeadCode_preserves_deadBlock :
    ∃ fn', deadBlockProgram.eliminateDeadCode.functions[0]? = some fn' ∧
      ∀ (M : Machine Word Unit) fuel s,
        SameOutcome (deadBlockProgram.runFunction M deadBlockFunction fuel s)
          (deadBlockProgram.eliminateDeadCode.runFunction M fn' fuel s) := by
  have hterm : BlocksTerminated deadBlockProgram deadBlockFunction := by
    intro b blk _ hblk
    match b, hblk with
    | 0, hblk =>
      cases hblk
      refine ⟨[0], 16, .branch 1, rfl, rfl, rfl, fun ref href i hi => ?_⟩
      cases List.mem_singleton.mp href
      cases hi
      rfl
    | 1, hblk =>
      cases hblk
      exact ⟨[], 48, .ret .null, rfl, rfl, rfl, by simp⟩
    | 2, hblk =>
      cases hblk
      refine ⟨[24], 40, .ret .null, rfl, rfl, rfl, fun ref href i hi => ?_⟩
      cases List.mem_singleton.mp href
      cases hi
      rfl
  refine ⟨_, rfl, fun M fuel s => ?_⟩
  obtain ⟨fn', hfn', hsame⟩ := eliminateDeadCode_preserves M deadBlockProgram 0 _ rfl hterm
  cases hfn'
  exact hsame fuel s

end TidyTuples.Proofs
