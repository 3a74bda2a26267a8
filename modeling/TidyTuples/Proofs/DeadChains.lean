import TidyTuples.Proofs.Builders
import TidyTuples.Proofs.DeadCode

/-!
# Dead chains

The uses are counted once, before the removal. The head of a chain of dead instructions goes, and
the rest of the chain stays until the next run.
-/

namespace TidyTuples

namespace IRProgram

/-- How many instructions stand in the blocks. -/
def instructionCount (p : IRProgram) : Nat :=
  (p.functions.map fun fn => (fn.blocks.map fun blk => blk.instructions.length).sum).sum

end IRProgram

namespace Proofs

open IRProgram

/-- An instruction of the program uses the result. -/
def UsedIn (p : IRProgram) (off : Nat) : Prop :=
  ∃ fn ∈ p.functions, ∃ user, BelongsTo user fn ∧ ∃ i, p.instrAt user = some i ∧ .instr off ∈ i.uses

/-- An instruction that control can reach uses the result. -/
def UsedInReached (p : IRProgram) (off : Nat) : Prop :=
  ∃ fn ∈ p.functions, ∃ user, Reached p fn user ∧ ∃ i, p.instrAt user = some i ∧ .instr off ∈ i.uses

/-- Every instruction but `Branch`, `CondBranch`, `Return`, `Store` and `Call` is an operand. -/
def NoDeadCode (p : IRProgram) : Prop :=
  ∀ fn ∈ p.functions, ∀ off, BelongsTo off fn → ∀ i, p.instrAt off = some i →
    i.hasSideEffect = false → UsedIn p off

section

variable {p : IRProgram} {fn : IRFunction} {off b : Nat}

lemma mem_usedInReachable_iff : off ∈ usedInReachable p ↔ UsedInReached p off := by
  constructor
  · intro h
    obtain ⟨fn', hfn', hmem⟩ := List.mem_flatMap.mp h
    obtain ⟨fn, hfn, rfl⟩ := List.mem_map.mp hfn'
    obtain ⟨blk, hblk, hmem⟩ := List.mem_flatMap.mp hmem
    obtain ⟨user, huser, hmem⟩ := List.mem_flatMap.mp hmem
    obtain ⟨ref, href, hsome⟩ := List.mem_filterMap.mp hmem
    refine ⟨fn, hfn, user, belongsTo_cleared_iff.mp ⟨blk, hblk, huser⟩, ?_⟩
    cases hi : p.instrAt user with
    | none =>
      rw [hi] at href
      cases href
    | some i =>
      rw [hi] at href
      cases ref with
      | instr o =>
        cases hsome
        exact ⟨i, rfl, href⟩
      | null => cases hsome
      | param f k => cases hsome
  · rintro ⟨fn, hfn, user, huser, i, hi, huse⟩
    exact mem_usedInReachable hfn huser hi huse

/-- What is kept has a side effect or is used in code that control can reach. -/
lemma keepInstr_iff {i : Instr} (hi : p.instrAt off = some i) :
    p.keepInstr (usedInReachable p) off = true ↔ i.hasSideEffect = true ∨ UsedInReached p off := by
  rw [keepInstr, hi, Bool.or_eq_true, decide_eq_true_iff, mem_usedInReachable_iff]
  rfl

/-- What a run leaves was used when the run began. -/
lemma eliminated_used (hfn : fn ∈ p.eliminateDeadCode.functions) (hoff : BelongsTo off fn) {i : Instr}
    (hi : p.instrAt off = some i) (hpure : i.hasSideEffect = false) : UsedInReached p off := by
  rw [eliminateDeadCode_functions] at hfn
  obtain ⟨fn', -, rfl⟩ := List.mem_map.mp hfn
  rcases (keepInstr_iff hi).mp (belongsTo_eliminated_iff.mp hoff).2 with hside | hused
  · rw [hpure] at hside
    cases hside
  · exact hused

/-! ### The second run -/

lemma successor_hasSideEffect {i : Instr} {c : Nat} (h : c ∈ i.successors) : i.hasSideEffect = true := by
  cases i with
  | branch t => rfl
  | condBranch cond t f => rfl
  | _ => cases h

lemma eliminated_block {blk : BasicBlock} (hblk : fn.blocks[b]? = some blk)
    (hb : b ∈ p.reachableBlocks fn) : (eliminated p fn).blocks[b]? =
      some { blk with instructions := blk.instructions.filter (p.keepInstr (usedInReachable p)) } := by
  unfold eliminated removeUnused clearUnreachable
  rw [List.getElem?_map, List.getElem?_mapIdx, hblk]
  simp only [Option.map_some, if_pos hb]

/-- The branches that lead on from a block that control can reach are kept. -/
lemma successors_eliminated {c : Nat} (hb : Reachable p fn b) (hc : c ∈ p.blockSuccessors fn b) :
    c ∈ p.eliminateDeadCode.blockSuccessors (eliminated p fn) b := by
  unfold blockSuccessors at hc
  split at hc
  · cases hc
  rename_i blk hblk
  split at hc
  · cases hc
  rename_i ref hlast
  cases hi : p.instrAt ref with
  | none =>
    rw [hi] at hc
    cases hc
  | some i =>
    rw [hi] at hc
    have hin := mem_reachableBlocks hb (List.getElem?_eq_some_iff.mp hblk).1
    have hkeep : p.keepInstr (usedInReachable p) ref = true :=
      (keepInstr_iff hi).mpr (.inl (successor_hasSideEffect hc))
    obtain ⟨init, hinit⟩ := List.getLast?_eq_some_iff.mp hlast
    have hlast' : (blk.instructions.filter (p.keepInstr (usedInReachable p))).getLast? = some ref := by
      rw [hinit, List.filter_append, List.filter_cons_of_pos hkeep, List.filter_nil,
        List.getLast?_concat]
    unfold blockSuccessors
    rw [eliminated_block hblk hin]
    dsimp only
    rw [hlast']
    dsimp only
    rw [show p.eliminateDeadCode.instrAt ref = some i from hi]
    exact hc

/-- A run makes no block unreachable. -/
lemma reachable_eliminated (h : Reachable p fn b) :
    Reachable p.eliminateDeadCode (eliminated p fn) b := by
  induction h with
  | entry => exact .entry
  | step hb hc ih => exact .step ih (successors_eliminated hb hc)

lemma reached_eliminated (hoff : BelongsTo off (eliminated p fn)) :
    Reached p.eliminateDeadCode (eliminated p fn) off := by
  obtain ⟨⟨b, hb, blk, hblk, hmem⟩, hkeep⟩ := belongsTo_eliminated_iff.mp hoff
  have hblk' := eliminated_block hblk hb
  refine ⟨b, ?_, _, hblk', List.mem_filter.mpr ⟨hmem, hkeep⟩⟩
  exact mem_reachableBlocks (reachable_eliminated (reachable_of_mem hb))
    (List.getElem?_eq_some_iff.mp hblk').1

lemma reachableBlocks_eliminated (hb : b ∈ p.reachableBlocks fn) (hlt : b < fn.blocks.length) :
    b ∈ p.eliminateDeadCode.reachableBlocks (eliminated p fn) := by
  apply mem_reachableBlocks (reachable_eliminated (reachable_of_mem hb))
  unfold eliminated removeUnused clearUnreachable
  rw [List.length_map, List.length_mapIdx]
  exact hlt

/-- Nothing is cleared where only empty blocks are out of reach. -/
lemma clearUnreachable_eq (h : ∀ b blk, fn.blocks[b]? = some blk → b ∉ p.reachableBlocks fn →
    blk.instructions = []) : p.clearUnreachable fn = fn := by
  have hblocks : (fn.blocks.mapIdx fun b blk =>
      if b ∈ p.reachableBlocks fn then blk else { blk with instructions := [] }) = fn.blocks := by
    apply List.ext_getElem?
    intro b
    rw [List.getElem?_mapIdx]
    cases hblk : fn.blocks[b]? with
    | none => rfl
    | some blk =>
      by_cases hb : b ∈ p.reachableBlocks fn
      · simp only [Option.map_some, if_pos hb]
      · simp only [Option.map_some, if_neg hb, ← h b blk hblk hb]
  unfold clearUnreachable
  rw [hblocks]

/-- Nothing is removed where every instruction is kept. -/
lemma removeUnused_eq {used : List Nat} (h : ∀ off, BelongsTo off fn → p.keepInstr used off = true) :
    p.removeUnused used fn = fn := by
  have hblocks : (fn.blocks.map fun blk =>
      { blk with instructions := blk.instructions.filter (p.keepInstr used) }) = fn.blocks := by
    conv_rhs => rw [← List.map_id fn.blocks]
    apply List.map_congr_left
    intro blk hblk
    have hall : blk.instructions.filter (p.keepInstr used) = blk.instructions :=
      List.filter_eq_self.mpr fun off hoff => h off ⟨blk, hblk, hoff⟩
    rw [hall]
    rfl
  unfold removeUnused
  rw [hblocks]

/-- The second run clears no block. -/
lemma clear_eliminated : p.eliminateDeadCode.clearUnreachable (eliminated p fn) = eliminated p fn := by
  apply clearUnreachable_eq
  intro b blk hblk hnot
  have hlt : b < fn.blocks.length := by
    have hlt := (List.getElem?_eq_some_iff.mp hblk).1
    unfold eliminated removeUnused clearUnreachable at hlt
    rwa [List.length_map, List.length_mapIdx] at hlt
  have hb : b ∉ p.reachableBlocks fn := fun hb => hnot (reachableBlocks_eliminated hb hlt)
  unfold eliminated removeUnused clearUnreachable at hblk
  rw [List.getElem?_map, List.getElem?_mapIdx, List.getElem?_eq_getElem hlt] at hblk
  simp only [Option.map_some, if_neg hb] at hblk
  cases hblk
  rfl

lemma usedIn_of_reached (h : UsedInReached p off) : UsedIn p off := by
  obtain ⟨fn, hfn, user, ⟨b, -, blk, hblk, hmem⟩, huse⟩ := h
  exact ⟨fn, hfn, user, ⟨blk, List.mem_of_getElem? hblk, hmem⟩, huse⟩

lemma usedInReached_eliminated (h : UsedIn p.eliminateDeadCode off) :
    UsedInReached p.eliminateDeadCode off := by
  obtain ⟨fn, hfn, user, huser, huse⟩ := h
  refine ⟨fn, hfn, user, ?_, huse⟩
  rw [eliminateDeadCode_functions] at hfn
  obtain ⟨fn', -, rfl⟩ := List.mem_map.mp hfn
  exact reached_eliminated huser

/-- What a run leaves alone has no dead code. -/
lemma noDeadCode_of_stable (h : p.eliminateDeadCode = p) : NoDeadCode p := by
  intro fn hfn off hoff i hi hpure
  rw [← h] at hfn
  exact usedIn_of_reached (eliminated_used hfn hoff hi hpure)

/-- A program without dead code is left alone by a second run, and only such a program. -/
theorem eliminateDeadCode_stable_iff : p.eliminateDeadCode.eliminateDeadCode = p.eliminateDeadCode ↔
    NoDeadCode p.eliminateDeadCode := by
  constructor
  · exact noDeadCode_of_stable
  · intro hnone
    have hfunctions : p.eliminateDeadCode.eliminateDeadCode.functions =
        p.eliminateDeadCode.functions := by
      rw [eliminateDeadCode_functions]
      conv_rhs => rw [← List.map_id p.eliminateDeadCode.functions]
      apply List.map_congr_left
      intro fn hfn
      have hclear : p.eliminateDeadCode.clearUnreachable fn = fn := by
        rw [eliminateDeadCode_functions] at hfn
        obtain ⟨fn', -, rfl⟩ := List.mem_map.mp hfn
        exact clear_eliminated
      unfold eliminated
      rw [hclear]
      apply removeUnused_eq
      intro off hoff
      cases hi : p.eliminateDeadCode.instrAt off with
      | none =>
        rw [keepInstr, hi]
        rfl
      | some i =>
        apply (keepInstr_iff hi).mpr
        cases hpure : i.hasSideEffect with
        | true => exact .inl rfl
        | false => exact .inr (usedInReached_eliminated (hnone fn hfn off hoff i hi hpure))
    unfold eliminateDeadCode at hfunctions ⊢
    dsimp only at hfunctions ⊢
    rw [hfunctions]

/-! ### Many runs -/

/-- A function that makes what it changes smaller reaches a value that it leaves alone. -/
lemma exists_iterate_fixed {α : Type} (f : α → α) (size : α → Nat)
    (hshrinks : ∀ x, f x ≠ x → size (f x) < size x) (x : α) :
    ∃ n ≤ size x, f (f^[n] x) = f^[n] x := by
  induction hsize : size x using Nat.strong_induction_on generalizing x with
  | _ k ih =>
    by_cases hfix : f x = x
    · exact ⟨0, Nat.zero_le k, hfix⟩
    · have hlt := hshrinks x hfix
      rw [hsize] at hlt
      obtain ⟨n, hn, hfixed⟩ := ih _ hlt (f x) rfl
      exact ⟨n + 1, by omega, hfixed⟩

lemma sum_le_of_forall₂ {α : Type} {R : α → α → Prop} {size : α → Nat} {xs ys : List α}
    (h : List.Forall₂ R xs ys)
    (hR : ∀ x y, R x y → size x ≤ size y ∧ (size x = size y → x = y)) :
    (xs.map size).sum ≤ (ys.map size).sum ∧ ((xs.map size).sum = (ys.map size).sum → xs = ys) := by
  induction h with
  | nil => exact ⟨Nat.le_refl _, fun _ => rfl⟩
  | @cons x y xs ys hxy _ ih =>
    obtain ⟨hle, heq⟩ := hR x y hxy
    obtain ⟨hle', heq'⟩ := ih
    simp only [List.map_cons, List.sum_cons]
    refine ⟨by omega, fun hsum => ?_⟩
    rw [heq (by omega), heq' (by omega)]

/-- A block with some instructions taken out. -/
def Shrinks (blk' blk : BasicBlock) : Prop :=
  blk'.name = blk.name ∧ blk'.instructions.Sublist blk.instructions

lemma Shrinks.size {blk' blk : BasicBlock} (h : Shrinks blk' blk) :
    blk'.instructions.length ≤ blk.instructions.length ∧
      (blk'.instructions.length = blk.instructions.length → blk' = blk) := by
  refine ⟨h.2.length_le, fun hlen => ?_⟩
  obtain ⟨name, instructions⟩ := blk'
  obtain ⟨name', instructions'⟩ := blk
  obtain ⟨rfl, hsub⟩ := h
  have heq : instructions = instructions' := hsub.eq_of_length hlen
  rw [heq]

lemma eliminated_shrinks (p : IRProgram) (fn : IRFunction) :
    List.Forall₂ Shrinks (eliminated p fn).blocks fn.blocks := by
  unfold eliminated removeUnused clearUnreachable
  apply List.forall₂_iff_get.mpr
  refine ⟨by simp, fun b hb hb' => ?_⟩
  simp only [List.get_eq_getElem, List.getElem_map, List.getElem_mapIdx]
  split_ifs
  · exact ⟨rfl, List.filter_sublist⟩
  · exact ⟨rfl, by simp⟩

/-- A run that changes the program takes an instruction out. -/
lemma instructionCount_lt (p : IRProgram) (h : p.eliminateDeadCode ≠ p) :
    p.eliminateDeadCode.instructionCount < p.instructionCount := by
  have hfns : List.Forall₂ (fun fn' fn => fn' = eliminated p fn) p.eliminateDeadCode.functions
      p.functions := by
    rw [eliminateDeadCode_functions, List.forall₂_map_left_iff, List.forall₂_same]
    exact fun _ _ => rfl
  obtain ⟨hle, heq⟩ := @sum_le_of_forall₂ _ _
    (fun fn : IRFunction => (fn.blocks.map fun blk => blk.instructions.length).sum) _ _ hfns (by
      rintro fn' fn rfl
      obtain ⟨hle, heq⟩ := sum_le_of_forall₂ (eliminated_shrinks p fn) fun _ _ => Shrinks.size
      refine ⟨hle, fun hsum => ?_⟩
      have hblocks := heq hsum
      unfold eliminated removeUnused clearUnreachable at hblocks ⊢
      dsimp only at hblocks ⊢
      rw [hblocks])
  apply lt_of_le_of_ne hle
  intro hsum
  apply h
  have hfunctions := heq hsum
  unfold eliminateDeadCode at hfunctions ⊢
  dsimp only at hfunctions ⊢
  rw [hfunctions]

end

/-- One run leaves what was used in reachable code when it began; a second run changes nothing
exactly if no dead code is left; and some number of runs leaves none. -/
theorem eliminateDeadCode_chains (p : IRProgram) :
    (∀ fn ∈ p.eliminateDeadCode.functions, ∀ off, BelongsTo off fn → ∀ i, p.instrAt off = some i →
      i.hasSideEffect = false → UsedInReached p off) ∧
    (p.eliminateDeadCode.eliminateDeadCode = p.eliminateDeadCode ↔ NoDeadCode p.eliminateDeadCode) ∧
    ∃ n ≤ p.instructionCount, eliminateDeadCode (eliminateDeadCode^[n] p) = eliminateDeadCode^[n] p ∧
      NoDeadCode (eliminateDeadCode^[n] p) := by
  refine ⟨fun fn hfn off hoff i hi hpure => eliminated_used hfn hoff hi hpure,
    eliminateDeadCode_stable_iff, ?_⟩
  obtain ⟨n, hn, hfixed⟩ := exists_iterate_fixed eliminateDeadCode instructionCount
    instructionCount_lt p
  exact ⟨n, hn, hfixed, noDeadCode_of_stable hfixed⟩

/-- `y = x + x; z = y + y; return` with a parameter `x`. -/
def deadChain : List BuilderCall :=
  [.beginFunction "f" .void [("x", .int64)], .addBinary .add .int64 (.param 0 0) (.param 0 0),
    .addBinary .add .int64 (.instr 0) (.instr 0), .addReturn .null]

/-- The sum `y` is still there, without a use. -/
theorem deadChain_left : ¬ ∀ calls p, BuilderCall.build calls = some p →
    NoDeadCode p.eliminateDeadCode ∧
      p.eliminateDeadCode.eliminateDeadCode = p.eliminateDeadCode := by
  intro h
  have hbuild : BuilderCall.build deadChain = some
      ((BuilderCall.build deadChain).get (by decide)) := (Option.some_get _).symm
  generalize hp : (BuilderCall.build deadChain).get (by decide) = p at hbuild
  have hchanged : p.eliminateDeadCode.eliminateDeadCode ≠ p.eliminateDeadCode := by
    subst hp
    decide +kernel
  exact hchanged (h _ p hbuild).2

end Proofs

end TidyTuples
