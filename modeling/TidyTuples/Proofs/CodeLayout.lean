import TidyTuples.Proofs.BlockOrder

/-!
# The layout of the code

The code of a function is that of its blocks, in order. Behind the label of a block stands the code
of its instructions, then that of all later blocks.
-/

namespace TidyTuples

open Translator

namespace Translator

/-- The translator behind the instructions `pre` of block `b`. -/
def before (P : IRProgram) (fn : IRFunction) (b : Nat) (pre : List Nat) : Translator :=
  (translateInstrs P fn (canDeferComparison P fn) b pre (afterBlocks P fn b)).2

/-- The code of the blocks from `b` on. -/
def codeFrom (P : IRProgram) (fn : IRFunction) (b : Nat) : List VInstr :=
  (translateBlocks P fn (canDeferComparison P fn) b (fn.blocks.drop b) (afterBlocks P fn b)).1

/-- The code behind the instructions `pre` of block `b`, `post` being the others. -/
def codeBehind (P : IRProgram) (fn : IRFunction) (b : Nat) (pre post : List Nat) : List VInstr :=
  (translateInstrs P fn (canDeferComparison P fn) b post (before P fn b pre)).1 ++
    codeFrom P fn (b + 1)

end Translator

namespace Proofs

section

variable {P : IRProgram} {fn : IRFunction} {d : Nat → Nat → Bool} {t : Translator} {b r : Nat}
  {i : Instr} {pre post : List Nat} {label : Label} {W : Nat → Prop}

/-! ### The labels of the code -/

lemma phiMove_isStraight {src ref : Nat} : ∀ v ∈ phiMove P t src ref, v.isStraight = true := by
  intro v hv
  unfold phiMove at hv
  cases hx : P.incoming src ref with
  | none =>
    rw [hx] at hv
    cases hv
  | some x =>
    rw [hx] at hv
    dsimp only at hv
    split_ifs at hv
    · cases hv
    · cases hconst : P.constIntValue x with
      | some value =>
        rw [hconst] at hv
        rw [List.mem_singleton.mp hv]
        rfl
      | none =>
        rw [hconst] at hv
        cases hreg : t.regMap x with
        | none =>
          rw [hreg] at hv
          cases hv
        | some reg =>
          rw [hreg] at hv
          rw [List.mem_singleton.mp hv]
          rfl

lemma phiMoves_isStraight {src dst : Nat} :
    ∀ v ∈ emitPhiMovesForEdge P fn t src dst, v.isStraight = true := by
  intro v hv
  unfold emitPhiMovesForEdge at hv
  cases hblk : fn.blocks[dst]? with
  | none =>
    rw [hblk] at hv
    cases hv
  | some target =>
    rw [hblk] at hv
    obtain ⟨ref, -, hv⟩ := List.mem_flatMap.mp hv
    exact phiMove_isStraight v hv

lemma bind_notMem_moves {src dst : Nat} : .bind label ∉ emitPhiMovesForEdge P fn t src dst := by
  intro h
  cases phiMoves_isStraight _ h

lemma bind_mem_edges {b₁ b₂ : Nat} (h : .bind label ∈ emitEdges P fn t r b₁ b₂ b) :
    label = .trueEdge r := by
  unfold emitEdges at h
  simp only [List.mem_append, List.mem_singleton, bind_notMem_moves, reduceCtorEq, or_false,
    false_or, VInstr.bind.injEq] at h
  exact h

/-- An instruction binds the label of its true edge at most. -/
lemma bind_mem_translateInstr (ht : PhisMapped P fn t)
    (h : .bind label ∈ (translateInstr P fn d t r b).1) : label = .trueEdge r := by
  cases hi : P.instrAt r with
  | none =>
    rw [translateInstr, hi] at h
    cases h
  | some i =>
    by_cases hterm : i.isTerminator = true
    · rw [translateInstr, hi] at h
      cases i with
      | branch target =>
        simp only [List.mem_append, List.mem_singleton, bind_notMem_moves, reduceCtorEq,
          or_false] at h
      | condBranch cond b₁ b₂ =>
        dsimp only [translateCondBranch] at h
        split_ifs at h
        · split at h
          · exact bind_mem_edges ((List.mem_cons.mp h).resolve_left (by simp))
          · cases h
        · exact bind_mem_edges ((List.mem_cons.mp h).resolve_left (by simp))
      | ret value => cases List.mem_singleton.mp h
      | _ => cases hterm
    · rw [Bool.not_eq_true] at hterm
      by_cases hconst : i.isConst = true
      · rw [translateInstr, hi] at h
        have himm : ∀ value, .bind label ∉ (t.emitImm64 r value).1 := by
          intro value hmem
          unfold Translator.emitImm64 at hmem
          cases hreg : t.regMap (.instr r) with
          | none =>
            rw [hreg] at hmem
            cases List.mem_singleton.mp hmem
          | some reg =>
            rw [hreg] at hmem
            cases hmem
        cases i with
        | constInt ty value => exact absurd h (himm _)
        | constBool value => exact absurd h (himm _)
        | _ => cases hconst
      · by_cases hdefer : (i.isCompare && d r b) = true
        · rw [Bool.and_eq_true] at hdefer
          rw [translateInstr_deferred hi hdefer.1 hdefer.2] at h
          cases h
        · rw [translateInstr_eq ht hi hterm (by simpa using hconst)
            fun hcmp => by simpa [hcmp] using hdefer] at h
          cases (lowerInstr_shape h).1

lemma bind_mem_translateInstrs {refs : List Nat} (ht : Tracks P fn W t)
    (h : .bind label ∈ (translateInstrs P fn d b refs t).1) : ∃ r ∈ refs, label = .trueEdge r := by
  induction refs generalizing t W with
  | nil => cases h
  | cons r rest ih =>
    rcases List.mem_append.mp h with h | h
    · exact ⟨r, List.mem_cons_self, bind_mem_translateInstr ht.toPhisMapped h⟩
    · obtain ⟨r', hr', heq⟩ := ih (translateInstr_tracks ht) h
      exact ⟨r', List.mem_cons_of_mem r hr', heq⟩

lemma bind_mem_translateBlocks {first : Nat} {blks : List BasicBlock} (ht : Tracks P fn W t)
    (h : .bind label ∈ (translateBlocks P fn d first blks t).1) :
    (∃ k, first ≤ k ∧ k < first + blks.length ∧ label = .block k) ∨
      ∃ blk ∈ blks, ∃ r ∈ blk.instructions, label = .trueEdge r := by
  induction blks generalizing first t W with
  | nil => cases h
  | cons blk rest ih =>
    rcases List.mem_append.mp h with h | h
    · rcases List.mem_cons.mp h with h | h
      · exact .inl ⟨first, Nat.le_refl _, by simp, VInstr.bind.inj h⟩
      · obtain ⟨r, hr, heq⟩ := bind_mem_translateInstrs ht h
        exact .inr ⟨blk, List.mem_cons_self, r, hr, heq⟩
    · have hblk : Tracks P fn _ (translateBlock P fn d t first blk).2 :=
        translateInstrs_tracks blk.instructions ht
      rcases ih hblk h with ⟨k, hle, hlt, heq⟩ | ⟨blk', hblk', r, hr, heq⟩
      · exact .inl ⟨k, by omega, by rw [List.length_cons]; omega, heq⟩
      · exact .inr ⟨blk', List.mem_cons_of_mem blk hblk', r, hr, heq⟩

/-! ### Places in the code -/

lemma before_nil : before P fn b [] = afterBlocks P fn b := rfl

lemma before_concat : before P fn b (pre ++ [r]) =
    (translateInstr P fn (canDeferComparison P fn) (before P fn b pre) r b).2 := by
  unfold before
  rw [translateInstrs_append]
  rfl

lemma before_tracks : Tracks P fn
    (fun x => WrittenIn P (canDeferComparison P fn) 0 (fn.blocks.take b) x ∨
      (x ∈ pre ∧ Writes P (canDeferComparison P fn) b x)) (before P fn b pre) :=
  translateInstrs_tracks pre (afterBlocks_tracks b)

lemma afterBlocks_succ (hb : b < fn.blocks.length) :
    afterBlocks P fn (b + 1) = before P fn b (fn.instructionsAt b) := by
  have hblk : fn.blocks[b]? = some fn.blocks[b] := List.getElem?_eq_getElem hb
  unfold before afterBlocks
  rw [List.take_add_one, hblk, Option.toList_some, translateBlocks_append, IRFunction.instructionsAt,
    hblk, List.length_take_of_le hb.le, Nat.zero_add]
  rfl

/-- Behind its label stands the code of a block. -/
lemma codeFrom_eq (hb : b < fn.blocks.length) :
    codeFrom P fn b = .bind (.block b) :: codeBehind P fn b [] (fn.instructionsAt b) := by
  have hblk : fn.blocks[b]? = some fn.blocks[b] := List.getElem?_eq_getElem hb
  have hinstrs : fn.instructionsAt b = fn.blocks[b].instructions := by
    rw [IRFunction.instructionsAt, hblk]
  unfold codeFrom codeBehind
  rw [List.drop_eq_getElem_cons hb, codeFrom, afterBlocks_succ hb, hinstrs]
  rfl

lemma codeBehind_cons : codeBehind P fn b pre (r :: post) =
    (translateInstr P fn (canDeferComparison P fn) (before P fn b pre) r b).1 ++
      codeBehind P fn b (pre ++ [r]) post := by
  unfold codeBehind
  rw [before_concat, ← List.append_assoc]
  rfl

/-- The code up to a place. -/
lemma translateFunction_split (hb : b < fn.blocks.length) (hsplit : fn.instructionsAt b = pre ++ post) :
    translateFunction P fn =
      (translateBlocks P fn (canDeferComparison P fn) 0 (fn.blocks.take b) (findPhis P fn)).1 ++
        .bind (.block b) :: ((translateInstrs P fn (canDeferComparison P fn) b pre
          (afterBlocks P fn b)).1 ++ codeBehind P fn b pre post) := by
  have hwhole : translateFunction P fn =
      (translateBlocks P fn (canDeferComparison P fn) 0 (fn.blocks.take b) (findPhis P fn)).1 ++
        codeFrom P fn b := by
    have hlen : 0 + (fn.blocks.take b).length = b := by
      rw [List.length_take_of_le hb.le, Nat.zero_add]
    conv_lhs => rw [translateFunction, translateFunctionWith, ← List.take_append_drop b fn.blocks]
    rw [translateBlocks_append, hlen]
    rfl
  rw [hwhole, codeFrom_eq hb, hsplit]
  unfold codeBehind
  rw [before_nil, translateInstrs_append, List.append_assoc]
  rfl

lemma afterLabel_block (hb : b < fn.blocks.length) :
    Target.afterLabel (translateFunction P fn) (.block b) =
      some (codeBehind P fn b [] (fn.instructionsAt b)) := by
  rw [translateFunction_split hb (List.nil_append _).symm, afterLabel_append_right]
  · rw [Target.afterLabel, if_pos rfl]
    rfl
  · intro h
    rcases bind_mem_translateBlocks findPhis_tracks h with ⟨k, -, hlt, heq⟩ | ⟨-, -, r, -, heq⟩
    · rw [List.length_take_of_le hb.le, Label.block.inj heq] at hlt
      omega
    · cases heq

/-- The code of a true edge. -/
lemma afterLabel_trueEdge (hnodup : fn.refs.Nodup) (hb : b < fn.blocks.length)
    (hsplit : fn.instructionsAt b = pre ++ r :: post) (code code' : List VInstr)
    (hcode : (translateInstr P fn (canDeferComparison P fn) (before P fn b pre) r b).1 =
      code ++ .bind (.trueEdge r) :: code') (hfree : .bind (.trueEdge r) ∉ code) :
    Target.afterLabel (translateFunction P fn) (.trueEdge r) =
      some (code' ++ codeBehind P fn b (pre ++ [r]) post) := by
  have hr : r ∈ fn.instructionsAt b := by simp [hsplit]
  have hpre : r ∉ pre := by
    have hblock := instructionsAt_nodup hnodup b
    rw [hsplit, List.nodup_append] at hblock
    exact fun hmem => hblock.2.2 r hmem r List.mem_cons_self rfl
  rw [translateFunction_split hb hsplit, codeBehind_cons, hcode, afterLabel_append_right,
    Target.afterLabel, if_neg (by simp), afterLabel_append_right, List.append_assoc,
    afterLabel_append_right hfree, List.cons_append, Target.afterLabel, if_pos rfl]
  · intro h
    obtain ⟨r', hr', heq⟩ := bind_mem_translateInstrs (afterBlocks_tracks b) h
    rw [Label.trueEdge.inj heq] at hpre
    exact hpre hr'
  · intro h
    rcases bind_mem_translateBlocks findPhis_tracks h with ⟨k, -, -, heq⟩ | ⟨blk, hblk, r', hr', heq⟩
    · cases heq
    · obtain ⟨k, hk⟩ := List.mem_iff_getElem?.mp hblk
      rw [List.getElem?_take] at hk
      split_ifs at hk with hlt
      have hmem : r' ∈ fn.instructionsAt k := mem_instructionsAt.mpr ⟨blk, hk, hr'⟩
      rw [← Label.trueEdge.inj heq] at hmem
      exact absurd (instructionsAt_unique hnodup hmem hr) (by omega)

end

end Proofs

end TidyTuples
