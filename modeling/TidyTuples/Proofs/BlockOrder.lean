import TidyTuples.Proofs.Emitted

/-!
# Renumbering the blocks

The blocks of a function get other numbers, all but the entry. The code by the homes is the same up
to the order of its blocks, and so is every run of it.
-/

namespace TidyTuples

/-- Other numbers for the blocks that an instruction names. -/
def Instr.renumber (π : Nat → Nat) : Instr → Instr
  | branch target => branch (π target)
  | condBranch cond trueBlock falseBlock => condBranch cond (π trueBlock) (π falseBlock)
  | phi ty entries => phi ty (entries.map fun entry => (entry.1, π entry.2))
  | i => i

/-- Block `b` has become block `π b`; the entry is the first block still. -/
structure Renumbered (π : Equiv.Perm Nat) (P : IRProgram) (fn : IRFunction) (P' : IRProgram)
    (fn' : IRFunction) : Prop where
  entry : π 0 = 0
  blocks : ∀ b, fn'.blocks[π b]? = fn.blocks[b]?
  records : ∀ r ∈ fn.refs, P'.instrAt r = (P.instrAt r).map (Instr.renumber π)

def Label.renumber (π : Nat → Nat) : Label → Label
  | block b => block (π b)
  | trueEdge r => trueEdge r

def VInstr.renumber (π : Nat → Nat) : VInstr → VInstr
  | bind label => bind (label.renumber π)
  | cmpJumpTrue op a b label => cmpJumpTrue op a b (label.renumber π)
  | testJumpTrue cond label => testJumpTrue cond (label.renumber π)
  | jmp label => jmp (label.renumber π)
  | i => i

def CodeOutcome.renumber {V σ : Type} (π : Nat → Nat) : CodeOutcome V σ → CodeOutcome V σ
  | goto label s => goto (label.renumber π) s
  | returned s => returned s
  | stuck s => stuck s

open Translator IRProgram

/-- The compiled functions run alike from the entry: they reach the same labels with the same
memory, the same calls and stores, and the same registers but for those of fused comparisons. -/
def SameBehaviour {V σ : Type} (M : Target V σ) (π : Equiv.Perm Nat) (P : IRProgram)
    (fn : IRFunction) (P' : IRProgram) (fn' : IRFunction) : Prop :=
  ∀ (fuel : Nat) (s : VState V σ), Proofs.AgreeOutcomeOff
    (fun c => Proofs.Deferred P fn (canDeferComparison P fn) c ∨
      Proofs.Deferred P' fn' (canDeferComparison P' fn') c)
    ((M.runCode (translateFunction P fn) fuel (.block 0) s).renumber π)
    (M.runCode (translateFunction P' fn') fuel (.block 0) s)

section

open Proofs

variable {π : Equiv.Perm Nat} {P P' : IRProgram} {fn fn' : IRFunction} {b r : Nat} {i : Instr}
  {x : IRValueRef}

/-! ### What renumbering leaves as it is -/

@[simp] lemma isPhi_renumber : (i.renumber π).isPhi = i.isPhi := by cases i <;> rfl

@[simp] lemma isTerminator_renumber : (i.renumber π).isTerminator = i.isTerminator := by
  cases i <;> rfl

@[simp] lemma successors_renumber : (i.renumber π).successors = i.successors.map π := by
  cases i <;> rfl

@[simp] lemma uses_renumber : (i.renumber π).uses = i.uses := by
  cases i with
  | phi ty entries => simp [Instr.renumber, Instr.uses]
  | _ => rfl

lemma renumber_of_isStraight {code : List VInstr} (hcode : ∀ v ∈ code, v.isStraight = true) :
    code.map (VInstr.renumber π) = code := by
  rw [List.map_congr_left (g := id), List.map_id]
  intro v hv
  have hstraight := hcode v hv
  cases v <;> first | rfl | cases hstraight

lemma homeEdge_isStraight {src dst : Nat} : ∀ v ∈ homeEdge P fn src dst, v.isStraight = true := by
  intro v hv
  obtain ⟨ref, -, hv⟩ := List.mem_flatMap.mp hv
  unfold homeMove at hv
  cases hx : P.incoming src ref with
  | none =>
    rw [hx] at hv
    cases hv
  | some x =>
    rw [hx] at hv
    dsimp only at hv
    split_ifs at hv
    · cases hv
    · cases hconst : P.constIntValue x with
      | some value =>
        rw [hconst] at hv
        rw [List.mem_singleton.mp hv]
        rfl
      | none =>
        rw [hconst] at hv
        rw [List.mem_singleton.mp hv]
        rfl

namespace Renumbered

variable (h : Renumbered π P fn P' fn')

include h

lemma instructionsAt_eq (b : Nat) : fn'.instructionsAt (π b) = fn.instructionsAt b := by
  unfold IRFunction.instructionsAt
  rw [h.blocks]

lemma instructionsAt_symm (b : Nat) : fn'.instructionsAt b = fn.instructionsAt (π.symm b) := by
  rw [← h.instructionsAt_eq, Equiv.apply_symm_apply]

lemma mem_refs_iff : r ∈ fn'.refs ↔ r ∈ fn.refs := by
  rw [Proofs.mem_refs_iff, Proofs.mem_refs_iff]
  constructor
  · rintro ⟨b, hr⟩
    exact ⟨_, h.instructionsAt_symm b ▸ hr⟩
  · rintro ⟨b, hr⟩
    exact ⟨π b, (h.instructionsAt_eq b).symm ▸ hr⟩

lemma isPhiAt_eq (hr : r ∈ fn.refs) : P'.isPhiAt r = P.isPhiAt r := by
  unfold IRProgram.isPhiAt
  rw [h.records r hr]
  cases P.instrAt r <;> simp

lemma isTerminatorAt_eq (hr : r ∈ fn.refs) : P'.isTerminatorAt r = P.isTerminatorAt r := by
  unfold IRProgram.isTerminatorAt
  rw [h.records r hr]
  cases P.instrAt r <;> simp

lemma usesAt_eq (hr : r ∈ fn.refs) : P'.usesAt r = P.usesAt r := by
  unfold IRProgram.usesAt
  rw [h.records r hr]
  cases P.instrAt r <;> simp

lemma constIntValue_eq (hx : x.IsAmong fn.refs) :
    P'.constIntValue x = P.constIntValue x := by
  cases x with
  | instr r =>
    simp only [IRProgram.constIntValue, IRProgram.getInstr, h.records r hx]
    cases P.instrAt r with
    | none => rfl
    | some i => cases i <;> rfl
  | null => rfl
  | param f k => rfl

lemma home_eq (hx : x.IsAmong fn.refs) : home P' x = home P x := by
  cases x with
  | instr r =>
    change (if P'.isPhiAt r then VReg.phi r else .result r) = if P.isPhiAt r then .phi r else .result r
    rw [h.isPhiAt_eq hx]
  | null => rfl
  | param f k => rfl

lemma blockSuccessors_eq (src : Nat) :
    P'.blockSuccessors fn' (π src) = (P.blockSuccessors fn src).map π := by
  unfold IRProgram.blockSuccessors
  rw [h.blocks]
  cases hblk : fn.blocks[src]? with
  | none => rfl
  | some blk =>
    dsimp only
    cases hlast : blk.instructions.getLast? with
    | none => rfl
    | some ref =>
      dsimp only
      rw [h.records ref (Proofs.mem_refs hblk (List.mem_of_getLast? hlast))]
      cases P.instrAt ref <;> simp

lemma phisOf_eq (b : Nat) :
    P'.phisOf (fn'.instructionsAt (π b)) = P.phisOf (fn.instructionsAt b) := by
  rw [h.instructionsAt_eq]
  apply List.filter_congr
  intro r hr
  exact h.isPhiAt_eq (mem_refs_of_mem hr)

lemma phiEntries_eq (hr : r ∈ fn.refs) :
    P'.phiEntries r = (P.phiEntries r).map fun entry => (entry.1, π entry.2) := by
  unfold IRProgram.phiEntries
  rw [h.records r hr]
  cases P.instrAt r with
  | none => rfl
  | some i => cases i <;> rfl

lemma incoming_eq (hr : r ∈ fn.refs) (src : Nat) :
    P'.incoming (π src) r = P.incoming src r := by
  unfold IRProgram.incoming
  rw [h.records r hr]
  cases P.instrAt r with
  | none => rfl
  | some i =>
    cases i with
    | phi ty entries =>
      have hsame : (fun entry : IRValueRef × Nat => entry.2 == π src) ∘
          (fun entry : IRValueRef × Nat => (entry.1, π entry.2)) = fun entry => entry.2 == src := by
        funext entry
        exact Bool.eq_iff_iff.mpr (by simp)
      change Option.map Prod.fst (List.find? _ (entries.map _)) = _
      rw [List.find?_map, hsame, Option.map_map]
      rfl
    | _ => rfl

lemma lt_length_iff : π b < fn'.blocks.length ↔ b < fn.blocks.length := by
  rw [← not_le, ← not_le, ← List.getElem?_eq_none_iff, ← List.getElem?_eq_none_iff, h.blocks]

/-! ### Well-formed functions stay well-formed -/

lemma nodup_refs (hnodup : fn.refs.Nodup) : fn'.refs.Nodup := by
  unfold IRFunction.refs
  rw [List.nodup_flatMap]
  constructor
  · intro blk hblk
    obtain ⟨b, hb⟩ := List.mem_iff_getElem?.mp hblk
    have hinstrs : fn'.instructionsAt b = blk.instructions := by rw [IRFunction.instructionsAt, hb]
    rw [← hinstrs, h.instructionsAt_symm]
    exact instructionsAt_nodup hnodup _
  · rw [List.pairwise_iff_getElem]
    intro b b' hb hb' hlt r hr hr'
    have hmem : r ∈ fn'.instructionsAt b :=
      mem_instructionsAt.mpr ⟨_, List.getElem?_eq_getElem hb, hr⟩
    have hmem' : r ∈ fn'.instructionsAt b' :=
      mem_instructionsAt.mpr ⟨_, List.getElem?_eq_getElem hb', hr'⟩
    rw [h.instructionsAt_symm] at hmem hmem'
    have heq := π.symm.injective (instructionsAt_unique hnodup hmem hmem')
    exact absurd heq (Nat.ne_of_lt hlt)

lemma wellFormedBlock {instructions : List Nat} (hmem : ∀ r ∈ instructions, r ∈ fn.refs)
    (hwf : P.WellFormedBlock instructions) : P'.WellFormedBlock instructions := by
  have htake : ∀ l : List Nat, (∀ r ∈ l, r ∈ fn.refs) →
      l.takeWhile P'.isPhiAt = l.takeWhile P.isPhiAt := by
    intro l hl
    induction l with
    | nil => rfl
    | cons r rest ih =>
      rw [List.takeWhile_cons, List.takeWhile_cons, h.isPhiAt_eq (hl r List.mem_cons_self),
        ih fun r' hr' => hl r' (List.mem_cons_of_mem r hr')]
  constructor
  · rw [htake instructions hmem, hwf.phisFirst]
    exact (List.filter_congr fun r hr => h.isPhiAt_eq (hmem r hr)).symm
  · rw [← hwf.ended]
    cases hlast : instructions.getLast? with
    | none => rfl
    | some last =>
      rw [Option.map_some, Option.map_some, h.isTerminatorAt_eq (hmem last (List.mem_of_getLast? hlast))]
  · intro r hr
    rw [h.isTerminatorAt_eq (hmem r (List.mem_of_mem_dropLast hr))]
    exact hwf.body r hr
  · refine hwf.ordered.imp_of_mem fun {r r'} hr hr' hrr' => ?_
    rw [h.isPhiAt_eq (hmem r hr), h.usesAt_eq (hmem r hr)]
    exact hrr'

lemma wellFormedPhi (hr : r ∈ P.phisOf (fn.instructionsAt b))
    (hphi : P.WellFormedPhi fn b r) : P'.WellFormedPhi fn' (π b) r := by
  have hmem : r ∈ fn.refs := mem_refs_of_mem (List.mem_of_mem_filter hr)
  have hsources : (P'.phiEntries r).map Prod.snd = ((P.phiEntries r).map Prod.snd).map π := by
    rw [h.phiEntries_eq hmem, List.map_map, List.map_map]
    rfl
  constructor
  · rw [hsources]
    exact hphi.nodup.map π.injective
  · intro entry hentry
    rw [h.phiEntries_eq hmem] at hentry
    obtain ⟨entry', hentry', rfl⟩ := List.mem_map.mp hentry
    exact hphi.values entry' hentry'
  · intro entry hentry
    rw [h.phiEntries_eq hmem] at hentry
    obtain ⟨entry', hentry', rfl⟩ := List.mem_map.mp hentry
    dsimp only
    rw [h.blockSuccessors_eq]
    exact List.mem_map_of_mem (hphi.sources entry' hentry')
  · intro src hsrc hedge
    rw [← π.apply_symm_apply src] at hsrc hedge ⊢
    rw [h.lt_length_iff] at hsrc
    rw [h.blockSuccessors_eq] at hedge
    obtain ⟨b', hb', heq⟩ := List.mem_map.mp hedge
    rw [π.injective heq] at hb'
    rw [hsources]
    exact List.mem_map_of_mem (hphi.complete _ hsrc hb')

lemma wellFormedSSA (hwf : P.WellFormedSSA fn) : P'.WellFormedSSA fn' := by
  constructor
  · exact h.nodup_refs hwf.nodup
  · intro r hr x hx
    rw [h.mem_refs_iff] at hr
    rw [h.usesAt_eq hr] at hx
    have hamong := hwf.operands r hr x hx
    cases x with
    | instr c => exact h.mem_refs_iff.mpr hamong
    | null => trivial
    | param f k => trivial
  · intro blk hblk
    obtain ⟨b, hb⟩ := List.mem_iff_getElem?.mp hblk
    rw [← π.apply_symm_apply b, h.blocks] at hb
    exact h.wellFormedBlock (fun r hr => mem_refs hb hr) (hwf.blocks blk (List.mem_of_getElem? hb))
  · intro b hb r hr
    rw [← π.apply_symm_apply b] at hb hr ⊢
    rw [h.lt_length_iff] at hb
    rw [h.phisOf_eq] at hr
    exact h.wellFormedPhi hr (hwf.phis _ hb r hr)

/-! ### The code of a block -/

lemma homeEdge_eq (hwf : P.WellFormedSSA fn) (src dst : Nat) :
    homeEdge P' fn' (π src) (π dst) = homeEdge P fn src dst := by
  unfold homeEdge
  rw [h.phisOf_eq]
  apply List.flatMap_congr
  intro ref href
  have hmem : ref ∈ fn.refs := mem_refs_of_mem (List.mem_of_mem_filter href)
  unfold homeMove
  rw [h.incoming_eq hmem]
  cases hx : P.incoming src ref with
  | none => rfl
  | some x =>
    have hamong : x.IsAmong fn.refs := by
      unfold IRProgram.incoming at hx
      split at hx
      · rename_i ty entries hi
        obtain ⟨entry, hentry, rfl⟩ := Option.map_eq_some_iff.mp hx
        apply hwf.operands ref hmem
        rw [IRProgram.usesAt, hi]
        exact List.mem_map_of_mem (List.mem_of_find?_eq_some hentry)
      · cases hx
    dsimp only
    rw [h.constIntValue_eq hamong, h.home_eq hamong]

lemma lowerInstr_eq (hwf : P.WellFormedSSA fn) (hr : r ∈ fn.refs) (hi : P.instrAt r = some i) :
    lowerInstr P' (home P') r i = lowerInstr P (home P) r i := by
  have hamong : ∀ x ∈ i.uses, x.IsAmong fn.refs := by
    intro x hx
    apply hwf.operands r hr
    rwa [IRProgram.usesAt, hi]
  rw [lowerInstr_congr fun x hx => h.home_eq (hamong x (registerReads_subset x hx))]
  cases i with
  | call ty callee args =>
    have hconst : ∀ arg ∈ args.zipIdx 0, P'.constIntValue arg.1 = P.constIntValue arg.1 := by
      intro arg harg
      exact h.constIntValue_eq (hamong _ ((List.mem_zipIdx' harg).2 ▸ List.getElem_mem _))
    have hcode : argumentCode P' r 0 args = argumentCode P r 0 args := by
      apply List.filterMap_congr
      intro arg harg
      dsimp only
      rw [hconst arg harg]
    have hregs : ∀ arg ∈ args.zipIdx 0,
        argumentReg P' (home P) r arg.2 arg.1 = argumentReg P (home P) r arg.2 arg.1 := by
      intro arg harg
      unfold argumentReg
      rw [hconst arg harg]
    unfold lowerInstr
    dsimp only
    rw [hcode, List.map_congr_left hregs]
  | _ => rfl

lemma homeInstr_eq (hwf : P.WellFormedSSA fn) (hr : r ∈ fn.refs) (b : Nat) :
    homeInstr P' fn' (π b) r = (homeInstr P fn b r).map (VInstr.renumber π) := by
  have hedge : ∀ dst, homeEdge P' fn' (π b) (π dst) =
      (homeEdge P fn b dst).map (VInstr.renumber π) := by
    intro dst
    rw [h.homeEdge_eq hwf, renumber_of_isStraight homeEdge_isStraight]
  unfold homeInstr
  rw [h.records r hr]
  cases hi : P.instrAt r with
  | none => rfl
  | some i =>
    have hlower : lowerInstr P' (home P') r i =
        (lowerInstr P (home P) r i).map (VInstr.renumber π) := by
      rw [h.lowerInstr_eq hwf hr hi, renumber_of_isStraight fun v hv => (lowerInstr_shape hv).1]
    cases i with
    | branch target =>
      change homeEdge P' fn' (π b) (π target) ++ [.jmp (.block (π target))] = _
      rw [hedge, List.map_append]
      rfl
    | condBranch cond b₁ b₂ =>
      have hcond : home P' cond = home P cond := by
        apply h.home_eq
        apply hwf.operands r hr
        rw [IRProgram.usesAt, hi]
        exact List.mem_singleton_self cond
      change VInstr.testJumpTrue (home P' cond) (.trueEdge r) ::
        (homeEdge P' fn' (π b) (π b₂) ++ [.jmp (.block (π b₂))] ++ [.bind (.trueEdge r)] ++
          homeEdge P' fn' (π b) (π b₁) ++ [.jmp (.block (π b₁))]) = _
      rw [hedge, hedge, hcond]
      simp only [List.map_cons, List.map_append, List.map_nil]
      rfl
    | ret value => rfl
    | phi ty entries => rfl
    | _ => exact hlower

lemma homeBlock_eq (hwf : P.WellFormedSSA fn) (b : Nat) :
    homeBlock P' fn' (π b) = (homeBlock P fn b).map (VInstr.renumber π) := by
  unfold homeBlock
  rw [h.instructionsAt_eq, List.map_cons, List.map_flatMap]
  congr 1
  apply List.flatMap_congr
  intro r hr
  exact h.homeInstr_eq hwf (mem_refs_of_mem hr) b

end Renumbered

/-! ### Finding a label -/

namespace Proofs

variable {code code' rest : List VInstr} {label : Label}

lemma afterLabel_eq_none : Target.afterLabel code label = none ↔ .bind label ∉ code := by
  induction code with
  | nil => simp [Target.afterLabel]
  | cons v code ih =>
    unfold Target.afterLabel
    by_cases hv : v = .bind label
    · simp [hv]
    · rw [if_neg hv, ih, List.mem_cons, not_or]
      exact (and_iff_right (Ne.symm hv)).symm

lemma afterLabel_append_right (h : .bind label ∉ code) :
    Target.afterLabel (code ++ code') label = Target.afterLabel code' label := by
  induction code with
  | nil => rfl
  | cons v code ih =>
    rw [List.mem_cons, not_or] at h
    rw [List.cons_append, Target.afterLabel, if_neg (Ne.symm h.1), ih h.2]

lemma afterLabel_append_left (h : Target.afterLabel code label = some rest) :
    Target.afterLabel (code ++ code') label = some (rest ++ code') := by
  induction code with
  | nil => cases h
  | cons v code ih =>
    unfold Target.afterLabel at h
    rw [List.cons_append, Target.afterLabel]
    split_ifs at h ⊢
    · rw [Option.some.inj h]
    · exact ih h

lemma afterLabel_split (h : Target.afterLabel code label = some rest) :
    ∃ before, code = before ++ .bind label :: rest := by
  induction code with
  | nil => cases h
  | cons v code ih =>
    unfold Target.afterLabel at h
    split_ifs at h with hv
    · exact ⟨[], by rw [hv, Option.some.inj h, List.nil_append]⟩
    · obtain ⟨before, hbefore⟩ := ih h
      exact ⟨v :: before, by rw [hbefore, List.cons_append]⟩

lemma label_renumber_injective : Function.Injective (Label.renumber π) := by
  intro l l' heq
  cases l <;> cases l' <;> simp_all [Label.renumber]

lemma renumber_eq_bind {v : VInstr} : v.renumber π = .bind (label.renumber π) ↔ v = .bind label := by
  cases v with
  | bind l =>
    change VInstr.bind (l.renumber π) = _ ↔ _
    rw [VInstr.bind.injEq, VInstr.bind.injEq, label_renumber_injective.eq_iff]
  | _ =>
    constructor
    · intro heq
      cases heq
    · intro heq
      cases heq

lemma bind_mem_renumber : .bind (label.renumber π) ∈ code.map (VInstr.renumber π) ↔
    .bind label ∈ code := by
  rw [List.mem_map]
  constructor
  · rintro ⟨v, hv, heq⟩
    rwa [renumber_eq_bind.mp heq] at hv
  · exact fun h => ⟨_, h, rfl⟩

lemma afterLabel_renumber : Target.afterLabel (code.map (VInstr.renumber π)) (label.renumber π) =
    (Target.afterLabel code label).map (List.map (VInstr.renumber π)) := by
  induction code with
  | nil => rfl
  | cons v code ih =>
    rw [List.map_cons, Target.afterLabel, Target.afterLabel]
    by_cases hv : v = .bind label
    · rw [if_pos hv, if_pos (renumber_eq_bind.mpr hv)]
      rfl
    · rw [if_neg hv, if_neg fun heq => hv (renumber_eq_bind.mp heq), ih]

/-- The code ends with a jump or with a return. -/
def EndsInJump (code : List VInstr) : Prop :=
  ∃ body last, code = body ++ [last] ∧ (last = .ret ∨ ∃ l, last = .jmp l)

/-- What follows a jump does not matter. -/
lemma execCode_append {V σ : Type} {M : Target V σ} (h : EndsInJump code) (s : VState V σ) :
    M.execCode (code ++ code') s = M.execCode code s := by
  obtain ⟨body, last, rfl, hlast⟩ := h
  rw [List.append_assoc, List.singleton_append]
  induction body generalizing s with
  | nil => rcases hlast with rfl | ⟨l, rfl⟩ <;> rfl
  | cons v body ih =>
    rw [List.cons_append, List.cons_append]
    cases v with
    | jmp l => rfl
    | ret => rfl
    | cmpJumpTrue op a b l =>
      unfold Target.execCode
      dsimp only
      rw [ih]
    | testJumpTrue cond l =>
      unfold Target.execCode
      dsimp only
      rw [ih]
    | bind l => exact ih s
    | _ =>
      rw [execCode_cons (.inl rfl), execCode_cons (.inl rfl)]
      split
      · rfl
      · exact ih _

lemma execVInstr_renumber {V σ : Type} {M : Target V σ} (v : VInstr) (s : VState V σ) :
    M.execVInstr (v.renumber π) s = M.execVInstr v s := by
  cases v <;> rfl

lemma execCode_renumber {V σ : Type} {M : Target V σ} (code : List VInstr) (s : VState V σ) :
    M.execCode (code.map (VInstr.renumber π)) s = (M.execCode code s).renumber π := by
  induction code generalizing s with
  | nil => rfl
  | cons v code ih =>
    rw [List.map_cons]
    cases v with
    | jmp l => rfl
    | ret => rfl
    | cmpJumpTrue op a b l =>
      change (if M.compare op (s.regs a) (s.regs b) then CodeOutcome.goto (l.renumber π) s
        else M.execCode (code.map (VInstr.renumber π)) s) = CodeOutcome.renumber π
          (if M.compare op (s.regs a) (s.regs b) then .goto l s else M.execCode code s)
      rw [ih]
      split_ifs <;> rfl
    | testJumpTrue cond l =>
      change (if M.truthy (s.regs cond) then CodeOutcome.goto (l.renumber π) s
        else M.execCode (code.map (VInstr.renumber π)) s) = CodeOutcome.renumber π
          (if M.truthy (s.regs cond) then .goto l s else M.execCode code s)
      rw [ih]
      split_ifs <;> rfl
    | bind l => exact ih s
    | _ =>
      rw [execCode_cons (.inl rfl), execCode_cons (.inl rfl), execVInstr_renumber]
      split
      · rfl
      · exact ih _

/-! ### Runs of the code by the homes -/

lemma homeEdge_noBind {src dst : Nat} : .bind label ∉ homeEdge P fn src dst := by
  intro h
  cases homeEdge_isStraight _ h

/-- The labels that an instruction binds. -/
lemma mem_homeInstr_bind (h : .bind label ∈ homeInstr P fn b r) : label = .trueEdge r := by
  have hlower : ∀ i, .bind label ∉ lowerInstr P (home P) r i := by
    intro i hmem
    cases (lowerInstr_shape hmem).1
  unfold homeInstr at h
  cases hi : P.instrAt r with
  | none =>
    rw [hi] at h
    cases h
  | some i =>
    rw [hi] at h
    cases i with
    | branch target =>
      rcases List.mem_append.mp h with h | h
      · exact absurd h homeEdge_noBind
      · cases List.mem_singleton.mp h
    | ret value => cases List.mem_singleton.mp h
    | condBranch cond b₁ b₂ =>
      simp only [List.mem_cons, List.mem_append, List.not_mem_nil, or_false, homeEdge_noBind,
        false_or, VInstr.bind.injEq, reduceCtorEq] at h
      exact h
    | _ => exact absurd h (hlower _)

lemma mem_homeBlock_bind (h : .bind label ∈ homeBlock P fn b) :
    label = .block b ∨ ∃ r ∈ fn.instructionsAt b, label = .trueEdge r := by
  rcases List.mem_cons.mp h with h | h
  · exact .inl (VInstr.bind.inj h)
  · obtain ⟨r, hr, h⟩ := List.mem_flatMap.mp h
    exact .inr ⟨r, hr, mem_homeInstr_bind h⟩

/-- No label is bound in two blocks. -/
lemma bind_unique (hnodup : fn.refs.Nodup) {b' : Nat} (h : .bind label ∈ homeBlock P fn b)
    (h' : .bind label ∈ homeBlock P fn b') : b = b' := by
  rcases mem_homeBlock_bind h with rfl | ⟨r, hr, rfl⟩
  · rcases mem_homeBlock_bind h' with heq | ⟨r', -, heq⟩
    · exact Label.block.inj heq
    · cases heq
  · rcases mem_homeBlock_bind h' with heq | ⟨r', hr', heq⟩
    · cases heq
    · rw [← Label.trueEdge.inj heq] at hr'
      exact instructionsAt_unique hnodup hr hr'

lemma homeBlock_endsInJump (hwf : P.WellFormedSSA fn) (hb : b < fn.blocks.length) :
    EndsInJump (homeBlock P fn b) := by
  have hblk : fn.blocks[b]? = some fn.blocks[b] := List.getElem?_eq_getElem hb
  have hinstrs : fn.instructionsAt b = fn.blocks[b].instructions := by
    rw [IRFunction.instructionsAt, hblk]
  have hended := (hwf.blocks _ (List.mem_of_getElem? hblk)).ended
  rw [← hinstrs] at hended
  cases hlast : (fn.instructionsAt b).getLast? with
  | none =>
    rw [hlast] at hended
    cases hended
  | some last =>
    have hsplit := (List.dropLast_append_getLast? last hlast).symm
    rw [hlast, Option.map_some, Option.some_inj, IRProgram.isTerminatorAt] at hended
    have hend : EndsInJump (homeInstr P fn b last) := by
      unfold homeInstr
      cases hi : P.instrAt last with
      | none =>
        rw [hi] at hended
        cases hended
      | some i =>
        rw [hi] at hended
        cases i with
        | branch target => exact ⟨_, _, rfl, .inr ⟨_, rfl⟩⟩
        | condBranch cond b₁ b₂ => exact ⟨_ :: _, _, rfl, .inr ⟨_, rfl⟩⟩
        | ret value => exact ⟨[], _, rfl, .inl rfl⟩
        | _ => cases hended
    obtain ⟨body, v, hbody, hv⟩ := hend
    refine ⟨.bind (.block b) :: ((fn.instructionsAt b).dropLast.flatMap (homeInstr P fn b) ++ body),
      v, ?_, hv⟩
    unfold homeBlock
    rw [List.cons_append, List.append_assoc, ← hbody]
    conv_lhs => rw [hsplit, List.flatMap_append, List.flatMap_singleton]

lemma EndsInJump.afterLabel (h : EndsInJump code) (hrest : Target.afterLabel code label = some rest) :
    EndsInJump rest := by
  obtain ⟨body, last, rfl, hlast⟩ := h
  obtain ⟨before, hsplit⟩ := afterLabel_split hrest
  rcases List.eq_nil_or_concat rest with rfl | ⟨init, v, rfl⟩
  · have heq := (List.append_inj' hsplit rfl).2
    rw [(List.cons.inj heq).1] at hlast
    rcases hlast with h | ⟨l, h⟩ <;> cases h
  · rw [List.concat_eq_append] at hsplit ⊢
    rw [← List.cons_append, ← List.append_assoc] at hsplit
    have heq := (List.append_inj' hsplit rfl).2
    exact ⟨init, v, rfl, (List.cons.inj heq).1 ▸ hlast⟩

/-- Where a run goes on at a label. -/
lemma afterLabel_homeCode (hwf : P.WellFormedSSA fn) (hb : b < fn.blocks.length)
    (h : .bind label ∈ homeBlock P fn b) : ∃ rest more, EndsInJump rest ∧
      Target.afterLabel (homeBlock P fn b) label = some rest ∧
      Target.afterLabel (homeCode P fn) label = some (rest ++ more) := by
  cases hrest : Target.afterLabel (homeBlock P fn b) label with
  | none => exact absurd h (afterLabel_eq_none.mp hrest)
  | some rest =>
    obtain ⟨pre, post, hrange⟩ := List.append_of_mem (List.mem_range.mpr hb)
    have hbefore : .bind label ∉ pre.flatMap (homeBlock P fn) := by
      intro hmem
      obtain ⟨b', hb', hmem⟩ := List.mem_flatMap.mp hmem
      have hnodup := List.nodup_range (n := fn.blocks.length)
      rw [hrange, List.nodup_append] at hnodup
      exact hnodup.2.2 b' hb' b List.mem_cons_self (bind_unique hwf.nodup hmem h)
    refine ⟨rest, post.flatMap (homeBlock P fn), (homeBlock_endsInJump hwf hb).afterLabel hrest, rfl, ?_⟩
    unfold homeCode
    rw [hrange, List.flatMap_append, List.flatMap_cons, afterLabel_append_right hbefore]
    exact afterLabel_append_left hrest

/-- Both codes run alike. -/
theorem runCode_homeCode {V σ : Type} (M : Target V σ) (h : Renumbered π P fn P' fn')
    (hwf : P.WellFormedSSA fn) (fuel : Nat) (label : Label) (s : VState V σ) :
    M.runCode (homeCode P' fn') fuel (label.renumber π) s =
      (M.runCode (homeCode P fn) fuel label s).renumber π := by
  have hwf' := h.wellFormedSSA hwf
  induction fuel generalizing label s with
  | zero => rfl
  | succ fuel ih =>
    by_cases hbound : ∃ b < fn.blocks.length, .bind label ∈ homeBlock P fn b
    · obtain ⟨b, hb, hmem⟩ := hbound
      have hmem' : .bind (label.renumber π) ∈ homeBlock P' fn' (π b) := by
        rw [h.homeBlock_eq hwf]
        exact bind_mem_renumber.mpr hmem
      obtain ⟨rest, more, hends, hblock, hcode⟩ := afterLabel_homeCode hwf hb hmem
      obtain ⟨rest', more', hends', hblock', hcode'⟩ :=
        afterLabel_homeCode hwf' (h.lt_length_iff.mpr hb) hmem'
      rw [h.homeBlock_eq hwf, afterLabel_renumber, hblock] at hblock'
      obtain rfl := Option.some.inj hblock'
      unfold Target.runCode
      rw [hcode, hcode']
      dsimp only
      rw [execCode_append hends, execCode_append hends', execCode_renumber]
      cases M.execCode rest s with
      | goto next s => exact ih next s
      | returned s => rfl
      | stuck s => rfl
    · have hnone : Target.afterLabel (homeCode P fn) label = none := by
        rw [afterLabel_eq_none]
        intro hmem
        obtain ⟨b, hb, hmem⟩ := List.mem_flatMap.mp hmem
        exact hbound ⟨b, List.mem_range.mp hb, hmem⟩
      have hnone' : Target.afterLabel (homeCode P' fn') (label.renumber π) = none := by
        rw [afterLabel_eq_none]
        intro hmem
        obtain ⟨b, hb, hmem⟩ := List.mem_flatMap.mp hmem
        rw [List.mem_range] at hb
        rw [← π.apply_symm_apply b] at hb hmem
        rw [h.homeBlock_eq hwf, bind_mem_renumber] at hmem
        exact hbound ⟨_, h.lt_length_iff.mp hb, hmem⟩
      unfold Target.runCode
      rw [hnone, hnone']
      rfl

lemma AgreeOutcomeOff.renumber {V σ : Type} {D : Nat → Prop} {o o' : CodeOutcome V σ}
    (h : AgreeOutcomeOff D o o') : AgreeOutcomeOff D (o.renumber π) (o'.renumber π) := by
  cases h with
  | goto label h => exact .goto _ h
  | returned h => exact .returned h
  | stuck h => exact .stuck h

theorem sameBehaviour_of_inOrder {V σ : Type} (M : Target V σ) (h : Renumbered π P fn P' fn')
    (hwf : P.WellFormedSSA fn) (horder : InOrder P fn) (horder' : InOrder P' fn') :
    SameBehaviour M π P fn P' fn' := by
  intro fuel s
  have hwf' := h.wellFormedSSA hwf
  have hfirst := deferral_sound M hwf (fun _ _ hd => hd) fuel (.block 0) s
  have hsecond := deferral_sound M hwf' (fun _ _ hd => hd) fuel (.block 0) s
  have hrun := runCode_homeCode M h hwf fuel (.block 0) s
  have hentry : Label.renumber π (.block 0) = .block 0 := congrArg Label.block h.entry
  rw [translateFunction_home hwf horder] at hfirst
  rw [translateFunction_home hwf' horder'] at hsecond
  rw [hentry] at hrun
  rw [hrun] at hsecond
  exact hfirst.renumber.trans hsecond (fun _ => .inl) fun _ => .inr

/-- Renumbering the blocks changes no run, and the codes refer to the registers of the definitions,
exactly if in both orders every definition is emitted before what reads it. -/
theorem blockOrder_iff {V σ : Type} (M : Target V σ) (h : Renumbered π P fn P' fn')
    (hwf : P.WellFormedSSA fn) :
    (SameBehaviour M π P fn P' fn' ∧ RefersToDefinitions P fn ∧ RefersToDefinitions P' fn') ↔
      InOrder P fn ∧ InOrder P' fn' := by
  rw [refersToDefinitions_iff hwf, refersToDefinitions_iff (h.wellFormedSSA hwf)]
  constructor
  · exact fun ⟨_, hboth⟩ => hboth
  · exact fun hboth => ⟨sameBehaviour_of_inOrder M h hwf hboth.1 hboth.2, hboth⟩

/-- Two branches that join in a PHI. -/
def joinProgram : IRProgram where
  instrData := [(134, .ret .null), (108, .call .void .matchCount [.instr 84]),
    (84, .phi .int64 [(.instr 44, 1), (.instr 64, 2)]), (76, .branch 3),
    (64, .binary .sub .int64 (.instr 16) (.instr 16)), (56, .branch 3),
    (44, .binary .add .int64 (.instr 16) (.instr 16)), (28, .condBranch (.instr 16) 1 2),
    (16, .binary .add .int64 (.instr 0) (.instr 0)), (0, .constInt .int64 7)]

def joinFunction : IRFunction where
  name := "join"
  returnType := .void
  paramNames := []
  paramTypes := []
  blocks := [⟨"entry", [0, 16, 28]⟩, ⟨"left", [44, 56]⟩, ⟨"right", [64, 76]⟩,
    ⟨"end", [84, 108, 134]⟩]
  paramRefs := []

/-- A program and a function with the blocks 1 and 2 exchanged. -/
def exchangedProgram (P : IRProgram) : IRProgram :=
  { P with instrData := P.instrData.map fun record =>
      (record.1, record.2.renumber (Equiv.swap 1 2)) }

def exchangedFunction (fn : IRFunction) : IRFunction :=
  { fn with blocks := match fn.blocks with
      | entry :: first :: second :: rest => entry :: second :: first :: rest
      | blks => blks }

lemma renumbered_exchanged (hlen : 3 ≤ fn.blocks.length) :
    Renumbered (Equiv.swap 1 2) P fn (exchangedProgram P) (exchangedFunction fn) := by
  constructor
  · rfl
  · intro b
    unfold exchangedFunction
    match hblks : fn.blocks, hlen with
    | entry :: first :: second :: rest, _ =>
      match b with
      | 0 => rfl
      | 1 => rfl
      | 2 => rfl
      | b + 3 =>
        rw [Equiv.swap_apply_of_ne_of_ne (by omega) (by omega)]
        rfl
  · intro r _
    unfold IRProgram.instrAt exchangedProgram
    induction P.instrData with
    | nil => rfl
    | cons record rest ih =>
      obtain ⟨offset, i⟩ := record
      rw [List.map_cons, List.lookup_cons, List.lookup_cons]
      cases r == offset with
      | true => rfl
      | false => exact ih

theorem blockOrder_iff_join :
    (SameBehaviour Arch.x86.target (Equiv.swap 1 2) joinProgram joinFunction
        (exchangedProgram joinProgram) (exchangedFunction joinFunction) ∧
      RefersToDefinitions joinProgram joinFunction ∧
      RefersToDefinitions (exchangedProgram joinProgram) (exchangedFunction joinFunction)) ↔
      InOrder joinProgram joinFunction ∧
        InOrder (exchangedProgram joinProgram) (exchangedFunction joinFunction) :=
  blockOrder_iff Arch.x86.target (renumbered_exchanged (by decide)) (by decide)

/-- A value that is computed in one block and used in the next. -/
def laterProgram : IRProgram where
  instrData := [(72, .ret .null), (44, .call .void .matchCount [.instr 24]), (36, .branch 2),
    (24, .binary .add .int64 (.instr 0) (.instr 0)), (16, .branch 1), (0, .constInt .int64 7)]

def laterFunction : IRFunction where
  name := "later"
  returnType := .void
  paramNames := []
  paramTypes := []
  blocks := [⟨"entry", [0, 16]⟩, ⟨"compute", [24, 36]⟩, ⟨"use", [44, 72]⟩]
  paramRefs := []

/-- The calls and stores of a run. -/
def CodeTrace {V σ : Type} : CodeOutcome V σ → List (Event V)
  | .goto _ s => s.trace
  | .returned s => s.trace
  | .stuck s => s.trace

lemma AgreeOutcomeOff.trace {V σ : Type} {D : Nat → Prop} {o o' : CodeOutcome V σ}
    (h : AgreeOutcomeOff D o o') : CodeTrace o = CodeTrace o' := by
  cases h with
  | goto label h => exact h.trace
  | returned h => exact h.trace
  | stuck h => exact h.trace

theorem sameBehaviour_later : ¬ ∀ (π : Equiv.Perm Nat) (P P' : IRProgram) (fn fn' : IRFunction),
    P.WellFormedSSA fn → Renumbered π P fn P' fn' → SameBehaviour Arch.x86.target π P fn P' fn' := by
  intro h
  have hsame := h (Equiv.swap 1 2) laterProgram (exchangedProgram laterProgram) laterFunction
    (exchangedFunction laterFunction) (by decide) (renumbered_exchanged (by decide)) 4
    ⟨fun _ => .word 0, emptyHeap, []⟩
  exact absurd hsame.trace (by decide)

end Proofs

end

end TidyTuples
