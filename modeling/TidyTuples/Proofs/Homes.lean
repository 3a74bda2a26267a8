import TidyTuples.Proofs.Lowering

/-!
# The registers of definitions

A definition leaves its value in one register, its home. An operand is read from there unless the
translator meets it before the definition.
-/

namespace TidyTuples

/-- The register in which an operand's definition leaves it. -/
def home (P : IRProgram) : IRValueRef → VReg
  | .instr r => if P.isPhiAt r then .phi r else .result r
  | x => .requested x

/-- The operands that an instruction reads from registers, the moves on an edge apart. -/
def IRProgram.readsAt (P : IRProgram) (r : Nat) : List IRValueRef :=
  match P.instrAt r with
  | some (.condBranch cond _ _) => [cond]
  | some i => registerReads P i
  | none => []

namespace Translator

/-- The translator behind the first `n` blocks. -/
def afterBlocks (P : IRProgram) (fn : IRFunction) (n : Nat) : Translator :=
  (translateBlocks P fn (canDeferComparison P fn) 0 (fn.blocks.take n) (findPhis P fn)).2

end Translator

namespace Proofs

open Translator IRProgram

section

variable {P : IRProgram} {fn : IRFunction} {t : Translator} {b r ref src : Nat} {i : Instr}
  {x : IRValueRef} {W : Nat → Prop}

lemma mem_refs {k : Nat} {blk : BasicBlock} (hblk : fn.blocks[k]? = some blk)
    (hr : ref ∈ blk.instructions) : ref ∈ fn.refs :=
  List.mem_flatMap.mpr ⟨blk, List.mem_of_getElem? hblk, hr⟩

lemma mem_instructionsAt : r ∈ fn.instructionsAt b ↔
    ∃ blk, fn.blocks[b]? = some blk ∧ r ∈ blk.instructions := by
  unfold IRFunction.instructionsAt
  cases fn.blocks[b]? <;> simp

lemma mem_refs_of_mem (h : r ∈ fn.instructionsAt b) : r ∈ fn.refs := by
  obtain ⟨blk, hblk, hr⟩ := mem_instructionsAt.mp h
  exact mem_refs hblk hr

lemma mem_refs_iff : r ∈ fn.refs ↔ ∃ b, r ∈ fn.instructionsAt b := by
  constructor
  · intro hr
    obtain ⟨blk, hblk, hr⟩ := List.mem_flatMap.mp hr
    obtain ⟨b, hb⟩ := List.mem_iff_getElem?.mp hblk
    exact ⟨b, mem_instructionsAt.mpr ⟨blk, hb, hr⟩⟩
  · rintro ⟨b, hr⟩
    exact mem_refs_of_mem hr

lemma instructionsAt_unique (hwf : fn.refs.Nodup) {b' : Nat} (h : r ∈ fn.instructionsAt b)
    (h' : r ∈ fn.instructionsAt b') : b = b' := by
  have hpair := (List.nodup_flatMap.mp hwf).2
  obtain ⟨blk, hblk, h⟩ := mem_instructionsAt.mp h
  obtain ⟨blk', hblk', h'⟩ := mem_instructionsAt.mp h'
  obtain ⟨hlt, rfl⟩ := List.getElem?_eq_some_iff.mp hblk
  obtain ⟨hlt', rfl⟩ := List.getElem?_eq_some_iff.mp hblk'
  by_contra hne
  rcases Nat.lt_or_gt_of_ne hne with hbb | hbb
  · exact List.pairwise_iff_getElem.mp hpair b b' hlt hlt' hbb h h'
  · exact List.pairwise_iff_getElem.mp hpair b' b hlt' hlt hbb h' h

lemma instructionsAt_nodup (hwf : fn.refs.Nodup) (b : Nat) : (fn.instructionsAt b).Nodup := by
  unfold IRFunction.instructionsAt
  cases hblk : fn.blocks[b]? with
  | none => exact List.nodup_nil
  | some blk => exact (List.nodup_flatMap.mp hwf).1 blk (List.mem_of_getElem? hblk)

/-- Two instructions with the same operand are two uses. -/
lemma two_le_count {refs : List Nat} {uses : Nat → List IRValueRef} {r₁ r₂ : Nat}
    (h₁ : r₁ ∈ refs) (h₂ : r₂ ∈ refs) (hne : r₁ ≠ r₂) (hx₁ : x ∈ uses r₁) (hx₂ : x ∈ uses r₂) :
    2 ≤ (refs.flatMap uses).count x := by
  induction refs with
  | nil => cases h₁
  | cons r rest ih =>
    rw [List.flatMap_cons, List.count_append]
    have hone : ∀ {r'}, r' ∈ rest → x ∈ uses r' → 1 ≤ (rest.flatMap uses).count x :=
      fun hr' hx => List.one_le_count_iff.mpr (List.mem_flatMap.mpr ⟨_, hr', hx⟩)
    rw [List.mem_cons] at h₁ h₂
    rcases h₁ with rfl | h₁
    · have htwo := hone (h₂.resolve_left hne.symm) hx₂
      have hfirst := List.one_le_count_iff.mpr hx₁
      omega
    · rcases h₂ with rfl | h₂
      · have htwo := hone h₁ hx₁
        have hfirst := List.one_le_count_iff.mpr hx₂
        omega
      · have hboth := ih h₁ h₂
        omega

/-- A deferred comparison is used by the branch that ends its block and by nothing else. -/
lemma canDeferComparison_spec {c blkIdx : Nat} (h : canDeferComparison P fn c blkIdx = true) :
    ∃ blk last b₁ b₂, fn.blocks[blkIdx]? = some blk ∧ blk.instructions.getLast? = some last ∧
      P.instrAt last = some (.condBranch (.instr c) b₁ b₂) ∧
      ∀ r ∈ fn.refs, ∀ i, P.instrAt r = some i → .instr c ∈ i.uses → r = last := by
  unfold canDeferComparison at h
  rw [Bool.and_eq_true, decide_eq_true_iff] at h
  obtain ⟨hcount, h⟩ := h
  cases hblk : fn.blocks[blkIdx]? with
  | none =>
    rw [hblk] at h
    cases h
  | some blk =>
    rw [hblk, Option.bind_some] at h
    cases hlast : blk.instructions.getLast? with
    | none =>
      rw [hlast] at h
      cases h
    | some last =>
      rw [hlast] at h
      dsimp only at h
      split at h
      · rename_i cond b₁ b₂ hcond
        rw [decide_eq_true_iff] at h
        subst h
        refine ⟨blk, last, b₁, b₂, rfl, hlast, hcond, ?_⟩
        intro r hr i hi huse
        by_contra hne
        have huse₁ : .instr c ∈ P.usesAt r := by rwa [IRProgram.usesAt, hi]
        have huse₂ : .instr c ∈ P.usesAt last := by
          rw [IRProgram.usesAt, hcond]
          exact List.mem_singleton_self _
        have htwo := two_le_count hr (mem_refs hblk (List.mem_of_getLast? hlast)) hne huse₁ huse₂
        have hall : allUses P fn = fn.refs.flatMap P.usesAt := (List.flatMap_assoc ..).symm
        rw [useCount, hall] at hcount
        omega
      · cases h

lemma usesAt_of_compare {c : Nat} {op : Opcode} {ty : IRType} {a₁ a₂ : IRValueRef}
    (hrecord : P.instrAt c = some (.binary op ty a₁ a₂)) (hop : op.isComparison = true) :
    P.usesAt c = [a₁, a₂] := by
  rw [IRProgram.usesAt, hrecord]
  exact if_pos (Opcode.isBinary_of_isComparison hop)

lemma constIntValue_of_isConst {r : Nat} {i : Instr} (hi : P.instrAt r = some i)
    (hconst : i.isConst = true) : ∃ w, P.constIntValue (.instr r) = some w := by
  cases i with
  | constInt ty value => exact ⟨value, IRProgram.constIntValue_constInt hi⟩
  | constBool value => exact ⟨_, IRProgram.constIntValue_constBool hi⟩
  | _ => cases hconst

lemma constIntValue_of_isPhiAt {r : Nat} (h : P.isPhiAt r = true) :
    P.constIntValue (.instr r) = none := by
  unfold IRProgram.isPhiAt at h
  cases hi : P.instrAt r with
  | none =>
    rw [hi] at h
    cases h
  | some i =>
    rw [hi] at h
    exact IRProgram.constIntValue_runTime hi (by cases i <;> first | rfl | cases h)

lemma leadingPhis_eq {instructions : List Nat} (h : P.WellFormedBlock instructions) :
    leadingPhis P instructions = P.phisOf instructions := h.phisFirst

lemma phiRegs_of_mem (hmem : ref ∈ fn.refs) (hphi : P.isPhiAt ref = true) :
    (findPhis P fn).phiRegs (.instr ref) = some (.phi ref) := by
  apply if_pos
  obtain ⟨blk, hblk, hr⟩ := List.mem_flatMap.mp hmem
  exact List.mem_flatMap.mpr ⟨blk, hblk, List.mem_filter.mpr ⟨hr, hphi⟩⟩

lemma regMap_after : (after P t r i).regMap x =
    if x = .instr r ∧ i.writesResult = true then some (.result r)
    else if x ∈ registerReads P i then some (t.regOf x) else t.regMap x := by
  unfold after
  cases i.writesResult with
  | false =>
    rw [if_neg Bool.false_ne_true, if_neg (by simp), regMap_requestAll]
  | true =>
    rw [if_pos rfl, regMap_assign, Function.update_apply, regMap_requestAll]
    simp only [and_true]

lemma regOf_after (hx : x ≠ .instr r) : (after P t r i).regOf x = t.regOf x := by
  unfold Translator.regOf
  rw [regMap_after, if_neg fun h => hx h.1]
  split_ifs
  · rfl
  · rfl

lemma deferredCmps_after : (after P t r i).deferredCmps = t.deferredCmps := by
  unfold after
  split_ifs
  · exact deferredCmps_requestAll _
  · exact deferredCmps_requestAll _

lemma Tracks.home_or_requested {W : Nat → Prop} (h : Tracks P fn W t) {reg : VReg}
    (hreg : t.regMap x = some reg) : reg = home P x ∨ reg = .requested x := by
  rcases h.range x reg hreg with hr | hr | ⟨r, rfl, rfl, hW⟩
  · exact .inr hr
  · rw [h.phiRegs] at hr
    obtain ⟨r, i, rfl, rfl, hi, hphi⟩ := phiRegs_eq_some hr
    refine .inl (if_pos ?_).symm
    rw [IRProgram.isPhiAt, hi]
    exact hphi
  · obtain ⟨i, hi, hphi, -⟩ := h.written r hW
    refine .inl (if_neg ?_).symm
    rw [IRProgram.isPhiAt, hi]
    exact ne_true_of_eq_false hphi

lemma regOf_cases (h : Tracks P fn W t) (x : IRValueRef) :
    t.regOf x = home P x ∨ t.regOf x = .requested x := by
  unfold Translator.regOf
  cases hreg : t.regMap x with
  | none => exact .inr rfl
  | some reg => exact h.home_or_requested hreg

lemma eq_instr_of_regOf (h : Tracks P fn W t) {c : Nat} (hx : t.regOf x = .result c) :
    x = .instr c := by
  rcases regOf_cases h x with hr | hr
  · rw [hr] at hx
    cases x with
    | instr r =>
      change (if P.isPhiAt r then VReg.phi r else .result r) = _ at hx
      split_ifs at hx
      rw [VReg.result.inj hx]
    | null => cases hx
    | param f k => cases hx
  · rw [hr] at hx
    cases hx

lemma regOf_ne_argument (h : Tracks P fn W t) (r k : Nat) : t.regOf x ≠ .argument r k := by
  intro hx
  rcases regOf_cases h x with hr | hr
  · rw [hr] at hx
    cases x with
    | instr r' =>
      change (if P.isPhiAt r' then VReg.phi r' else .result r') = _ at hx
      split_ifs at hx
    | null => cases hx
    | param f k => cases hx
  · rw [hr] at hx
    cases hx

/-- Where the move of a PHI takes its value from. -/
def phiSource (P : IRProgram) (t : Translator) (src ref : Nat) : Option (Word ⊕ VReg) :=
  match P.incoming src ref with
  | none => none
  | some x =>
    if x = .null then none
    else
      match P.constIntValue x with
      | some value => some (.inl value)
      | none => (t.regMap x).map .inr

lemma phiMove_eq (h : t.phiRegs (.instr ref) = some (.phi ref)) :
    phiMove P t src ref = match phiSource P t src ref with
      | none => []
      | some (.inl value) => [.movImm (.phi ref) value]
      | some (.inr reg) => [.mov (.phi ref) reg] := by
  unfold phiMove phiSource
  rw [h]
  cases P.incoming src ref with
  | none => rfl
  | some x =>
    dsimp only
    split_ifs
    · rfl
    · cases P.constIntValue x with
      | some value => rfl
      | none => cases t.regMap x <;> rfl

lemma afterBlocks_tracks (n : Nat) : Tracks P fn
    (WrittenIn P (canDeferComparison P fn) 0 (fn.blocks.take n)) (afterBlocks P fn n) :=
  (translateBlocks_tracks 0 _ findPhis_tracks).congr fun _ => or_iff_right id

/-! ### The operands requested so far -/

/-- Registers have been requested for operands among `R` only. -/
structure Requested (P : IRProgram) (R : IRValueRef → Prop) (t : Translator) : Prop where
  regMap : ∀ x, t.regMap x = some (.requested x) → R x
  deferred : ∀ x, t.deferredCmps x = true →
    ∀ op ty a₁ a₂, P.getInstr x = some (.binary op ty a₁ a₂) → R a₁ ∧ R a₂

variable {R R' : IRValueRef → Prop} {d : Nat → Nat → Bool}

lemma findPhis_requested : Requested P (fun _ => False) (findPhis P fn) := by
  constructor
  · intro x hx
    have hphi : (findPhis P fn).phiRegs x = some (.requested x) := hx
    obtain ⟨_, _, _, hreg, -⟩ := phiRegs_eq_some hphi
    cases hreg
  · intro x hx
    cases hx

lemma Requested.mono (h : Requested P R t) (hR : ∀ x, R x → R' x) : Requested P R' t :=
  ⟨fun x hx => hR x (h.regMap x hx), fun x hx op ty a₁ a₂ hi =>
    (h.deferred x hx op ty a₁ a₂ hi).imp (hR a₁) (hR a₂)⟩

lemma Requested.requestAll (h : Requested P R t) {refs : List IRValueRef} (hrefs : ∀ x ∈ refs, R x) :
    Requested P R (t.requestAll refs) := by
  constructor
  · intro x hx
    rw [regMap_requestAll] at hx
    split_ifs at hx with hmem
    · exact hrefs x hmem
    · exact h.regMap x hx
  · rw [deferredCmps_requestAll]
    exact h.deferred

lemma Requested.assign (h : Requested P R t) (r : Nat) :
    Requested P R (t.assign (.instr r) (.result r)) := by
  constructor
  · intro x hx
    rw [regMap_assign, Function.update_apply] at hx
    split_ifs at hx
    · cases hx
    · exact h.regMap x hx
  · exact h.deferred

lemma Requested.after (h : Requested P R t) (hR : ∀ x ∈ registerReads P i, R x) :
    Requested P R (after P t r i) := by
  unfold Proofs.after
  split_ifs
  · exact (h.requestAll hR).assign r
  · exact h.requestAll hR

lemma Requested.setDeferred (h : Requested P R t) (flag : Bool)
    (hR : flag = true → ∀ op ty a₁ a₂, P.getInstr x = some (.binary op ty a₁ a₂) → R a₁ ∧ R a₂) :
    Requested P R (t.setDeferred x flag) := by
  constructor
  · exact h.regMap
  · intro y hy
    change Function.update t.deferredCmps x flag y = true at hy
    rw [Function.update_apply] at hy
    split_ifs at hy with hyx
    · rw [hyx]
      exact hR hy
    · exact h.deferred y hy

/-- An instruction requests registers for what it reads. -/
lemma translateInstr_requested (h : Requested P R t) (ht : PhisMapped P fn t) :
    Requested P (fun x => R x ∨ x ∈ P.readsAt r) (translateInstr P fn d t r b).2 := by
  have hmono := h.mono fun x hx => (Or.inl hx : R x ∨ x ∈ P.readsAt r)
  cases hi : P.instrAt r with
  | none =>
    unfold translateInstr
    rw [hi]
    exact hmono
  | some i =>
    cases hterm : i.isTerminator with
    | true =>
      unfold translateInstr
      rw [hi]
      cases i with
      | branch target => exact hmono
      | ret value => exact hmono
      | condBranch cond b₁ b₂ =>
        have hcond : cond ∈ P.readsAt r := by
          rw [IRProgram.readsAt, hi]
          exact List.mem_singleton_self cond
        dsimp only
        unfold translateCondBranch
        split_ifs with hdefer
        · split
          · rename_i op ty a₁ a₂ hrecord
            obtain ⟨-, -, hab⟩ := getValue_pair ht a₁ a₂
            obtain ⟨h₁, h₂⟩ := hmono.deferred cond hdefer op ty a₁ a₂ hrecord
            dsimp only
            rw [hab]
            refine (hmono.requestAll fun x hx => ?_).setDeferred false fun hno => nomatch hno
            rw [List.mem_cons, List.mem_singleton] at hx
            rcases hx with rfl | rfl
            · exact h₁
            · exact h₂
          · exact hmono
        · rw [getValue_eq ht]
          have hall : ∀ x ∈ [cond], R x ∨ x ∈ P.readsAt r := by
            intro x hx
            rw [List.mem_singleton.mp hx]
            exact .inr hcond
          exact hmono.requestAll hall
      | _ => cases hterm
    | false =>
      have hreads : P.readsAt r = registerReads P i := by
        rw [IRProgram.readsAt, hi]
        cases i <;> first | rfl | cases hterm
      cases hconst : i.isConst with
      | true =>
        unfold translateInstr
        rw [hi]
        cases i with
        | constInt ty value | constBool value =>
          dsimp only
          unfold Translator.emitImm64
          cases t.regMap (.instr r) with
          | none => exact hmono.assign r
          | some reg => exact hmono
        | _ => cases hconst
      | false =>
        by_cases hdefer : i.isCompare = true ∧ d r b = true
        · rw [translateInstr_deferred hi hdefer.1 hdefer.2]
          refine hmono.setDeferred true fun _ op ty a₁ a₂ hrecord => ?_
          have heq : i = .binary op ty a₁ a₂ := Option.some.inj (hi.symm.trans hrecord)
          subst heq
          have hread : registerReads P (.binary op ty a₁ a₂) = [a₁, a₂] := by
            cases op <;> first | rfl | cases hdefer.1
          rw [hreads, hread]
          exact ⟨.inr List.mem_cons_self, .inr (List.mem_cons_of_mem _ List.mem_cons_self)⟩
        · have hno : i.isCompare = true → d r b = false := fun hcmp =>
            Bool.eq_false_iff.mpr fun hdr => hdefer ⟨hcmp, hdr⟩
          rw [translateInstr_eq ht hi hterm hconst hno]
          apply hmono.after
          intro x hx
          rw [hreads]
          exact .inr hx

lemma translateInstrs_requested (refs : List Nat) (h : Requested P R t) (ht : Tracks P fn W t) :
    Requested P (fun x => R x ∨ ∃ r ∈ refs, x ∈ P.readsAt r)
      (translateInstrs P fn d b refs t).2 := by
  induction refs generalizing t R W with
  | nil => exact h.mono fun x => .inl
  | cons r rest ih =>
    refine (ih (translateInstr_requested h ht.toPhisMapped) (translateInstr_tracks ht)).mono ?_
    rintro x ((hx | hx) | ⟨r', hr', hx⟩)
    · exact .inl hx
    · exact .inr ⟨r, List.mem_cons_self, hx⟩
    · exact .inr ⟨r', List.mem_cons_of_mem r hr', hx⟩

lemma translateBlocks_requested (first : Nat) (blks : List BasicBlock) (h : Requested P R t)
    (ht : Tracks P fn W t) :
    Requested P (fun x => R x ∨ ∃ blk ∈ blks, ∃ r ∈ blk.instructions, x ∈ P.readsAt r)
      (translateBlocks P fn d first blks t).2 := by
  induction blks generalizing first t R W with
  | nil => exact h.mono fun x => .inl
  | cons blk rest ih =>
    have hblk : Tracks P fn _ (translateBlock P fn d t first blk).2 :=
      translateInstrs_tracks blk.instructions ht
    refine (ih (first + 1) (translateInstrs_requested blk.instructions h ht) hblk).mono ?_
    rintro x ((hx | hx) | ⟨blk', hblk', hx⟩)
    · exact .inl hx
    · exact .inr ⟨blk, List.mem_cons_self, hx⟩
    · exact .inr ⟨blk', List.mem_cons_of_mem blk hblk', hx⟩

end

end Proofs

end TidyTuples
