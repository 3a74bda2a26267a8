import TidyTuples.Proofs.Fusion
import Mathlib.Data.List.TakeWhile

/-!
# Translating with and without deferred comparisons

The two translators keep the same registers but for the deferred comparisons themselves. While one
waits for its branch its operands may have been requested by the second translator only.
-/

namespace TidyTuples.Proofs

open Translator IRProgram

section

variable (P : IRProgram) (fn : IRFunction) (d : Nat → Nat → Bool)

/-- The comparison waits for the branch of its block. -/
def Deferred (c : Nat) : Prop := ∃ b, c ∈ fn.instructionsAt b ∧ d c b = true ∧
  ∃ i, P.instrAt c = some i ∧ i.isCompare = true

def IsDeferred (x : IRValueRef) : Prop := ∃ c, x = .instr c ∧ Deferred P fn d c

/-- The comparison `q` of block `b` waits in `t` and has its register in `t'`. -/
structure Waits (b : Nat) (t t' : Translator) (q : Pending) : Prop where
  mem : q.ref ∈ fn.instructionsAt b
  defers : d q.ref b = true
  record : ∃ ty a₁ a₂, P.instrAt q.ref = some (.binary q.op ty a₁ a₂) ∧
    q.op.isComparison = true ∧ q.a = t.regOf a₁ ∧ q.b = t.regOf a₂
  result : t'.regMap (.instr q.ref) = some (.result q.ref)
  requested : ∀ x ∈ P.usesAt q.ref, t'.regMap x = some (t'.regOf x)

/-- The translators with and without deferral in block `b`. -/
structure Twin (b : Nat) (p : Option Pending) (t t' : Translator) : Prop where
  known : ∃ W, Tracks P fn W t
  known' : ∃ W, Tracks P fn W t'
  deferred : ∀ x, t.deferredCmps x = true ↔ ∃ q, p = some q ∧ x = .instr q.ref
  deferred' : ∀ x, t'.deferredCmps x = false
  pending : ∀ q, p = some q → Waits P fn d b t t' q
  regs : ∀ x, ¬ IsDeferred P fn d x → t.regMap x = t'.regMap x ∨
    (t.regMap x = none ∧ t'.regMap x = some (.requested x) ∧
      ∃ q, p = some q ∧ x ∈ P.usesAt q.ref)

end

section

variable {P : IRProgram} {fn : IRFunction} {d : Nat → Nat → Bool} {b r : Nat} {i : Instr}
  {p : Option Pending} {q : Pending} {t t' : Translator} {x : IRValueRef} {W : Nat → Prop}

/-- A deferred comparison is used by the branch of its block only. -/
lemma Deferred.user (hd : ∀ c b, d c b = true → canDeferComparison P fn c b = true) {c : Nat}
    (hc : Deferred P fn d c) (hr : r ∈ fn.refs) (huse : .instr c ∈ P.usesAt r) :
    ∃ b b₁ b₂, c ∈ fn.instructionsAt b ∧ d c b = true ∧
      (fn.instructionsAt b).getLast? = some r ∧
      P.instrAt r = some (.condBranch (.instr c) b₁ b₂) := by
  obtain ⟨b, hmem, hdefer, -⟩ := hc
  obtain ⟨blk, last, b₁, b₂, hblk, hlast, hrecord, honly⟩ := canDeferComparison_spec (hd c b hdefer)
  have heq : r = last := by
    unfold IRProgram.usesAt at huse
    cases hi : P.instrAt r with
    | none =>
      rw [hi] at huse
      cases huse
    | some i =>
      rw [hi] at huse
      exact honly r hr i hi huse
  subst heq
  exact ⟨b, b₁, b₂, hmem, hdefer, by rw [IRFunction.instructionsAt, hblk]; exact hlast, hrecord⟩

/-- No other instruction reads it. -/
lemma not_isDeferred (hd : ∀ c b, d c b = true → canDeferComparison P fn c b = true)
    (hr : r ∈ fn.refs) (hi : P.instrAt r = some i) (hterm : i.isTerminator = false)
    (hx : x ∈ i.uses) : ¬ IsDeferred P fn d x := by
  rintro ⟨c, rfl, hc⟩
  obtain ⟨b, b₁, b₂, -, -, -, hrecord⟩ := hc.user hd hr (by rwa [IRProgram.usesAt, hi])
  rw [hi] at hrecord
  cases hrecord
  cases hterm

lemma Twin.regOf_eq (h : Twin P fn d b p t t') (hx : ¬ IsDeferred P fn d x) :
    t.regOf x = t'.regOf x := by
  unfold Translator.regOf
  rcases h.regs x hx with heq | ⟨hnone, hsome, -⟩
  · rw [heq]
  · rw [hnone, hsome]
    rfl

/-- The current instruction is none that the pending comparison reads. -/
def Apart (P : IRProgram) (p : Option Pending) (r : Nat) : Prop :=
  ∀ q, p = some q → q.ref ≠ r ∧ .instr r ∉ P.usesAt q.ref

lemma Waits.after (h : Waits P fn d b t t' q) (hne : q.ref ≠ r) (huse : .instr r ∉ P.usesAt q.ref) :
    Waits P fn d b (after P t r i) (after P t' r i) q := by
  obtain ⟨ty, a₁, a₂, hrecord, hop, ha, hb⟩ := h.record
  have huse' := huse
  rw [usesAt_of_compare hrecord hop] at huse
  constructor
  · exact h.mem
  · exact h.defers
  · refine ⟨ty, a₁, a₂, hrecord, hop, ?_, ?_⟩
    · rw [ha, regOf_after]
      rintro rfl
      exact huse List.mem_cons_self
    · rw [hb, regOf_after]
      rintro rfl
      exact huse (List.mem_cons_of_mem _ List.mem_cons_self)
  · have hne' : (.instr q.ref : IRValueRef) ≠ .instr r := fun heq => hne (IRValueRef.instr.inj heq)
    rw [regMap_after, if_neg fun heq => hne' heq.1, regOf_of_some h.result, h.result]
    exact ite_self _
  · intro x hx
    have hxr : x ≠ .instr r := fun heq => huse' (heq ▸ hx)
    rw [regOf_after hxr, regMap_after, if_neg fun heq => hxr heq.1, h.requested x hx]
    exact ite_self _

/-- Both translators handle an instruction alike that is no constant and not deferred. -/
lemma Twin.after (h : Twin P fn d b p t t') (hi : P.instrAt r = some i) (hapart : Apart P p r) :
    Twin P fn d b p (after P t r i) (after P t' r i) := by
  constructor
  · obtain ⟨W, hW⟩ := h.known
    exact ⟨_, hW.after hi⟩
  · obtain ⟨W, hW⟩ := h.known'
    exact ⟨_, hW.after hi⟩
  · rw [deferredCmps_after]
    exact h.deferred
  · rw [deferredCmps_after]
    exact h.deferred'
  · intro q hq
    exact (h.pending q hq).after (hapart q hq).1 (hapart q hq).2
  · intro x hx
    rw [regMap_after, regMap_after]
    split_ifs with hself hread
    · exact .inl rfl
    · exact .inl (by rw [h.regOf_eq hx])
    · exact h.regs x hx

lemma Twin.lowered (h : Twin P fn d b p t t')
    (hreads : ∀ x ∈ registerReads P i, ¬ IsDeferred P fn d x) (hapart : Apart P p r) :
    FusedCode (Deferred P fn d) p (lowerInstr P t.regOf r i) (lowerInstr P t'.regOf r i) p := by
  obtain ⟨W, hW⟩ := h.known
  rw [← lowerInstr_congr fun x hx => h.regOf_eq (hreads x hx)]
  apply FusedCode.ofSame
  · intro v hv c hc hread
    rcases (lowerInstr_shape hv).2.1 _ hread with ⟨y, hy, heq⟩ | ⟨k, heq⟩
    · exact hreads y hy ⟨c, eq_instr_of_regOf hW heq.symm, hc⟩
    · cases heq
  · intro v hv q hq
    obtain ⟨ty, a₁, a₂, hrecord, hop, ha, hb⟩ := (h.pending q hq).record
    obtain ⟨hne, huse⟩ := hapart q hq
    have huses : ∀ x ∈ [a₁, a₂], t.regOf x ≠ .result r ∧ ∀ k, t.regOf x ≠ .argument r k := by
      intro x hx
      refine ⟨fun hreg => huse ?_, regOf_ne_argument hW r⟩
      rwa [← eq_instr_of_regOf hW hreg, usesAt_of_compare hrecord hop]
    refine ⟨(lowerInstr_shape hv).1, fun w hw => ?_⟩
    rw [ha, hb]
    have h₁ := huses a₁ List.mem_cons_self
    have h₂ := huses a₂ (List.mem_cons_of_mem _ List.mem_cons_self)
    rcases (lowerInstr_shape hv).2.2 w hw with rfl | ⟨k, rfl⟩
    · exact ⟨h₁.1.symm, h₂.1.symm, fun heq => hne (VReg.result.inj heq).symm⟩
    · exact ⟨(h₁.2 k).symm, (h₂.2 k).symm, fun heq => nomatch heq⟩

lemma Twin.assign (h : Twin P fn d b p t t') (hi : P.instrAt r = some i) (hphi : i.isPhi = false)
    (hapart : Apart P p r) : Twin P fn d b p (t.assign (.instr r) (.result r))
      (t'.assign (.instr r) (.result r)) := by
  constructor
  · obtain ⟨W, hW⟩ := h.known
    exact ⟨_, hW.assign hi hphi⟩
  · obtain ⟨W, hW⟩ := h.known'
    exact ⟨_, hW.assign hi hphi⟩
  · exact h.deferred
  · exact h.deferred'
  · intro q hq
    obtain ⟨hne, huse⟩ := hapart q hq
    have hq := h.pending q hq
    obtain ⟨ty, a₁, a₂, hrecord, hop, ha, hb⟩ := hq.record
    have hreg : ∀ x ∈ [a₁, a₂], (t.assign (.instr r) (.result r)).regOf x = t.regOf x := by
      intro x hx
      unfold Translator.regOf
      rw [regMap_assign, Function.update_of_ne]
      rintro rfl
      apply huse
      rwa [usesAt_of_compare hrecord hop]
    constructor
    · exact hq.mem
    · exact hq.defers
    · exact ⟨ty, a₁, a₂, hrecord, hop, by rw [ha, hreg a₁ List.mem_cons_self],
        by rw [hb, hreg a₂ (List.mem_cons_of_mem _ List.mem_cons_self)]⟩
    · rw [regMap_assign, Function.update_of_ne fun heq => hne (IRValueRef.instr.inj heq)]
      exact hq.result
    · intro x hx
      have hxr : x ≠ .instr r := fun heq => huse (heq ▸ hx)
      unfold Translator.regOf
      rw [regMap_assign, Function.update_of_ne hxr, hq.requested x hx]
      rfl
  · intro x hx
    rw [regMap_assign, regMap_assign, Function.update_apply, Function.update_apply]
    split_ifs
    · exact .inl rfl
    · exact h.regs x hx

/-- A constant is materialised in both codes or in none. -/
lemma Twin.emitImm64 (h : Twin P fn d b p t t') (hi : P.instrAt r = some i)
    (hconst : i.isConst = true) (hapart : Apart P p r) (value : Word) :
    FusedCode (Deferred P fn d) p (t.emitImm64 r value).1 (t'.emitImm64 r value).1 p ∧
      Twin P fn d b p (t.emitImm64 r value).2 (t'.emitImm64 r value).2 := by
  have hnot : ¬ IsDeferred P fn d (.instr r) := by
    rintro ⟨c, heq, b', -, -, i', hi', hcmp⟩
    cases heq
    rw [hi] at hi'
    cases hi'
    rw [(Instr.writesResult_of_isConst hconst).2] at hcmp
    cases hcmp
  have hphi : i.isPhi = false := by cases i <;> first | rfl | cases hconst
  have hsame : t.regMap (.instr r) = t'.regMap (.instr r) := by
    rcases h.regs _ hnot with heq | ⟨-, -, q, hq, huse⟩
    · exact heq
    · exact absurd huse (hapart q hq).2
  unfold Translator.emitImm64
  rw [hsame]
  cases t'.regMap (.instr r) with
  | some reg => exact ⟨.nil p, h⟩
  | none =>
    refine ⟨FusedCode.ofSame ?_ ?_, h.assign hi hphi hapart⟩
    · intro v hv c hc hread
      obtain rfl := List.mem_singleton.mp hv
      cases hread
    · intro v hv q hq
      obtain rfl := List.mem_singleton.mp hv
      obtain ⟨W, hW⟩ := h.known
      obtain ⟨ty, a₁, a₂, hrecord, hop, ha, hb⟩ := (h.pending q hq).record
      obtain ⟨hne, huse⟩ := hapart q hq
      have huses : ∀ x ∈ [a₁, a₂], .result r ≠ t.regOf x := by
        intro x hx hreg
        apply huse
        rwa [← eq_instr_of_regOf hW hreg.symm, usesAt_of_compare hrecord hop]
      refine ⟨rfl, fun w hw => ?_⟩
      cases hw
      rw [ha, hb]
      exact ⟨huses a₁ List.mem_cons_self, huses a₂ (List.mem_cons_of_mem _ List.mem_cons_self),
        fun heq => hne (VReg.result.inj heq).symm⟩

/-- An instruction within a block that is not deferred. -/
lemma Twin.body (h : Twin P fn d b p t t')
    (hd : ∀ c b, d c b = true → canDeferComparison P fn c b = true) (hr : r ∈ fn.refs)
    (hi : P.instrAt r = some i) (hterm : i.isTerminator = false)
    (hcmp : i.isCompare = true → d r b = false) (hapart : Apart P p r) :
    FusedCode (Deferred P fn d) p (translateInstr P fn d t r b).1
        (translateInstr P fn (fun _ _ => false) t' r b).1 p ∧
      Twin P fn d b p (translateInstr P fn d t r b).2
        (translateInstr P fn (fun _ _ => false) t' r b).2 := by
  obtain ⟨W, hW⟩ := h.known
  obtain ⟨W', hW'⟩ := h.known'
  cases hconst : i.isConst with
  | true =>
    have hemit : ∃ value, ∀ defer (t : Translator),
        translateInstr P fn defer t r b = t.emitImm64 r value := by
      unfold translateInstr
      rw [hi]
      cases i with
      | constInt ty value => exact ⟨value, fun _ _ => rfl⟩
      | constBool value => exact ⟨_, fun _ _ => rfl⟩
      | _ => cases hconst
    obtain ⟨value, hemit⟩ := hemit
    rw [hemit, hemit]
    exact h.emitImm64 hi hconst hapart value
  | false =>
    have hreads : ∀ x ∈ registerReads P i, ¬ IsDeferred P fn d x := fun x hx =>
      not_isDeferred hd hr hi hterm (registerReads_subset x hx)
    rw [translateInstr_eq hW.toPhisMapped hi hterm hconst hcmp,
      translateInstr_eq hW'.toPhisMapped hi hterm hconst fun _ => rfl]
    exact ⟨h.lowered hreads hapart, h.after hi hapart⟩

/-- A comparison that the first translator defers. -/
lemma Twin.defer (h : Twin P fn d b none t t')
    (hd : ∀ c b, d c b = true → canDeferComparison P fn c b = true) (hr : r ∈ fn.instructionsAt b)
    (hi : P.instrAt r = some i) (hcmp : i.isCompare = true) (hdefer : d r b = true) :
    ∃ q : Pending, q.ref = r ∧
      FusedCode (Deferred P fn d) none (translateInstr P fn d t r b).1
        (translateInstr P fn (fun _ _ => false) t' r b).1 (some q) ∧
      Twin P fn d b (some q) (translateInstr P fn d t r b).2
        (translateInstr P fn (fun _ _ => false) t' r b).2 := by
  obtain ⟨W, hW⟩ := h.known
  obtain ⟨W', hW'⟩ := h.known'
  have hterm : i.isTerminator = false := by cases i <;> first | rfl | cases hcmp
  have hconst : i.isConst = false := by cases i <;> first | rfl | cases hcmp
  have hreads : ∀ x ∈ registerReads P i, ¬ IsDeferred P fn d x := fun x hx =>
    not_isDeferred hd (mem_refs_of_mem hr) hi hterm (registerReads_subset x hx)
  have hdef : Deferred P fn d r := ⟨b, hr, hdefer, i, hi, hcmp⟩
  rw [translateInstr_deferred hi hcmp hdefer,
    translateInstr_eq hW'.toPhisMapped hi hterm hconst fun _ => rfl,
    ← lowerInstr_congr fun x hx => h.regOf_eq (hreads x hx)]
  cases i with
  | binary op ty a₁ a₂ =>
    have hop : op.isComparison = true := hcmp
    have hcode : lowerInstr P t.regOf r (.binary op ty a₁ a₂) =
        [.cmpSet op (.result r) (t.regOf a₁) (t.regOf a₂)] := by
      cases op <;> first | rfl | cases hop
    have hregs : registerReads P (.binary op ty a₁ a₂) = [a₁, a₂] := by
      cases op <;> first | rfl | cases hop
    have hwrites : (Instr.binary op ty a₁ a₂).writesResult = true := by
      cases op <;> first | rfl | cases hop
    have hfree : ∀ x ∈ [a₁, a₂], ∀ c, Deferred P fn d c → t.regOf x ≠ .result c := by
      intro x hx c hc hreg
      exact hreads x (by rwa [hregs]) ⟨c, eq_instr_of_regOf hW hreg, hc⟩
    refine ⟨⟨r, op, t.regOf a₁, t.regOf a₂⟩, rfl, ?_, ?_⟩
    · rw [hcode]
      exact .compare (q := ⟨r, op, t.regOf a₁, t.regOf a₂⟩) hdef (hfree a₁ List.mem_cons_self)
        (hfree a₂ (List.mem_cons_of_mem _ List.mem_cons_self)) (.nil _)
    · constructor
      · exact ⟨W, hW.setDeferred _ true⟩
      · exact ⟨_, hW'.after hi⟩
      · intro x
        change Function.update t.deferredCmps (.instr r) true x = true ↔ _
        rw [Function.update_apply]
        constructor
        · intro hx
          split_ifs at hx with hxr
          · exact ⟨_, rfl, hxr⟩
          · obtain ⟨q, hq, -⟩ := (h.deferred x).mp hx
            cases hq
        · rintro ⟨q, hq, rfl⟩
          cases hq
          rw [if_pos rfl]
      · rw [deferredCmps_after]
        exact h.deferred'
      · intro q hq
        cases hq
        refine ⟨hr, hdefer, ⟨ty, a₁, a₂, hi, hop, rfl, rfl⟩, ?_, fun x hx => ?_⟩
        · rw [regMap_after, if_pos ⟨rfl, hwrites⟩]
        · rw [usesAt_of_compare hi hop, ← hregs] at hx
          have hxr : x ≠ .instr r := fun heq => hreads x hx ⟨r, heq, hdef⟩
          rw [regOf_after hxr, regMap_after, if_neg fun heq => hxr heq.1, if_pos hx]
      · intro x hx
        have hsame := (h.regs x hx).resolve_right fun ⟨_, _, q, hq, _⟩ => nomatch hq
        have hxr : x ≠ .instr r := fun heq => hx ⟨r, heq, hdef⟩
        rw [regMap_after, if_neg fun heq => hxr heq.1]
        change t.regMap x = _ ∨ _
        split_ifs with hread
        · cases hreg : t.regMap x with
          | some reg =>
            rw [hreg] at hsame
            exact .inl (by rw [regOf_of_some hsame.symm])
          | none =>
            refine .inr ⟨hreg, ?_, _, rfl, ?_⟩
            · rw [Translator.regOf, ← hsame, hreg]
              rfl
            · rw [usesAt_of_compare hi hop]
              rwa [hregs] at hread
        · exact .inl hsame
  | _ => cases hcmp

/-! ### The branches -/

lemma not_isDeferred_incoming (hd : ∀ c b, d c b = true → canDeferComparison P fn c b = true)
    {ref : Nat} (href : ref ∈ fn.refs) (hx : P.incoming b ref = some x) :
    ¬ IsDeferred P fn d x := by
  unfold IRProgram.incoming at hx
  split at hx
  · rename_i ty entries hi
    obtain ⟨entry, hentry, rfl⟩ := Option.map_eq_some_iff.mp hx
    exact not_isDeferred hd href hi rfl (List.mem_map_of_mem (List.mem_of_find?_eq_some hentry))
  · cases hx

lemma Twin.phiMove_eq (h : Twin P fn d b none t t')
    (hd : ∀ c b, d c b = true → canDeferComparison P fn c b = true) {ref : Nat}
    (href : ref ∈ fn.refs) : phiMove P t b ref = phiMove P t' b ref := by
  obtain ⟨W, hW⟩ := h.known
  obtain ⟨W', hW'⟩ := h.known'
  unfold phiMove
  rw [hW.phiRegs, hW'.phiRegs]
  cases hx : P.incoming b ref with
  | none => rfl
  | some x =>
    have hnot := not_isDeferred_incoming hd href hx
    dsimp only
    rw [(h.regs x hnot).resolve_right fun ⟨_, _, q, hq, _⟩ => nomatch hq]

lemma Twin.phiMoves (h : Twin P fn d b none t t')
    (hd : ∀ c b, d c b = true → canDeferComparison P fn c b = true) (dst : Nat) :
    FusedCode (Deferred P fn d) none (emitPhiMovesForEdge P fn t b dst)
      (emitPhiMovesForEdge P fn t' b dst) none := by
  obtain ⟨W, hW⟩ := h.known
  unfold emitPhiMovesForEdge
  cases hblk : fn.blocks[dst]? with
  | none => exact .nil none
  | some target =>
    dsimp only
    have hphi : ∀ ref ∈ leadingPhis P target.instructions, ref ∈ fn.refs ∧ P.isPhiAt ref = true := by
      intro ref href
      exact ⟨mem_refs hblk ((List.takeWhile_sublist _).subset href), List.mem_takeWhile_imp href⟩
    have hsame : ∀ ref ∈ leadingPhis P target.instructions,
        phiMove P t b ref = phiMove P t' b ref := fun ref href => h.phiMove_eq hd (hphi ref href).1
    rw [← List.flatMap_congr hsame]
    apply FusedCode.ofSame
    · intro v hv c hc hread
      obtain ⟨ref, href, hv⟩ := List.mem_flatMap.mp hv
      have hreg := phiRegs_of_mem (hphi ref href).1 (hphi ref href).2
      rw [Proofs.phiMove_eq (by rw [hW.phiRegs, hreg])] at hv
      unfold phiSource at hv
      cases hx : P.incoming b ref with
      | none =>
        rw [hx] at hv
        cases hv
      | some x =>
        rw [hx] at hv
        dsimp only at hv
        split_ifs at hv
        · cases hv
        · cases hconst : P.constIntValue x with
          | some value =>
            rw [hconst] at hv
            obtain rfl := List.mem_singleton.mp hv
            cases hread
          | none =>
            rw [hconst] at hv
            cases hmap : t.regMap x with
            | none =>
              rw [hmap] at hv
              cases hv
            | some reg =>
              rw [hmap] at hv
              obtain rfl := List.mem_singleton.mp hv
              have hregc := List.mem_singleton.mp hread
              subst hregc
              exact not_isDeferred_incoming hd (hphi ref href).1 hx
                ⟨c, eq_instr_of_regOf hW (regOf_of_some hmap), hc⟩
    · intro v _ q hq
      cases hq

lemma Twin.edges (h : Twin P fn d b none t t')
    (hd : ∀ c b, d c b = true → canDeferComparison P fn c b = true) (b₁ b₂ : Nat) :
    FusedCode (Deferred P fn d) none (emitEdges P fn t r b₁ b₂ b) (emitEdges P fn t' r b₁ b₂ b)
      none := by
  have hone : ∀ v : VInstr, v.reads = [] → FusedCode (Deferred P fn d) none [v] [v] none := by
    intro v hv
    refine .same (fun c _ hread => ?_) (fun q hq => nomatch hq) (.nil none)
    rw [hv] at hread
    cases hread
  unfold emitEdges
  exact ((((h.phiMoves hd b₂).append (hone _ rfl)).append (hone _ rfl)).append
    (h.phiMoves hd b₁)).append (hone _ rfl)

/-- The branch of a deferred comparison. -/
lemma Twin.fusedBranch {q : Pending} (h : Twin P fn d b (some q) t t')
    (hd : ∀ c b, d c b = true → canDeferComparison P fn c b = true)
    (hlast : (fn.instructionsAt b).getLast? = some r) :
    FusedCode (Deferred P fn d) (some q) (translateInstr P fn d t r b).1
        (translateInstr P fn (fun _ _ => false) t' r b).1 none ∧
      Twin P fn d b none (translateInstr P fn d t r b).2
        (translateInstr P fn (fun _ _ => false) t' r b).2 := by
  obtain ⟨W, hW⟩ := h.known
  obtain ⟨W', hW'⟩ := h.known'
  have hq := h.pending q rfl
  obtain ⟨ty, a₁, a₂, hrecord, hop, ha, hb⟩ := hq.record
  have huses := usesAt_of_compare hrecord hop
  have hdef : Deferred P fn d q.ref := ⟨b, hq.mem, hq.defers, _, hrecord, hop⟩
  obtain ⟨blk, last, b₁, b₂, hblk, hblast, hbranch, -⟩ := canDeferComparison_spec (hd _ _ hq.defers)
  have hr : last = r := by
    rw [IRFunction.instructionsAt, hblk] at hlast
    exact Option.some.inj (hblast.symm.trans hlast)
  subst hr
  obtain ⟨hra, hrb, hab⟩ := getValue_pair hW.toPhisMapped a₁ a₂
  have hcode : translateInstr P fn d t last b =
      (.cmpJumpTrue q.op q.a q.b (.trueEdge last) ::
        emitEdges P fn ((t.requestAll [a₁, a₂]).setDeferred (.instr q.ref) false) last b₁ b₂ b,
        (t.requestAll [a₁, a₂]).setDeferred (.instr q.ref) false) := by
    have hdeferred : t.deferredCmps (.instr q.ref) = true := (h.deferred _).mpr ⟨q, rfl, rfl⟩
    unfold translateInstr
    rw [hbranch]
    dsimp only
    unfold translateCondBranch
    rw [if_pos hdeferred]
    have hget : P.getInstr (.instr q.ref) = _ := hrecord
    rw [hget]
    dsimp only
    rw [hra, hrb, hab, ha, hb]
    rfl
  have hcode' : translateInstr P fn (fun _ _ => false) t' last b =
      (.testJumpTrue (.result q.ref) (.trueEdge last) ::
        emitEdges P fn (t'.requestAll [.instr q.ref]) last b₁ b₂ b,
        t'.requestAll [.instr q.ref]) := by
    unfold translateInstr
    rw [hbranch]
    dsimp only
    unfold translateCondBranch
    rw [if_neg (by rw [h.deferred']; exact Bool.false_ne_true), getValue_eq hW'.toPhisMapped,
      regOf_of_some hq.result]
    rfl
  have htwin : Twin P fn d b none ((t.requestAll [a₁, a₂]).setDeferred (.instr q.ref) false)
      (t'.requestAll [.instr q.ref]) := by
    constructor
    · exact ⟨W, (hW.requestAll _).setDeferred _ false⟩
    · exact ⟨W', hW'.requestAll _⟩
    · intro x
      change Function.update (t.requestAll [a₁, a₂]).deferredCmps (.instr q.ref) false x = true ↔ _
      rw [Function.update_apply, deferredCmps_requestAll]
      constructor
      · intro hx
        split_ifs at hx with hxq
        obtain ⟨q', hq', rfl⟩ := (h.deferred x).mp hx
        cases hq'
        exact absurd rfl hxq
      · rintro ⟨q', hq', -⟩
        cases hq'
    · rw [deferredCmps_requestAll]
      exact h.deferred'
    · intro q' hq'
      cases hq'
    · intro x hx
      have hxq : x ∉ [IRValueRef.instr q.ref] := fun hmem =>
        hx ⟨q.ref, List.mem_singleton.mp hmem, hdef⟩
      left
      change (t.requestAll [a₁, a₂]).regMap x = _
      rw [regMap_requestAll, regMap_requestAll, if_neg hxq]
      split_ifs with hmem
      · rw [hq.requested x (by rwa [huses]), h.regOf_eq hx]
      · refine (h.regs x hx).resolve_right fun hright => hmem ?_
        obtain ⟨-, -, q', hq', huse⟩ := hright
        cases hq'
        rwa [huses] at huse
  rw [hcode, hcode']
  exact ⟨.branch (htwin.edges hd b₁ b₂), htwin⟩

/-- The end of a block without a deferred comparison. -/
lemma Twin.terminator (h : Twin P fn d b none t t')
    (hd : ∀ c b, d c b = true → canDeferComparison P fn c b = true) (hwf : fn.refs.Nodup)
    (hlast : (fn.instructionsAt b).getLast? = some r) (hi : P.instrAt r = some i)
    (hterm : i.isTerminator = true) (hnone : ∀ c ∈ fn.instructionsAt b, d c b = true →
      ∀ j, P.instrAt c = some j → j.isCompare = false) :
    FusedCode (Deferred P fn d) none (translateInstr P fn d t r b).1
        (translateInstr P fn (fun _ _ => false) t' r b).1 none ∧
      Twin P fn d b none (translateInstr P fn d t r b).2
        (translateInstr P fn (fun _ _ => false) t' r b).2 := by
  obtain ⟨W, hW⟩ := h.known
  obtain ⟨W', hW'⟩ := h.known'
  have hr := List.mem_of_getLast? hlast
  have hone : ∀ v : VInstr, (∀ c, Deferred P fn d c → .result c ∉ v.reads) →
      FusedCode (Deferred P fn d) none [v] [v] none := fun v hv =>
    .same hv (fun q hq => nomatch hq) (.nil none)
  unfold translateInstr
  rw [hi]
  cases i with
  | branch target => exact ⟨(h.phiMoves hd target).append
      (hone _ fun c _ hread => nomatch hread), h⟩
  | ret value => exact ⟨hone _ (fun c _ hread => nomatch hread), h⟩
  | condBranch cond b₁ b₂ =>
    have hcond : ¬ IsDeferred P fn d cond := by
      rintro ⟨c, rfl, hc⟩
      obtain ⟨b', -, -, hmem, hdefer, hlast', -⟩ := hc.user hd (mem_refs_of_mem hr)
        (by rw [IRProgram.usesAt, hi]; exact List.mem_singleton_self _)
      obtain rfl := instructionsAt_unique hwf hr (List.mem_of_getLast? hlast')
      obtain ⟨-, -, -, j, hj, hcmp⟩ := hc
      rw [hnone c hmem hdefer j hj] at hcmp
      cases hcmp
    have hfalse : t.deferredCmps cond = false := by
      rw [← Bool.not_eq_true, h.deferred]
      rintro ⟨q, hq, -⟩
      cases hq
    have htwin : Twin P fn d b none (t.requestAll [cond]) (t'.requestAll [cond]) := by
      constructor
      · exact ⟨W, hW.requestAll _⟩
      · exact ⟨W', hW'.requestAll _⟩
      · rw [deferredCmps_requestAll]
        exact h.deferred
      · rw [deferredCmps_requestAll]
        exact h.deferred'
      · intro q hq
        cases hq
      · intro x hx
        rw [regMap_requestAll, regMap_requestAll, h.regOf_eq hx]
        by_cases hmem : x ∈ [cond]
        · rw [if_pos hmem, if_pos hmem]
          exact .inl rfl
        · rw [if_neg hmem, if_neg hmem]
          exact h.regs x hx
    dsimp only
    unfold translateCondBranch
    rw [if_neg (by rw [hfalse]; exact Bool.false_ne_true),
      if_neg (by rw [h.deferred']; exact Bool.false_ne_true), getValue_eq hW.toPhisMapped,
      getValue_eq hW'.toPhisMapped, h.regOf_eq hcond]
    refine ⟨?_, htwin⟩
    refine (hone _ fun c hc hread => ?_).append (htwin.edges hd b₁ b₂)
    have hreg := List.mem_singleton.mp hread
    exact hcond ⟨c, eq_instr_of_regOf hW' hreg.symm, hc⟩
  | _ => cases hterm

/-! ### Blocks and functions -/

/-- Among the instructions `pre` of block `b` the deferred comparison is the one that waits in `p`. -/
structure Met (P : IRProgram) (d : Nat → Nat → Bool) (b : Nat) (pre : List Nat)
    (p : Option Pending) : Prop where
  mem : ∀ q, p = some q → q.ref ∈ pre
  waits : ∀ c ∈ pre, d c b = true → ∀ j, P.instrAt c = some j → j.isCompare = true →
    ∃ q, p = some q ∧ q.ref = c

lemma Met.nil : Met P d b [] none where
  mem _ hq := nomatch hq
  waits _ hc := nomatch hc

lemma Met.skip {pre : List Nat} (h : Met P d b pre p)
    (hno : ∀ j, P.instrAt r = some j → j.isCompare = true → d r b = false) :
    Met P d b (pre ++ [r]) p := by
  refine ⟨fun q hq => List.mem_append_left _ (h.mem q hq), fun c hc hdefer j hj hcmp => ?_⟩
  rcases List.mem_append.mp hc with hc | hc
  · exact h.waits c hc hdefer j hj hcmp
  · obtain rfl := List.mem_singleton.mp hc
    rw [hno j hj hcmp] at hdefer
    cases hdefer

lemma Met.defer {pre : List Nat} {q : Pending} (h : Met P d b pre none) (hq : q.ref = r) :
    Met P d b (pre ++ [r]) (some q) := by
  refine ⟨fun q' hq' => ?_, fun c hc hdc j hj hcmp => ?_⟩
  · cases hq'
    rw [hq]
    exact List.mem_append_right _ (List.mem_singleton_self r)
  · rcases List.mem_append.mp hc with hc | hc
    · obtain ⟨q', hq', -⟩ := h.waits c hc hdc j hj hcmp
      cases hq'
    · exact ⟨q, rfl, by rw [hq, List.mem_singleton.mp hc]⟩

/-- A block has one comparison at most that can be deferred: its branch reads it. -/
lemma deferred_unique (hd : ∀ c b, d c b = true → canDeferComparison P fn c b = true) {c c' : Nat}
    (hc : d c b = true) (hc' : d c' b = true) : c = c' := by
  obtain ⟨blk₁, l₁, _, _, hblk₁, hl₁, hb₁, -⟩ := canDeferComparison_spec (hd _ _ hc)
  obtain ⟨blk₂, l₂, _, _, hblk₂, hl₂, hb₂, -⟩ := canDeferComparison_spec (hd _ _ hc')
  rw [hblk₁] at hblk₂
  cases hblk₂
  rw [hl₁] at hl₂
  cases hl₂
  rw [hb₁] at hb₂
  cases hb₂
  rfl

lemma Twin.last {pre : List Nat} {last : Nat} (h : Twin P fn d b p t t')
    (hd : ∀ c b, d c b = true → canDeferComparison P fn c b = true) (hwf : P.WellFormedSSA fn)
    (hblk : P.WellFormedBlock (fn.instructionsAt b)) (hsplit : fn.instructionsAt b = pre ++ [last])
    (hmet : Met P d b pre p) :
    FusedCode (Deferred P fn d) p (translateInstr P fn d t last b).1
        (translateInstr P fn (fun _ _ => false) t' last b).1 none ∧
      Twin P fn d b none (translateInstr P fn d t last b).2
        (translateInstr P fn (fun _ _ => false) t' last b).2 := by
  have hlast : (fn.instructionsAt b).getLast? = some last := by
    rw [hsplit]
    exact List.getLast?_concat ..
  cases p with
  | some q => exact h.fusedBranch hd hlast
  | none =>
    have hended := hblk.ended
    rw [hlast, Option.map_some, Option.some_inj, IRProgram.isTerminatorAt] at hended
    cases hi : P.instrAt last with
    | none =>
      rw [hi] at hended
      cases hended
    | some i =>
      rw [hi] at hended
      refine h.terminator hd hwf.nodup hlast hi hended fun c hc hdefer j hj => ?_
      rw [← Bool.not_eq_true]
      intro hcmp
      rw [hsplit] at hc
      rcases List.mem_append.mp hc with hc | hc
      · obtain ⟨q, hq, -⟩ := hmet.waits c hc hdefer j hj hcmp
        cases hq
      · obtain rfl := List.mem_singleton.mp hc
        rw [hi] at hj
        cases hj
        cases i <;> first | cases hcmp | cases hended

lemma Twin.step {pre rest : List Nat} (h : Twin P fn d b p t t')
    (hd : ∀ c b, d c b = true → canDeferComparison P fn c b = true) (hwf : P.WellFormedSSA fn)
    (hblk : P.WellFormedBlock (fn.instructionsAt b)) (hsplit : fn.instructionsAt b = pre ++ r :: rest)
    (hrest : rest ≠ []) (hmet : Met P d b pre p) :
    ∃ p', FusedCode (Deferred P fn d) p (translateInstr P fn d t r b).1
        (translateInstr P fn (fun _ _ => false) t' r b).1 p' ∧
      Twin P fn d b p' (translateInstr P fn d t r b).2
        (translateInstr P fn (fun _ _ => false) t' r b).2 ∧ Met P d b (pre ++ [r]) p' := by
  have hmem : r ∈ fn.instructionsAt b := by
    rw [hsplit]
    exact List.mem_append_right _ List.mem_cons_self
  have hpre : r ∉ pre := by
    have hnodup := instructionsAt_nodup hwf.nodup b
    rw [hsplit, List.nodup_append] at hnodup
    exact fun hr => hnodup.2.2 r hr r List.mem_cons_self rfl
  cases hi : P.instrAt r with
  | none =>
    have hcode : ∀ defer (t : Translator), translateInstr P fn defer t r b = ([], t) := by
      intro defer t
      unfold translateInstr
      rw [hi]
    rw [hcode, hcode]
    exact ⟨p, .nil p, h, hmet.skip fun j hj => nomatch hi.symm.trans hj⟩
  | some i =>
    have hterm : i.isTerminator = false := by
      have hbody := hblk.body r (by
        rw [hsplit, List.dropLast_append_of_ne_nil (List.cons_ne_nil r rest),
          List.dropLast_cons_of_ne_nil hrest]
        exact List.mem_append_right _ List.mem_cons_self)
      rwa [IRProgram.isTerminatorAt, hi] at hbody
    by_cases hdefer : i.isCompare = true ∧ d r b = true
    · have hp : p = none := by
        rw [Option.eq_none_iff_forall_not_mem]
        intro q hq
        have hr := deferred_unique hd (h.pending q hq).defers hdefer.2
        exact hpre (hr ▸ hmet.mem q hq)
      subst hp
      obtain ⟨q, hq, hcode, htwin⟩ := h.defer hd hmem hi hdefer.1 hdefer.2
      exact ⟨some q, hcode, htwin, hmet.defer hq⟩
    · have hno : i.isCompare = true → d r b = false := by
        intro hcmp
        rw [← Bool.not_eq_true]
        exact fun hdr => hdefer ⟨hcmp, hdr⟩
      have hapart : Apart P p r := by
        intro q hq
        have hqpre := hmet.mem q hq
        refine ⟨fun heq => hpre (heq ▸ hqpre), ?_⟩
        have hordered := hblk.ordered
        rw [hsplit, List.pairwise_append] at hordered
        apply hordered.2.2 q.ref hqpre r List.mem_cons_self
        obtain ⟨ty, a₁, a₂, hrecord, -⟩ := (h.pending q hq).record
        rw [IRProgram.isPhiAt, hrecord]
        rfl
      obtain ⟨hcode, htwin⟩ := h.body hd (mem_refs_of_mem hmem) hi hterm hno hapart
      refine ⟨p, hcode, htwin, hmet.skip fun j hj => ?_⟩
      rw [hi] at hj
      cases hj
      exact hno

/-- The rest of a block's body, when the comparisons met so far wait in `p`. -/
lemma Twin.instrs {pre body : List Nat} {last : Nat} (h : Twin P fn d b p t t')
    (hd : ∀ c b, d c b = true → canDeferComparison P fn c b = true) (hwf : P.WellFormedSSA fn)
    (hblk : P.WellFormedBlock (fn.instructionsAt b))
    (hsplit : fn.instructionsAt b = pre ++ (body ++ [last])) (hmet : Met P d b pre p) :
    FusedCode (Deferred P fn d) p (translateInstrs P fn d b (body ++ [last]) t).1
        (translateInstrs P fn (fun _ _ => false) b (body ++ [last]) t').1 none ∧
      Twin P fn d b none (translateInstrs P fn d b (body ++ [last]) t).2
        (translateInstrs P fn (fun _ _ => false) b (body ++ [last]) t').2 := by
  induction body generalizing pre p t t' with
  | nil =>
    change FusedCode _ p ((translateInstr P fn d t last b).1 ++ [])
      ((translateInstr P fn (fun _ _ => false) t' last b).1 ++ []) none ∧ _
    rw [List.append_nil, List.append_nil]
    exact h.last hd hwf hblk hsplit hmet
  | cons r body ih =>
    have hnext : fn.instructionsAt b = (pre ++ [r]) ++ (body ++ [last]) := by
      rw [hsplit, List.append_assoc, List.singleton_append, List.cons_append]
    obtain ⟨p', hcode, htwin, hmet'⟩ :=
      h.step hd hwf hblk hsplit (List.concat_ne_nil last body) hmet
    obtain ⟨hrest, htwin'⟩ := ih htwin hnext hmet'
    exact ⟨hcode.append hrest, htwin'⟩

/-- No comparison waits across blocks. -/
lemma Twin.toBlock (h : Twin P fn d b none t t') (b' : Nat) : Twin P fn d b' none t t' :=
  ⟨h.known, h.known', h.deferred, h.deferred', (fun _ hq => nomatch hq), h.regs⟩

lemma Twin.block (h : Twin P fn d b none t t')
    (hd : ∀ c b, d c b = true → canDeferComparison P fn c b = true) (hwf : P.WellFormedSSA fn)
    {blk : BasicBlock} (hblk : fn.blocks[b]? = some blk) :
    FusedCode (Deferred P fn d) none (translateBlock P fn d t b blk).1
        (translateBlock P fn (fun _ _ => false) t' b blk).1 none ∧
      Twin P fn d b none (translateBlock P fn d t b blk).2
        (translateBlock P fn (fun _ _ => false) t' b blk).2 := by
  have hinstrs : fn.instructionsAt b = blk.instructions := by rw [IRFunction.instructionsAt, hblk]
  have hwfb := hwf.blocks blk (List.mem_of_getElem? hblk)
  rw [← hinstrs] at hwfb
  obtain ⟨body, last, hbody⟩ : ∃ body last, fn.instructionsAt b = body ++ [last] := by
    have hended := hwfb.ended
    cases hlast : (fn.instructionsAt b).getLast? with
    | none =>
      rw [hlast] at hended
      cases hended
    | some last => exact ⟨_, last, (List.dropLast_append_getLast? last hlast).symm⟩
  obtain ⟨hcode, htwin⟩ := @Twin.instrs P fn d b none t t' [] body last h hd hwf hwfb hbody .nil
  unfold translateBlock
  rw [← hinstrs, hbody]
  exact ⟨.same (fun c _ hread => nomatch hread) (fun q hq => nomatch hq) hcode, htwin⟩

lemma Twin.blocks {blks : List BasicBlock} (h : Twin P fn d b none t t')
    (hd : ∀ c b, d c b = true → canDeferComparison P fn c b = true) (hwf : P.WellFormedSSA fn)
    (hblks : ∀ k blk, blks[k]? = some blk → fn.blocks[b + k]? = some blk) :
    FusedCode (Deferred P fn d) none (translateBlocks P fn d b blks t).1
        (translateBlocks P fn (fun _ _ => false) b blks t').1 none ∧
      Twin P fn d (b + blks.length) none (translateBlocks P fn d b blks t).2
        (translateBlocks P fn (fun _ _ => false) b blks t').2 := by
  induction blks generalizing b t t' with
  | nil => exact ⟨.nil none, h⟩
  | cons blk rest ih =>
    obtain ⟨hcode, htwin⟩ := h.block hd hwf (hblks 0 blk rfl)
    have hlater : ∀ k blk', rest[k]? = some blk' → fn.blocks[b + 1 + k]? = some blk' := by
      intro k blk' hk
      rw [Nat.add_assoc, Nat.add_comm 1 k]
      exact hblks (k + 1) blk' hk
    obtain ⟨hcodes, htwins⟩ := ih (htwin.toBlock (b + 1)) hlater
    rw [Nat.add_assoc, Nat.add_comm 1] at htwins
    exact ⟨hcode.append hcodes, htwins⟩

lemma findPhis_twin : Twin P fn d 0 none (findPhis P fn) (findPhis P fn) := by
  constructor
  · exact ⟨_, findPhis_tracks⟩
  · exact ⟨_, findPhis_tracks⟩
  · intro x
    constructor
    · intro h
      cases h
    · rintro ⟨q, hq, -⟩
      cases hq
  · exact fun _ => rfl
  · intro q hq
    cases hq
  · exact fun _ _ => .inl rfl

end

lemma deferral_sound {V σ : Type} (M : Target V σ) {P : IRProgram} {fn : IRFunction}
    (hwf : P.WellFormedSSA fn) {d : Nat → Nat → Bool}
    (hd : ∀ c b, d c b = true → canDeferComparison P fn c b = true) (fuel : Nat) (label : Label)
    (s : VState V σ) : AgreeOutcomeOff (Deferred P fn d)
      (M.runCode (translateFunctionWith P fn d) fuel label s)
      (M.runCode (translateFunctionWith P fn fun _ _ => false) fuel label s) := by
  have hcode : FusedCode (Deferred P fn d) none (translateFunctionWith P fn d)
      (translateFunctionWith P fn fun _ _ => false) none :=
    (findPhis_twin.blocks hd hwf fun k blk hk => by rwa [Nat.zero_add]).1
  exact hcode.run fuel label (AgreeOff.refl s)

/-- Which of the comparisons that may be deferred are deferred changes no run: the same labels are
reached with the same memory, the same calls and stores, and the same registers but for those of
the deferred comparisons. -/
theorem fusion_sound {V σ : Type} (M : Target V σ) {P : IRProgram} {fn : IRFunction}
    (hwf : P.WellFormedSSA fn) {d d' : Nat → Nat → Bool}
    (hd : ∀ c b, d c b = true → canDeferComparison P fn c b = true)
    (hd' : ∀ c b, d' c b = true → canDeferComparison P fn c b = true) (fuel : Nat) (label : Label)
    (s : VState V σ) : AgreeOutcomeOff (fun c => Deferred P fn d c ∨ Deferred P fn d' c)
      (M.runCode (translateFunctionWith P fn d) fuel label s)
      (M.runCode (translateFunctionWith P fn d') fuel label s) :=
  (deferral_sound M hwf hd fuel label s).trans (deferral_sound M hwf hd' fuel label s)
    (fun _ => .inl) fun _ => .inr

/-- Counting from 0 to 10. -/
def countProgram : IRProgram where
  instrData := [(116, .ret .null), (100, .condBranch (.instr 88) 1 2),
    (88, .binary .cmpLt .bool (.instr 76) (.instr 16)),
    (76, .binary .add .int64 (.instr 52) (.instr 28)),
    (52, .phi .int64 [(.instr 0, 0), (.instr 76, 1)]), (44, .branch 1),
    (28, .constInt .int64 1), (16, .constInt .int64 10), (0, .constInt .int64 0)]

def countFunction : IRFunction where
  name := "count"
  returnType := .void
  paramNames := []
  paramTypes := []
  blocks := [⟨"entry", [0, 16, 28, 44]⟩, ⟨"loop", [52, 76, 88, 100]⟩, ⟨"done", [116]⟩]
  paramRefs := []

theorem fusion_sound_count :
    AgreeOutcomeOff (fun c => Deferred countProgram countFunction
        (canDeferComparison countProgram countFunction) c ∨
        Deferred countProgram countFunction (fun _ _ => false) c)
      (Arch.x86.target.runCode (translateFunction countProgram countFunction) 5 (.block 0)
        ⟨fun _ => .word 0, emptyHeap, []⟩)
      (Arch.x86.target.runCode (translateFunctionWith countProgram countFunction fun _ _ => false) 5
        (.block 0) ⟨fun _ => .word 0, emptyHeap, []⟩) :=
  have hwf : countProgram.WellFormedSSA countFunction := by decide
  have all : ∀ c b, canDeferComparison countProgram countFunction c b = true →
      canDeferComparison countProgram countFunction c b = true := fun _ _ h => h
  have none : ∀ c b, (fun _ _ => false : Nat → Nat → Bool) c b = true →
      canDeferComparison countProgram countFunction c b = true :=
    fun _ _ h => absurd h Bool.false_ne_true
  fusion_sound Arch.x86.target hwf all none 5 (.block 0) _

end TidyTuples.Proofs
