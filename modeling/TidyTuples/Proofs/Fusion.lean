import TidyTuples.Proofs.Homes

/-!
# Fusing a comparison with its branch

The code with deferred comparisons lacks the instructions that would write their registers, and the
branches compare instead of testing them. Both codes run in lockstep, on registers that differ in
those of the deferred comparisons only.
-/

namespace TidyTuples

namespace VInstr

def reads : VInstr → List VReg
  | mov _ src => [src]
  | binary _ _ a b => [a, b]
  | lnot _ src => [src]
  | extend _ _ src => [src]
  | ror _ src _ => [src]
  | load64 _ ptr => [ptr]
  | store64 ptr value => [ptr, value]
  | lea _ base _ => [base]
  | cmpSet _ _ a b => [a, b]
  | cmpJumpTrue _ a b _ => [a, b]
  | testJumpTrue cond _ => [cond]
  | invoke _ args _ => args
  | _ => []

def writes : VInstr → Option VReg
  | mov dst _ => some dst
  | movImm dst _ => some dst
  | binary _ dst _ _ => some dst
  | lnot dst _ => some dst
  | extend _ dst _ => some dst
  | ror dst _ _ => some dst
  | load64 dst _ => some dst
  | lea dst _ _ => some dst
  | cmpSet _ dst _ _ => some dst
  | invoke _ _ result => result
  | _ => none

/-- Neither a label nor a jump. -/
def isStraight : VInstr → Bool
  | bind _ => false
  | cmpJumpTrue _ _ _ _ => false
  | testJumpTrue _ _ => false
  | jmp _ => false
  | ret => false
  | _ => true

end VInstr

namespace Proofs

open Translator IRProgram

/-- A comparison whose code is missing. -/
structure Pending where
  ref : Nat
  op : Opcode
  a : VReg
  b : VReg

/-- The instruction leaves a pending comparison alone. -/
def Pending.Spares (q : Pending) (i : VInstr) : Prop :=
  i.isStraight = true ∧ ∀ r, i.writes = some r → r ≠ q.a ∧ r ≠ q.b ∧ r ≠ .result q.ref

/-- The first code defers comparisons of `D` that the second one materialises. -/
inductive FusedCode (D : Nat → Prop) : Option Pending → List VInstr → List VInstr →
    Option Pending → Prop
  | nil (p : Option Pending) : FusedCode D p [] [] p
  | same {p p' : Option Pending} {i : VInstr} {code code' : List VInstr}
      (hreads : ∀ c, D c → .result c ∉ i.reads) (hspares : ∀ q, p = some q → q.Spares i)
      (h : FusedCode D p code code' p') : FusedCode D p (i :: code) (i :: code') p'
  | compare {p' : Option Pending} {q : Pending} {code code' : List VInstr} (hq : D q.ref)
      (ha : ∀ c, D c → q.a ≠ .result c) (hb : ∀ c, D c → q.b ≠ .result c)
      (h : FusedCode D (some q) code code' p') :
      FusedCode D none code (.cmpSet q.op (.result q.ref) q.a q.b :: code') p'
  | branch {p' : Option Pending} {q : Pending} {label : Label} {code code' : List VInstr}
      (h : FusedCode D none code code' p') :
      FusedCode D (some q) (.cmpJumpTrue q.op q.a q.b label :: code)
        (.testJumpTrue (.result q.ref) label :: code') p'

section

variable {V σ : Type}

/-- The states agree on everything but the registers of deferred comparisons. -/
structure AgreeOff (D : Nat → Prop) (s s' : VState V σ) : Prop where
  mem : s.mem = s'.mem
  trace : s.trace = s'.trace
  regs : ∀ r, (∀ c, D c → r ≠ .result c) → s.regs r = s'.regs r

/-- Both codes have come to the same label or to the same end. -/
inductive AgreeOutcomeOff (D : Nat → Prop) : CodeOutcome V σ → CodeOutcome V σ → Prop
  | goto (label : Label) {s s' : VState V σ} (h : AgreeOff D s s') :
      AgreeOutcomeOff D (.goto label s) (.goto label s')
  | returned {s s' : VState V σ} (h : AgreeOff D s s') :
      AgreeOutcomeOff D (.returned s) (.returned s')
  | stuck {s s' : VState V σ} (h : AgreeOff D s s') : AgreeOutcomeOff D (.stuck s) (.stuck s')

/-- The register of the pending comparison holds its result. -/
def Computed (M : Target V σ) (p : Option Pending) (s s' : VState V σ) : Prop :=
  ∀ q, p = some q → s'.regs (.result q.ref) =
    M.const (wordOfBool (M.compare q.op (s.regs q.a) (s.regs q.b)))

end

section

variable {D : Nat → Prop} {V σ : Type} {M : Target V σ} {s s' : VState V σ}

/-! ### Running both codes -/

lemma AgreeOff.refl (s : VState V σ) : AgreeOff D s s := ⟨rfl, rfl, fun _ _ => rfl⟩

lemma AgreeOff.mono {D' : Nat → Prop} (h : AgreeOff D s s') (hD : ∀ c, D c → D' c) :
    AgreeOff D' s s' := ⟨h.mem, h.trace, fun r hr => h.regs r fun c hc => hr c (hD c hc)⟩

lemma AgreeOff.trans {s'' : VState V σ} (h : AgreeOff D s s') (h' : AgreeOff D s'' s') :
    AgreeOff D s s'' :=
  ⟨h.mem.trans h'.mem.symm, h.trace.trans h'.trace.symm,
    fun r hr => (h.regs r hr).trans (h'.regs r hr).symm⟩

/-- Two codes that run like a third one run alike. -/
lemma AgreeOutcomeOff.trans {D' D'' : Nat → Prop} {o o' o'' : CodeOutcome V σ}
    (h : AgreeOutcomeOff D o o') (h' : AgreeOutcomeOff D' o'' o') (hD : ∀ c, D c → D'' c)
    (hD' : ∀ c, D' c → D'' c) : AgreeOutcomeOff D'' o o'' := by
  cases h with
  | goto label h =>
    cases h' with
    | goto _ h' => exact .goto label ((h.mono hD).trans (h'.mono hD'))
  | returned h =>
    cases h' with
    | returned h' => exact .returned ((h.mono hD).trans (h'.mono hD'))
  | stuck h =>
    cases h' with
    | stuck h' => exact .stuck ((h.mono hD).trans (h'.mono hD'))

lemma AgreeOff.read (h : AgreeOff D s s') {i : VInstr} (hreads : ∀ c, D c → .result c ∉ i.reads)
    {r : VReg} (hr : r ∈ i.reads) : s.regs r = s'.regs r := by
  apply h.regs
  rintro c hc rfl
  exact hreads c hc hr

lemma AgreeOff.setReg (h : AgreeOff D s s') (r : VReg) (v : V) :
    AgreeOff D (s.setReg r v) (s'.setReg r v) := by
  constructor
  · exact h.mem
  · exact h.trace
  · intro x hx
    change Function.update s.regs r v x = Function.update s'.regs r v x
    rw [Function.update_apply, Function.update_apply, h.regs x hx]

lemma AgreeOff.setReg_right (h : AgreeOff D s s') {c : Nat} (hc : D c) (v : V) :
    AgreeOff D s (s'.setReg (.result c) v) := by
  constructor
  · exact h.mem
  · exact h.trace
  · intro x hx
    change s.regs x = Function.update s'.regs (.result c) v x
    rw [Function.update_of_ne (hx c hc), h.regs x hx]

/-- An instruction does the same to states that agree on what it reads. -/
lemma execVInstr_agree (h : AgreeOff D s s') {i : VInstr}
    (hreads : ∀ c, D c → .result c ∉ i.reads) :
    Option.Rel (AgreeOff D) (M.execVInstr i s) (M.execVInstr i s') := by
  have hread : ∀ {r}, r ∈ i.reads → s.regs r = s'.regs r := h.read hreads
  cases i with
  | mov dst src =>
    unfold Target.execVInstr
    dsimp only
    rw [hread List.mem_cons_self]
    exact .some (h.setReg dst _)
  | movImm dst value => exact .some (h.setReg dst _)
  | binary op dst a b =>
    unfold Target.execVInstr
    dsimp only
    rw [hread List.mem_cons_self, hread (List.mem_cons_of_mem _ List.mem_cons_self)]
    exact .some (h.setReg dst _)
  | lnot dst src =>
    unfold Target.execVInstr
    dsimp only
    rw [hread List.mem_cons_self]
    exact .some (h.setReg dst _)
  | extend op dst src =>
    unfold Target.execVInstr
    dsimp only
    rw [hread List.mem_cons_self]
    exact .some (h.setReg dst _)
  | ror dst src shift =>
    unfold Target.execVInstr
    dsimp only
    rw [hread List.mem_cons_self]
    exact .some (h.setReg dst _)
  | load64 dst ptr =>
    unfold Target.execVInstr
    dsimp only
    rw [hread List.mem_cons_self, h.mem]
    exact .some (h.setReg dst _)
  | store64 ptr value =>
    unfold Target.execVInstr
    dsimp only
    rw [hread List.mem_cons_self, hread (List.mem_cons_of_mem _ List.mem_cons_self), h.mem, h.trace]
    exact .some ⟨rfl, rfl, h.regs⟩
  | lea dst base offset =>
    unfold Target.execVInstr
    dsimp only
    rw [hread List.mem_cons_self]
    exact .some (h.setReg dst _)
  | cmpSet op dst a b =>
    unfold Target.execVInstr
    dsimp only
    rw [hread List.mem_cons_self, hread (List.mem_cons_of_mem _ List.mem_cons_self)]
    exact .some (h.setReg dst _)
  | invoke fn args ret =>
    have hargs : args.map s.regs = args.map s'.regs := List.map_congr_left fun r hr => hread hr
    unfold Target.execVInstr
    dsimp only
    rw [hargs, h.mem, h.trace]
    cases M.call fn (args.map s'.regs) s'.mem with
    | none => exact .none
    | some p =>
      have hcall : AgreeOff D
          { s with mem := p.2, trace := s'.trace ++ [.call fn (args.map s'.regs)] }
          { s' with mem := p.2, trace := s'.trace ++ [.call fn (args.map s'.regs)] } :=
        ⟨rfl, rfl, h.regs⟩
      cases ret with
      | none => exact .some hcall
      | some r => exact .some (hcall.setReg r p.1)
  | _ => exact .some h

/-- Only the written register changes. -/
lemma execVInstr_frame {i : VInstr} {s₁ : VState V σ} (h : M.execVInstr i s = some s₁) {r : VReg}
    (hr : i.writes ≠ some r) : s₁.regs r = s.regs r := by
  have hset : ∀ dst v, i.writes = some dst → (s.setReg dst v).regs r = s.regs r := by
    intro dst v hdst
    apply Function.update_of_ne
    rintro rfl
    exact hr hdst
  cases i with
  | invoke fn args ret =>
    unfold Target.execVInstr at h
    dsimp only at h
    cases hcall : M.call fn (args.map s.regs) s.mem with
    | none =>
      rw [hcall] at h
      cases h
    | some p =>
      rw [hcall] at h
      cases ret with
      | none =>
        cases h
        rfl
      | some dst =>
        cases h
        exact hset dst p.1 rfl
  | store64 ptr value =>
    cases h
    rfl
  | mov dst src | movImm dst value | binary op dst a b | lnot dst src | extend op dst src
  | ror dst src shift | load64 dst ptr | lea dst base offset | cmpSet op dst a b =>
    cases h
    exact hset dst _ rfl
  | _ =>
    cases h
    rfl

lemma Computed.step {p : Option Pending} {i : VInstr} {s₁ s₁' : VState V σ}
    (h : Computed M p s s') (hspares : ∀ q, p = some q → q.Spares i)
    (hs : M.execVInstr i s = some s₁) (hs' : M.execVInstr i s' = some s₁') :
    Computed M p s₁ s₁' := by
  intro q hq
  obtain ⟨-, hwrites⟩ := hspares q hq
  rw [execVInstr_frame hs' fun hw => (hwrites _ hw).2.2 rfl,
    execVInstr_frame hs fun hw => (hwrites _ hw).1 rfl,
    execVInstr_frame hs fun hw => (hwrites _ hw).2.1 rfl]
  exact h q hq

lemma computed_none : Computed M none s s' := fun _ h => nomatch h

/-- Straight code and labels are executed one by one. -/
lemma execCode_cons {i : VInstr} (h : i.isStraight = true ∨ ∃ l, i = .bind l) (rest : List VInstr)
    (s : VState V σ) : M.execCode (i :: rest) s =
      match M.execVInstr i s with
      | none => .stuck s
      | some s => M.execCode rest s := by
  rcases h with h | ⟨l, rfl⟩
  · cases i <;> first | rfl | cases h
  · rfl

/-- Both codes reach the same label or the same end. -/
theorem FusedCode.exec {p p' : Option Pending} {code code' : List VInstr}
    (h : FusedCode D p code code' p') (hs : AgreeOff D s s') (hp : Computed M p s s') :
    AgreeOutcomeOff D (M.execCode code s) (M.execCode code' s') := by
  induction h generalizing s s' with
  | nil p => exact .returned hs
  | @same p p' i code code' hreads hspares hcode ih =>
    have hread : ∀ {r}, r ∈ i.reads → s.regs r = s'.regs r := hs.read hreads
    have hstep : i.isStraight = true ∨ (∃ l, i = .bind l) →
        AgreeOutcomeOff D (M.execCode (i :: code) s) (M.execCode (i :: code') s') := by
      intro hi
      rw [execCode_cons hi, execCode_cons hi]
      have hrel := execVInstr_agree (M := M) hs hreads
      cases h₁ : M.execVInstr i s with
      | none =>
        rw [h₁] at hrel
        cases h₂ : M.execVInstr i s' with
        | none => exact .stuck hs
        | some s₂ =>
          rw [h₂] at hrel
          cases hrel
      | some s₁ =>
        rw [h₁] at hrel
        cases h₂ : M.execVInstr i s' with
        | none =>
          rw [h₂] at hrel
          cases hrel
        | some s₂ =>
          rw [h₂] at hrel
          cases hrel with
          | some hagree => exact ih hagree (hp.step hspares h₁ h₂)
    -- a jump is only met when no comparison is pending
    have hnone : i.isStraight = false → p = none := by
      intro hi
      cases p with
      | none => rfl
      | some q =>
        have hst := (hspares q rfl).1
        rw [hi] at hst
        cases hst
    cases i with
    | jmp label => exact .goto _ hs
    | ret => exact .returned hs
    | bind label => exact hstep (.inr ⟨label, rfl⟩)
    | cmpJumpTrue op a b label =>
      obtain rfl := hnone rfl
      unfold Target.execCode
      dsimp only
      rw [hread List.mem_cons_self, hread (List.mem_cons_of_mem _ List.mem_cons_self)]
      split_ifs
      · exact .goto _ hs
      · exact ih hs computed_none
    | testJumpTrue cond label =>
      obtain rfl := hnone rfl
      unfold Target.execCode
      dsimp only
      rw [hread List.mem_cons_self]
      split_ifs
      · exact .goto _ hs
      · exact ih hs computed_none
    | _ => exact hstep (.inl rfl)
  | @compare p' q code code' hq ha hb hcode ih =>
    have hset : M.execCode (.cmpSet q.op (.result q.ref) q.a q.b :: code') s' =
        M.execCode code' (s'.setReg (.result q.ref)
          (M.const (wordOfBool (M.compare q.op (s'.regs q.a) (s'.regs q.b))))) := rfl
    rw [hset]
    refine ih (hs.setReg_right hq _) fun q' hq' => ?_
    cases hq'
    rw [hs.regs q.a ha, hs.regs q.b hb]
    exact Function.update_self ..
  | @branch p' q label code code' hcode ih =>
    have htest : M.truthy (s'.regs (.result q.ref)) = M.compare q.op (s.regs q.a) (s.regs q.b) := by
      rw [hp q rfl, M.truthy_const]
      cases M.compare q.op (s.regs q.a) (s.regs q.b) <;> rfl
    unfold Target.execCode
    dsimp only
    rw [htest]
    split_ifs
    · exact .goto _ hs
    · exact ih hs computed_none

/-- Behind a label both codes go on together. -/
lemma FusedCode.afterLabel {p p' : Option Pending} {code code' : List VInstr}
    (h : FusedCode D p code code' p') (label : Label) :
    Option.Rel (fun rest rest' => FusedCode D none rest rest' p')
      (Target.afterLabel code label) (Target.afterLabel code' label) := by
  induction h with
  | nil p => exact .none
  | @same p p' i code code' hreads hspares hcode ih =>
    unfold Target.afterLabel
    by_cases hi : i = .bind label
    · subst hi
      have hp : p = none := by
        cases p with
        | none => rfl
        | some q => cases (hspares q rfl).1
      subst hp
      rw [if_pos rfl, if_pos rfl]
      exact .some hcode
    · rw [if_neg hi, if_neg hi]
      exact ih
  | compare hq ha hb hcode ih => exact ih
  | branch hcode ih => exact ih

/-- Both codes run alike. -/
theorem FusedCode.run {code code' : List VInstr} {p' : Option Pending}
    (h : FusedCode D none code code' p') (fuel : Nat) (label : Label) (hs : AgreeOff D s s') :
    AgreeOutcomeOff D (M.runCode code fuel label s) (M.runCode code' fuel label s') := by
  induction fuel generalizing label s s' with
  | zero => exact .goto label hs
  | succ fuel ih =>
    have hrel := h.afterLabel label
    unfold Target.runCode
    generalize Target.afterLabel code label = rest at hrel
    generalize Target.afterLabel code' label = rest' at hrel
    cases hrel with
    | none => exact .stuck hs
    | @some rest rest' hrest =>
      have hexec := hrest.exec hs (computed_none (M := M))
      dsimp only
      generalize M.execCode rest s = o at hexec
      generalize M.execCode rest' s' = o' at hexec
      cases hexec with
      | goto l hagree => exact ih l hagree
      | returned hagree => exact .returned hagree
      | stuck hagree => exact .stuck hagree

lemma FusedCode.append {p p' p'' : Option Pending} {a a' b b' : List VInstr}
    (h : FusedCode D p a a' p') (h' : FusedCode D p' b b' p'') :
    FusedCode D p (a ++ b) (a' ++ b') p'' := by
  induction h with
  | nil p => exact h'
  | same hreads hspares _ ih => exact .same hreads hspares (ih h')
  | compare hq ha hb _ ih => exact .compare hq ha hb (ih h')
  | branch _ ih => exact .branch (ih h')

/-- The same instructions in both codes. -/
lemma FusedCode.ofSame {p : Option Pending} {code : List VInstr}
    (hreads : ∀ i ∈ code, ∀ c, D c → .result c ∉ i.reads)
    (hspares : ∀ i ∈ code, ∀ q, p = some q → q.Spares i) : FusedCode D p code code p := by
  induction code with
  | nil => exact .nil p
  | cons i rest ih =>
    exact .same (hreads i List.mem_cons_self) (hspares i List.mem_cons_self)
      (ih (fun j hj => hreads j (List.mem_cons_of_mem i hj))
        fun j hj => hspares j (List.mem_cons_of_mem i hj))

/-- A pending comparison reads its operands at the branch. -/
def Pending.reads (p : Option Pending) : List VReg :=
  match p with
  | none => []
  | some q => [q.a, q.b]

/-- Both codes read the same registers, but for those of deferred comparisons. -/
lemma FusedCode.reads_iff {p p' : Option Pending} {code code' : List VInstr}
    (h : FusedCode D p code code' p') {reg : VReg} (hreg : ∀ c, reg ≠ .result c) :
    ((∃ v ∈ code, reg ∈ v.reads) ∨ reg ∈ Pending.reads p') ↔
      ((∃ v ∈ code', reg ∈ v.reads) ∨ reg ∈ Pending.reads p) := by
  induction h with
  | nil p => simp
  | same _ _ _ ih =>
    simp only [List.mem_cons, exists_eq_or_imp, or_assoc]
    rw [ih]
  | @compare p' q code code' _ _ _ _ ih =>
    rw [ih, List.exists_mem_cons_iff]
    have hreads : reg ∈ (VInstr.cmpSet q.op (.result q.ref) q.a q.b).reads ↔
      reg ∈ Pending.reads (some q) := Iff.rfl
    have hnone : reg ∉ Pending.reads none := List.not_mem_nil
    rw [hreads, or_comm, or_iff_left hnone]
  | @branch p' q label code code' _ ih =>
    have hreads : reg ∈ (VInstr.cmpJumpTrue q.op q.a q.b label).reads ↔
      reg ∈ Pending.reads (some q) := Iff.rfl
    have htest : reg ∉ (VInstr.testJumpTrue (.result q.ref) label).reads :=
      fun hmem => hreg q.ref (List.mem_singleton.mp hmem)
    have hnone : reg ∉ Pending.reads none := List.not_mem_nil
    rw [List.exists_mem_cons_iff, List.exists_mem_cons_iff, hreads, or_iff_right htest, or_assoc, ih,
      or_iff_left hnone, or_comm]

end

/-! ### The code of an instruction -/

section

variable {P : IRProgram} {fn : IRFunction} {reg reg' : IRValueRef → VReg} {r : Nat} {i : Instr}

lemma registerReads_subset : ∀ x ∈ registerReads P i, x ∈ i.uses := by
  intro x hx
  cases i with
  | binary op ty a b =>
    cases op <;> simp_all [registerReads, unaryReads, Instr.uses, Opcode.isBinary, Opcode.isUnary]
  | unary op ty a =>
    cases op <;> simp_all [registerReads, unaryReads, Instr.uses, Opcode.isUnary]
  | rotateRight a shift => exact hx
  | gep base byteOffset => exact hx
  | call ty callee args => exact List.mem_of_mem_filter hx
  | _ => cases hx

/-- Every register operand is read by the code. -/
lemma exists_reads {x : IRValueRef} (hx : x ∈ registerReads P i) :
    ∃ v ∈ lowerInstr P reg r i, reg x ∈ v.reads := by
  cases i with
  | binary op ty a b =>
    cases op <;>
      simp_all [registerReads, unaryReads, lowerInstr, lowerUnary, VInstr.reads] <;>
      grind
  | unary op ty a =>
    cases op <;> simp_all [registerReads, unaryReads, lowerInstr, lowerUnary, VInstr.reads]
  | rotateRight a shift | gep base byteOffset =>
    simp_all [registerReads, lowerInstr, VInstr.reads]
  | call ty callee args =>
    obtain ⟨hmem, hconst⟩ := List.mem_filter.mp hx
    obtain ⟨k, hk⟩ := List.mem_iff_getElem?.mp hmem
    refine ⟨_, List.mem_append_right _ (List.mem_singleton_self _), ?_⟩
    refine List.mem_map.mpr ⟨(x, k), List.mem_zipIdx_iff_getElem?.mpr hk, ?_⟩
    change argumentReg P reg r k x = reg x
    unfold argumentReg
    rw [if_neg (by simpa using hconst)]
  | _ => cases hx

lemma lowerInstr_congr (h : ∀ x ∈ registerReads P i, reg x = reg' x) :
    lowerInstr P reg r i = lowerInstr P reg' r i := by
  cases i with
  | binary op ty a b =>
    cases op <;> simp_all [lowerInstr, lowerUnary, registerReads, unaryReads]
  | unary op ty a =>
    cases op <;> simp_all [lowerInstr, lowerUnary, registerReads, unaryReads]
  | rotateRight a shift => simp_all [lowerInstr, registerReads]
  | gep base byteOffset => simp_all [lowerInstr, registerReads]
  | call ty callee args =>
    have hargs : ∀ x ∈ args.zipIdx 0, argumentReg P reg r x.2 x.1 = argumentReg P reg' r x.2 x.1 := by
      intro x hx
      unfold argumentReg
      split_ifs with hconst
      · rfl
      · apply h
        rw [Bool.not_eq_true, Option.isSome_eq_false_iff] at hconst
        exact List.mem_filter.mpr ⟨(List.mem_zipIdx' hx).2 ▸ List.getElem_mem _, hconst⟩
    have hregs := List.map_congr_left hargs
    unfold lowerInstr
    dsimp only
    rw [hregs]
  | _ => rfl

/-- What the code of an instruction within a block reads and writes. -/
lemma lowerInstr_shape {v : VInstr} (hv : v ∈ lowerInstr P reg r i) : v.isStraight = true ∧
    (∀ x ∈ v.reads, (∃ y ∈ registerReads P i, x = reg y) ∨ ∃ k, x = .argument r k) ∧
    ∀ w, v.writes = some w → w = .result r ∨ ∃ k, w = .argument r k := by
  have hunary : ∀ op a, v ∈ lowerUnary reg r op a → v.isStraight = true ∧
      (∀ x ∈ v.reads, ∃ y ∈ unaryReads op a, x = reg y) ∧
      ∀ w, v.writes = some w → w = .result r := by
    intro op a hv
    cases op <;> simp only [lowerUnary, List.mem_singleton, List.not_mem_nil] at hv <;> subst hv <;>
      simp [VInstr.isStraight, VInstr.reads, VInstr.writes, unaryReads]
  have hun : ∀ op a, v ∈ lowerUnary reg r op a → registerReads P i = unaryReads op a →
      v.isStraight = true ∧
      (∀ x ∈ v.reads, (∃ y ∈ registerReads P i, x = reg y) ∨ ∃ k, x = .argument r k) ∧
      ∀ w, v.writes = some w → w = .result r ∨ ∃ k, w = .argument r k := by
    intro op a hv hreads
    obtain ⟨hst, hread, hwrite⟩ := hunary op a hv
    rw [hreads]
    exact ⟨hst, fun x hx => .inl (hread x hx), fun w hw => .inl (hwrite w hw)⟩
  cases i with
  | binary op ty a b =>
    cases op with
    | add | sub | mul | xor | crc32 | and | lAnd | or | lOr | cmpEq | cmpNe | cmpLt | cmpGt | cmpLe
    | cmpGe | store =>
      obtain rfl := List.mem_singleton.mp hv
      simp [VInstr.isStraight, VInstr.reads, VInstr.writes, registerReads]
    | lNot => exact hun .lNot a hv rfl
    | zExt => exact hun .zExt a hv rfl
    | sExt => exact hun .sExt a hv rfl
    | load => exact hun .load a hv rfl
    | isNull => exact hun .isNull a hv rfl
    | _ => cases hv
  | unary op ty a => exact hun op a hv rfl
  | call ty callee args =>
    rcases List.mem_append.mp hv with hv | hv
    · obtain ⟨x, -, hx⟩ := List.mem_filterMap.mp hv
      obtain ⟨value, -, rfl⟩ := Option.map_eq_some_iff.mp hx
      simp [VInstr.isStraight, VInstr.reads, VInstr.writes]
    · obtain rfl := List.mem_singleton.mp hv
      refine ⟨rfl, fun x hx => ?_, fun w hw => ?_⟩
      · obtain ⟨⟨arg, k⟩, hmem, rfl⟩ := List.mem_map.mp hx
        dsimp only [argumentReg]
        split_ifs with hconst
        · exact .inr ⟨k, rfl⟩
        · rw [Bool.not_eq_true, Option.isSome_eq_false_iff] at hconst
          exact .inl ⟨arg, List.mem_filter.mpr
            ⟨(List.mem_zipIdx' hmem).2 ▸ List.getElem_mem _, hconst⟩, rfl⟩
      · change (if ty = .void then none else some (VReg.result r)) = some w at hw
        split_ifs at hw
        exact .inl (Option.some.inj hw).symm
  | constInt ty value | constBool value | rotateRight a shift | gep base byteOffset =>
    obtain rfl := List.mem_singleton.mp hv
    simp [VInstr.isStraight, VInstr.reads, VInstr.writes, registerReads]
  | _ => cases hv

end

end Proofs

end TidyTuples
