import TidyTuples.Backend.FlyingStart
import TidyTuples.Ir.WellFormed

/-!
# The registers the translator chooses

An instruction is lowered by the registers of its operands alone; what it does to the register map
is to request registers for them and to set its own. Two translations are therefore compared by
their register maps.
-/

namespace TidyTuples

namespace Instr

/-- An instruction with code that leaves a result, PHIs apart. -/
def writesResult : Instr → Bool
  | constInt _ _ => true
  | constBool _ => true
  | binary op _ _ _ =>
    match op with
    | .add | .sub | .mul | .xor | .crc32 | .and | .lAnd | .or | .lOr
    | .cmpEq | .cmpNe | .cmpLt | .cmpGt | .cmpLe | .cmpGe
    | .lNot | .zExt | .sExt | .load | .isNull => true
    | _ => false
  | unary op _ _ =>
    match op with
    | .lNot | .zExt | .sExt | .load | .isNull => true
    | _ => false
  | rotateRight _ _ => true
  | gep _ _ => true
  | call ty _ _ => ty != .void
  | _ => false

def isCompare (i : Instr) : Bool :=
  match i with
  | binary op _ _ _ => op.isComparison
  | _ => false

lemma writesResult_of_isTerminator {i : Instr} (h : i.isTerminator = true) :
    i.writesResult = false := by
  cases i <;> simp_all [isTerminator, writesResult]

lemma writesResult_of_isConst {i : Instr} (h : i.isConst = true) :
    i.writesResult = true ∧ i.isCompare = false := by
  cases i <;> simp_all [isConst, writesResult, isCompare]

end Instr

lemma Opcode.isBinary_of_isComparison {op : Opcode} (h : op.isComparison = true) :
    op.isBinary = true := by
  cases op <;> first | rfl | cases h

namespace Translator

/-- The register from which an operand is read. -/
def regOf (t : Translator) (ref : IRValueRef) : VReg := (t.regMap ref).getD (.requested ref)

def request (t : Translator) (ref : IRValueRef) : Translator := t.assign ref (t.regOf ref)

def requestAll (t : Translator) (refs : List IRValueRef) : Translator := refs.foldl request t

end Translator

section

variable (P : IRProgram) (reg : IRValueRef → VReg) (ref : Nat)

/-- The operands of a unary record that are read from a register. -/
def unaryReads (op : Opcode) (a : IRValueRef) : List IRValueRef :=
  match op with
  | .lNot | .zExt | .sExt | .load => [a]
  | _ => []

/-- The operands that are read from a register by an instruction within a block. -/
def registerReads : Instr → List IRValueRef
  | .binary op _ a b =>
    match op with
    | .add | .sub | .mul | .xor | .crc32 | .and | .lAnd | .or | .lOr
    | .cmpEq | .cmpNe | .cmpLt | .cmpGt | .cmpLe | .cmpGe | .store => [a, b]
    | _ => unaryReads op a
  | .unary op _ a => unaryReads op a
  | .rotateRight a _ => [a]
  | .gep base _ => [base]
  | .call _ _ args => args.filter fun arg => (P.constIntValue arg).isNone
  | _ => []

def lowerUnary (op : Opcode) (a : IRValueRef) : List VInstr :=
  match op with
  | .lNot => [.lnot (.result ref) (reg a)]
  | .zExt | .sExt => [.extend op (.result ref) (reg a)]
  | .load => [.load64 (.result ref) (reg a)]
  | .isNull => [.movImm (.result ref) 0]
  | _ => []

def argumentCode (index : Nat) (args : List IRValueRef) : List VInstr :=
  (args.zipIdx index).filterMap fun (arg, i) => (P.constIntValue arg).map (.movImm (.argument ref i))

def argumentReg (index : Nat) (arg : IRValueRef) : VReg :=
  if (P.constIntValue arg).isSome then .argument ref index else reg arg

/-- The code of an instruction within a block, by the registers of its operands. -/
def lowerInstr : Instr → List VInstr
  | .constInt _ value => [.movImm (.result ref) value]
  | .constBool value => [.movImm (.result ref) (if value then 1 else 0)]
  | .binary op _ a b =>
    match op with
    | .add | .sub | .mul | .xor | .crc32 => [.binary op (.result ref) (reg a) (reg b)]
    | .and | .lAnd => [.binary .and (.result ref) (reg a) (reg b)]
    | .or | .lOr => [.binary .or (.result ref) (reg a) (reg b)]
    | .cmpEq | .cmpNe | .cmpLt | .cmpGt | .cmpLe | .cmpGe =>
      [.cmpSet op (.result ref) (reg a) (reg b)]
    | .store => [.store64 (reg a) (reg b)]
    | _ => lowerUnary reg ref op a
  | .unary op _ a => lowerUnary reg ref op a
  | .rotateRight a shift => [.ror (.result ref) (reg a) shift]
  | .gep base byteOffset => [.lea (.result ref) (reg base) ((byteOffset.truncate 32).signExtend 64)]
  | .call ty fn args =>
    argumentCode P ref 0 args ++
    [.invoke fn ((args.zipIdx 0).map fun (arg, i) => argumentReg P reg ref i arg)
      (if ty = .void then none else some (.result ref))]
  | _ => []

end

namespace Proofs

open Translator

section

variable {t : Translator} {ref x : IRValueRef}

@[simp] lemma regMap_assign (reg : VReg) :
    (t.assign ref reg).regMap = Function.update t.regMap ref (some reg) := rfl

@[simp] lemma phiRegs_assign (reg : VReg) : (t.assign ref reg).phiRegs = t.phiRegs := rfl

@[simp] lemma deferredCmps_assign (reg : VReg) :
    (t.assign ref reg).deferredCmps = t.deferredCmps := rfl

lemma assign_self {reg : VReg} (h : t.regMap ref = some reg) : t.assign ref reg = t := by
  unfold assign
  rw [← h, Function.update_eq_self]

lemma regOf_of_some {reg : VReg} (h : t.regMap ref = some reg) : t.regOf ref = reg := by
  rw [regOf, h]
  rfl

/-- Requests change nothing for the operands. -/
lemma regOf_request : (t.request ref).regOf x = t.regOf x := by
  unfold regOf request
  rw [regMap_assign]
  by_cases hx : x = ref
  · rw [hx, Function.update_self]
    rfl
  · rw [Function.update_of_ne hx]

lemma regOf_requestAll (refs : List IRValueRef) : (t.requestAll refs).regOf x = t.regOf x := by
  induction refs generalizing t with
  | nil => rfl
  | cons r rest ih =>
    change ((t.request r).requestAll rest).regOf x = _
    rw [ih, regOf_request]

lemma regMap_request : (t.request ref).regMap x =
    if x = ref then some (t.regOf ref) else t.regMap x := by
  unfold request
  rw [regMap_assign, Function.update_apply]

lemma regMap_requestAll (refs : List IRValueRef) : (t.requestAll refs).regMap x =
    if x ∈ refs then some (t.regOf x) else t.regMap x := by
  induction refs generalizing t with
  | nil => rfl
  | cons r rest ih =>
    change ((t.request r).requestAll rest).regMap x = _
    rw [ih, regOf_request, regMap_request]
    by_cases hx : x ∈ rest
    · rw [if_pos hx, if_pos (List.mem_cons_of_mem r hx)]
    · rw [if_neg hx]
      by_cases hr : x = r
      · rw [if_pos hr, if_pos (hr ▸ List.mem_cons_self), hr]
      · rw [if_neg hr, if_neg (by simp [hx, hr])]

@[simp] lemma phiRegs_requestAll (refs : List IRValueRef) :
    (t.requestAll refs).phiRegs = t.phiRegs := by
  induction refs generalizing t with
  | nil => rfl
  | cons r rest ih => exact ih

@[simp] lemma deferredCmps_requestAll (refs : List IRValueRef) :
    (t.requestAll refs).deferredCmps = t.deferredCmps := by
  induction refs generalizing t with
  | nil => rfl
  | cons r rest ih => exact ih

/-- A PHI's register is in the register map, too. -/
structure PhisMapped (P : IRProgram) (fn : IRFunction) (t : Translator) : Prop where
  phiRegs : t.phiRegs = (findPhis P fn).phiRegs
  regMap : ∀ ref reg, t.phiRegs ref = some reg → t.regMap ref = some reg

variable {P : IRProgram} {fn : IRFunction}

lemma phiRegs_eq_some {reg : VReg} (h : (findPhis P fn).phiRegs ref = some reg) :
    ∃ r i, ref = .instr r ∧ reg = .phi r ∧ P.instrAt r = some i ∧ i.isPhi = true := by
  cases ref with
  | instr r =>
    change (if r ∈ _ then some (VReg.phi r) else none) = some reg at h
    split_ifs at h with hr
    obtain ⟨blk, -, hmem⟩ := List.mem_flatMap.mp hr
    obtain ⟨-, hphi⟩ := List.mem_filter.mp hmem
    cases hi : P.instrAt r with
    | none =>
      rw [hi] at hphi
      cases hphi
    | some i =>
      rw [hi] at hphi
      exact ⟨r, i, rfl, (Option.some.inj h).symm, hi, hphi⟩
  | null => cases h
  | param f k => cases h

lemma findPhis_mapped : PhisMapped P fn (findPhis P fn) := ⟨rfl, fun _ _ h => h⟩

lemma PhisMapped.request (h : PhisMapped P fn t) (ref : IRValueRef) :
    PhisMapped P fn (t.request ref) := by
  constructor
  · exact h.phiRegs
  · intro x reg hx
    have hreg := h.regMap x reg hx
    rw [regMap_request]
    split_ifs with hxr
    · rw [← hxr, regOf_of_some hreg]
    · exact hreg

lemma PhisMapped.requestAll (h : PhisMapped P fn t) (refs : List IRValueRef) :
    PhisMapped P fn (t.requestAll refs) := by
  induction refs generalizing t with
  | nil => exact h
  | cons r rest ih => exact ih (h.request r)

lemma PhisMapped.assign (h : PhisMapped P fn t) {r : Nat} {i : Instr} (hi : P.instrAt r = some i)
    (hphi : i.isPhi = false) (reg : VReg) : PhisMapped P fn (t.assign (.instr r) reg) := by
  constructor
  · exact h.phiRegs
  · intro x reg' hx
    have hreg := h.regMap x reg' hx
    change t.phiRegs x = some reg' at hx
    rw [regMap_assign, Function.update_of_ne]
    · exact hreg
    · rintro rfl
      rw [h.phiRegs] at hx
      obtain ⟨r', i', hr', -, hi', hphi'⟩ := phiRegs_eq_some hx
      cases hr'
      rw [hi] at hi'
      cases hi'
      rw [hphi] at hphi'
      cases hphi'

lemma getValue_eq (h : PhisMapped P fn t) (ref : IRValueRef) :
    t.getValue ref = (t.regOf ref, t.request ref) := by
  have halloc : t.getOrAlloc ref = (t.regOf ref, t.request ref) := by
    unfold getOrAlloc Translator.request Translator.regOf
    cases hreg : t.regMap ref with
    | none => rfl
    | some reg =>
      change (reg, t) = (reg, t.assign ref reg)
      rw [assign_self hreg]
  unfold getValue
  rw [halloc]
  split_ifs
  · rfl
  · cases hp : t.phiRegs ref with
    | none => rfl
    | some reg =>
      have hreg := h.regMap ref reg hp
      change (reg, t) = (t.regOf ref, t.request ref)
      rw [Translator.request, regOf_of_some hreg, assign_self hreg]

lemma emitUnary_eq (h : PhisMapped P fn t) (r : Nat) (a : IRValueRef)
    (emit : VReg → VReg → VInstr) : t.emitUnary r a emit =
      ([emit (.result r) (t.regOf a)], (t.requestAll [a]).assign (.instr r) (.result r)) := by
  unfold emitUnary
  rw [getValue_eq h]
  rfl

lemma getValue_pair (h : PhisMapped P fn t) (a b : IRValueRef) :
    (t.getValue a).1 = t.regOf a ∧ ((t.getValue a).2.getValue b).1 = t.regOf b ∧
      ((t.getValue a).2.getValue b).2 = t.requestAll [a, b] := by
  rw [getValue_eq h, getValue_eq (h.request a)]
  exact ⟨rfl, regOf_request, rfl⟩

lemma emitBinary_eq (h : PhisMapped P fn t) (r : Nat) (a b : IRValueRef)
    (emit : VReg → VReg → VReg → VInstr) : t.emitBinary r a b emit =
      ([emit (.result r) (t.regOf a) (t.regOf b)],
        (t.requestAll [a, b]).assign (.instr r) (.result r)) := by
  obtain ⟨ha, hb, hab⟩ := getValue_pair h a b
  unfold emitBinary
  dsimp only
  rw [ha, hb, hab]

lemma argumentRegs_eq (h : PhisMapped P fn t) (call index : Nat) (args : List IRValueRef) :
    argumentRegs P call index args t = (argumentCode P call index args,
      (args.zipIdx index).map (fun (arg, i) => argumentReg P t.regOf call i arg),
      t.requestAll (args.filter fun arg => (P.constIntValue arg).isNone)) := by
  induction args generalizing t index with
  | nil => rfl
  | cons arg rest ih =>
    unfold argumentRegs
    rw [List.filter_cons]
    cases hconst : P.constIntValue arg with
    | some value =>
      dsimp only
      rw [ih h]
      simp [argumentCode, argumentReg, hconst]
    | none =>
      dsimp only
      rw [getValue_eq h]
      dsimp only
      rw [ih (h.request arg)]
      simp only [argumentCode, argumentReg, hconst, List.zipIdx_cons, List.filterMap_cons,
        Option.map_none, List.map_cons, Option.isSome_none, Bool.false_eq_true, if_false,
        Option.isNone_none, if_true, Prod.mk.injEq, true_and]
      constructor
      · congr 1
        apply List.map_congr_left
        intro x _
        rw [regOf_request]
      · rfl

/-- What an instruction leaves of the translator: its operands have registers, and so has it. -/
def after (P : IRProgram) (t : Translator) (r : Nat) (i : Instr) : Translator :=
  if i.writesResult then (t.requestAll (registerReads P i)).assign (.instr r) (.result r)
  else t.requestAll (registerReads P i)

lemma translateUnary_eq (h : PhisMapped P fn t) (r : Nat) (ty : IRType) (op : Opcode)
    (a : IRValueRef) : t.translateUnary r op a =
      (lowerUnary t.regOf r op a, after P t r (.unary op ty a)) := by
  unfold translateUnary
  cases op <;> first | rfl | exact emitUnary_eq h r a _

variable {defer : Nat → Nat → Bool} {r blkIdx : Nat} {i : Instr}

/-- An instruction within a block, constants and deferred comparisons apart. -/
lemma translateInstr_eq (h : PhisMapped P fn t) (hi : P.instrAt r = some i)
    (hbody : i.isTerminator = false) (hconst : i.isConst = false)
    (hdefer : i.isCompare = true → defer r blkIdx = false) :
    translateInstr P fn defer t r blkIdx = (lowerInstr P t.regOf r i, after P t r i) := by
  unfold translateInstr
  rw [hi]
  cases i with
  | constInt ty value => cases hconst
  | constBool value => cases hconst
  | binary op ty a b =>
    cases op with
    | add | sub | mul | xor | crc32 | and | lAnd | or | lOr => exact emitBinary_eq h r a b _
    | cmpEq | cmpNe | cmpLt | cmpGt | cmpLe | cmpGe =>
      dsimp only
      rw [hdefer rfl]
      exact emitBinary_eq h r a b _
    | store =>
      obtain ⟨ha, hb, hab⟩ := getValue_pair h a b
      dsimp only
      rw [ha, hb, hab]
      rfl
    | _ => exact translateUnary_eq h r ty _ a
  | unary op ty a => exact translateUnary_eq h r ty op a
  | rotateRight a shift => exact emitUnary_eq h r a _
  | gep base byteOffset => exact emitUnary_eq h r base _
  | branch target => cases hbody
  | condBranch cond trueBlock falseBlock => cases hbody
  | ret value => cases hbody
  | phi ty entries => rfl
  | call ty callee args =>
    dsimp only
    unfold translateCall
    rw [argumentRegs_eq h]
    dsimp only
    by_cases hty : ty = .void
    · rw [if_pos hty]
      simp [lowerInstr, after, Instr.writesResult, registerReads, hty]
    · rw [if_neg hty]
      simp [lowerInstr, after, Instr.writesResult, registerReads, hty]

lemma translateInstr_deferred (hi : P.instrAt r = some i) (hcmp : i.isCompare = true)
    (hdefer : defer r blkIdx = true) :
    translateInstr P fn defer t r blkIdx = ([], t.setDeferred (.instr r) true) := by
  unfold translateInstr
  rw [hi]
  cases i with
  | binary op ty a b =>
    cases op with
    | cmpEq | cmpNe | cmpLt | cmpGt | cmpLe | cmpGe =>
      dsimp only
      rw [hdefer]
      rfl
    | _ => cases hcmp
  | _ => cases hcmp

/-! ### The register map after some code -/

/-- The instruction leaves a result in a register. -/
def Writes (P : IRProgram) (defer : Nat → Nat → Bool) (blkIdx r : Nat) : Prop :=
  ∃ i, P.instrAt r = some i ∧ i.writesResult = true ∧ (i.isCompare && defer r blkIdx) = false

/-- `W` are the instructions that have left a result. A constant has not if it had been requested
before. -/
structure Tracks (P : IRProgram) (fn : IRFunction) (W : Nat → Prop) (t : Translator) : Prop
    extends PhisMapped P fn t where
  range : ∀ x reg, t.regMap x = some reg → reg = .requested x ∨ t.phiRegs x = some reg ∨
    ∃ r, x = .instr r ∧ reg = .result r ∧ W r
  written : ∀ r, W r → ∃ i, P.instrAt r = some i ∧ i.isPhi = false ∧
    (t.regMap (.instr r) = some (.result r) ∨
      i.isConst = true ∧ t.regMap (.instr r) = some (.requested (.instr r)))

variable {W W' : Nat → Prop}

lemma findPhis_tracks : Tracks P fn (fun _ => False) (findPhis P fn) :=
  ⟨findPhis_mapped, fun _ _ h => .inr (.inl h), fun _ h => h.elim⟩

lemma Tracks.congr (h : Tracks P fn W t) (hW : ∀ r, W r ↔ W' r) : Tracks P fn W' t := by
  have hWW : W = W' := funext fun r => propext (hW r)
  rwa [hWW] at h

lemma Tracks.setDeferred (h : Tracks P fn W t) (x : IRValueRef) (b : Bool) :
    Tracks P fn W (t.setDeferred x b) := ⟨⟨h.phiRegs, h.regMap⟩, h.range, h.written⟩

lemma Tracks.requestAll (h : Tracks P fn W t) (refs : List IRValueRef) :
    Tracks P fn W (t.requestAll refs) := by
  constructor
  · exact h.toPhisMapped.requestAll refs
  · intro x reg hx
    rw [regMap_requestAll] at hx
    rw [phiRegs_requestAll]
    split_ifs at hx with hmem
    · cases hreg : t.regMap x with
      | none =>
        rw [Translator.regOf, hreg] at hx
        exact .inl (Option.some.inj hx).symm
      | some reg' =>
        rw [regOf_of_some hreg] at hx
        exact h.range x reg (hreg.trans hx)
    · exact h.range x reg hx
  · intro r hr
    obtain ⟨i, hi, hphi, hreg⟩ := h.written r hr
    refine ⟨i, hi, hphi, ?_⟩
    rw [regMap_requestAll]
    split_ifs
    · rcases hreg with hreg | ⟨hconst, hreg⟩
      · exact .inl (by rw [regOf_of_some hreg])
      · exact .inr ⟨hconst, by rw [regOf_of_some hreg]⟩
    · exact hreg

lemma Tracks.assign (h : Tracks P fn W t) (hi : P.instrAt r = some i) (hphi : i.isPhi = false) :
    Tracks P fn (fun x => W x ∨ x = r) (t.assign (.instr r) (.result r)) := by
  constructor
  · exact h.toPhisMapped.assign hi hphi _
  · intro x reg hx
    rw [regMap_assign, Function.update_apply] at hx
    split_ifs at hx with hxr
    · exact .inr (.inr ⟨r, hxr, (Option.some.inj hx).symm, .inr rfl⟩)
    · rcases h.range x reg hx with hreg | hreg | ⟨r', hx', hreg, hW⟩
      · exact .inl hreg
      · exact .inr (.inl hreg)
      · exact .inr (.inr ⟨r', hx', hreg, .inl hW⟩)
  · intro r' hr'
    rw [regMap_assign, Function.update_apply]
    by_cases heq : r' = r
    · rw [heq, if_pos rfl]
      exact ⟨i, hi, hphi, .inl rfl⟩
    · rw [if_neg (fun hx => heq (IRValueRef.instr.inj hx))]
      exact h.written r' (hr'.resolve_right heq)

lemma Tracks.emitImm64 (h : Tracks P fn W t) (hi : P.instrAt r = some i) (hconst : i.isConst = true)
    (value : Word) : Tracks P fn (fun x => W x ∨ x = r) (t.emitImm64 r value).2 := by
  have hphi : i.isPhi = false := by cases i <;> first | rfl | cases hconst
  unfold Translator.emitImm64
  cases hreg : t.regMap (.instr r) with
  | none => exact h.assign hi hphi
  | some reg =>
    constructor
    · exact h.toPhisMapped
    · intro x reg' hx
      rcases h.range x reg' hx with hr | hr | ⟨r', hx', hr, hW⟩
      · exact .inl hr
      · exact .inr (.inl hr)
      · exact .inr (.inr ⟨r', hx', hr, .inl hW⟩)
    · intro r' hr'
      by_cases hW : W r'
      · exact h.written r' hW
      · obtain rfl := hr'.resolve_left hW
        refine ⟨i, hi, hphi, ?_⟩
        rcases h.range _ reg hreg with hr | hr | ⟨r₁, hr₁, hr, hW₁⟩
        · exact .inr ⟨hconst, by rw [hreg, hr]⟩
        · rw [h.phiRegs] at hr
          obtain ⟨r₁, i₁, hr₁, -, hi₁, hphi₁⟩ := phiRegs_eq_some hr
          cases hr₁
          rw [hi] at hi₁
          cases hi₁
          rw [hphi] at hphi₁
          cases hphi₁
        · cases hr₁
          exact absurd hW₁ hW

lemma Tracks.after (h : Tracks P fn W t) (hi : P.instrAt r = some i) :
    Tracks P fn (fun x => W x ∨ (x = r ∧ i.writesResult = true)) (after P t r i) := by
  unfold Proofs.after
  cases hw : i.writesResult with
  | false =>
    rw [if_neg (by simp)]
    exact (h.requestAll _).congr fun x => by simp
  | true =>
    have hphi : i.isPhi = false := by cases i <;> first | rfl | cases hw
    rw [if_pos rfl]
    exact ((h.requestAll _).assign hi hphi).congr fun x => by simp

lemma translateCondBranch_tracks (h : Tracks P fn W t) (cond : IRValueRef) (b₁ b₂ : Nat) :
    Tracks P fn W (translateCondBranch P fn t r cond b₁ b₂ blkIdx).2 := by
  unfold translateCondBranch
  split_ifs
  · split
    · rename_i op ty a b _
      obtain ⟨-, -, hab⟩ := getValue_pair h.toPhisMapped a b
      dsimp only
      rw [hab]
      exact (h.requestAll [a, b]).setDeferred cond false
    · exact h
  · rw [getValue_eq h.toPhisMapped]
    exact h.requestAll [cond]

lemma translateInstr_tracks (h : Tracks P fn W t) : Tracks P fn
    (fun x => W x ∨ (x = r ∧ Writes P defer blkIdx r)) (translateInstr P fn defer t r blkIdx).2 := by
  cases hi : P.instrAt r with
  | none =>
    have hno : ¬ Writes P defer blkIdx r := by
      rintro ⟨i, hi', -⟩
      rw [hi] at hi'
      cases hi'
    unfold translateInstr
    rw [hi]
    exact h.congr fun x => by simp [hno]
  | some i =>
    have hwrites : Writes P defer blkIdx r ↔
        i.writesResult = true ∧ (i.isCompare && defer r blkIdx) = false := by
      unfold Writes
      rw [hi]
      simp
    cases hterm : i.isTerminator with
    | true =>
      have hno : ¬ Writes P defer blkIdx r := by
        rw [hwrites, Instr.writesResult_of_isTerminator hterm]
        simp
      refine Tracks.congr ?_ (fun x => (or_iff_left fun hx => hno hx.2).symm)
      unfold translateInstr
      rw [hi]
      cases i with
      | branch target => exact h
      | condBranch cond b₁ b₂ => exact translateCondBranch_tracks h cond b₁ b₂
      | ret value => exact h
      | _ => cases hterm
    | false =>
      cases hconst : i.isConst with
      | true =>
        have hw : Writes P defer blkIdx r := by
          rw [hwrites, (Instr.writesResult_of_isConst hconst).1,
            (Instr.writesResult_of_isConst hconst).2]
          simp
        refine Tracks.congr ?_ (fun x => by rw [and_iff_left hw])
        unfold translateInstr
        rw [hi]
        cases i with
        | constInt ty value => exact h.emitImm64 hi hconst value
        | constBool value => exact h.emitImm64 hi hconst _
        | _ => cases hconst
      | false =>
        cases hdefer : i.isCompare && defer r blkIdx with
        | true =>
          have hno : ¬ Writes P defer blkIdx r := by
            rw [hwrites, hdefer]
            simp
          refine Tracks.congr ?_ (fun x => (or_iff_left fun hx => hno hx.2).symm)
          rw [Bool.and_eq_true] at hdefer
          rw [translateInstr_deferred hi hdefer.1 hdefer.2]
          exact h.setDeferred _ true
        | false =>
          rw [translateInstr_eq h.toPhisMapped hi hterm hconst fun hcmp => by simpa [hcmp] using hdefer]
          exact (h.after hi).congr fun x => by rw [hwrites, and_iff_left hdefer]

lemma translateInstrs_tracks (refs : List Nat) (h : Tracks P fn W t) : Tracks P fn
    (fun x => W x ∨ (x ∈ refs ∧ Writes P defer blkIdx x))
    (translateInstrs P fn defer blkIdx refs t).2 := by
  induction refs generalizing t W with
  | nil => exact h.congr fun x => by simp
  | cons r rest ih =>
    refine (ih (translateInstr_tracks h)).congr fun x => ?_
    rw [List.mem_cons, or_and_right, or_assoc]
    constructor
    · rintro (hx | ⟨rfl, hx⟩ | hx)
      · exact .inl hx
      · exact .inr (.inl ⟨rfl, hx⟩)
      · exact .inr (.inr hx)
    · rintro (hx | ⟨rfl, hx⟩ | hx)
      · exact .inl hx
      · exact .inr (.inl ⟨rfl, hx⟩)
      · exact .inr (.inr hx)

/-- The instructions of the blocks from index `first` on that leave a result. -/
def WrittenIn (P : IRProgram) (defer : Nat → Nat → Bool) (first : Nat) (blks : List BasicBlock)
    (r : Nat) : Prop :=
  ∃ k blk, blks[k]? = some blk ∧ r ∈ blk.instructions ∧ Writes P defer (first + k) r

lemma writtenIn_cons (first : Nat) (blk : BasicBlock) (blks : List BasicBlock) (x : Nat) :
    WrittenIn P defer first (blk :: blks) x ↔ (x ∈ blk.instructions ∧ Writes P defer first x) ∨
      WrittenIn P defer (first + 1) blks x := by
  constructor
  · rintro ⟨k, blk', hk, hx, hw⟩
    cases k with
    | zero =>
      cases hk
      exact .inl ⟨hx, hw⟩
    | succ k => exact .inr ⟨k, blk', hk, hx, by rwa [Nat.add_assoc, Nat.add_comm 1 k]⟩
  · rintro (⟨hx, hw⟩ | ⟨k, blk', hk, hx, hw⟩)
    · exact ⟨0, blk, rfl, hx, hw⟩
    · exact ⟨k + 1, blk', hk, hx, by rwa [Nat.add_comm k 1, ← Nat.add_assoc]⟩

lemma translateBlocks_tracks (first : Nat) (blks : List BasicBlock) (h : Tracks P fn W t) :
    Tracks P fn (fun x => W x ∨ WrittenIn P defer first blks x)
      (translateBlocks P fn defer first blks t).2 := by
  induction blks generalizing first t W with
  | nil => exact h.congr fun x => by simp [WrittenIn]
  | cons blk rest ih =>
    have hblk : Tracks P fn _ (translateBlock P fn defer t first blk).2 :=
      translateInstrs_tracks blk.instructions h
    exact (ih (first + 1) hblk).congr fun x => by rw [writtenIn_cons, or_assoc]

end

end Proofs

end TidyTuples
