import TidyTuples.Backend.Hosts
import TidyTuples.Proofs.Homes

/-!
# Straight-line code on the hosts

A record with an emission helper leaves on either host what the machine of that host gives for its
opcode. The machines differ in `ZExt` alone.
-/

namespace TidyTuples

open Translator

namespace Arch

/-- The emission helpers for arm64. -/
def arm64 : Arch where
  zExt a := a
  crc32 a b := (crc32c 64 (a.truncate 32) b).zeroExtend 64
  rotateRight shift a := a.rotateRight shift

/-- What the helpers make of the opcodes, on words and byte-addressed memory. -/
def emitted (arch : Arch) : Machine Word (Memory 64) where
  const w := w
  binary op a b :=
    match op with
    | .lAnd => a &&& b
    | .lOr => a ||| b
    | op => arch.evalBinary op a b
  unary op a :=
    match op with
    | .lNot => a ^^^ 1
    | op => arch.evalUnary op a
  rotateRight := arch.rotateRight
  gep byteOffset a := a + (byteOffset.truncate 32).signExtend 64
  truthy a := a != 0
  load ptr mem := mem.load ptr 8
  store ptr v mem := mem.store ptr 8 v
  call _ _ _ := none

end Arch

namespace Host

def arch : Host → Arch
  | .x86 => .x86
  | .arm64 => .arm64

/-- The assembler has an encoding for the code of the record. -/
def encodes (host : Host) : Instr → Bool
  | .rotateRight _ shift => host == .x86 || decide (shift < 64)
  | .gep _ byteOffset =>
    host == .x86 || ArmInstr.isAddSubImm ((byteOffset.truncate 32).signExtend 64)
  | _ => true

/-- The assembler has encodings for a whole line of records. -/
def EncodesLine (host : Host) (P : IRProgram) (refs : List Nat) : Prop :=
  ∀ r ∈ refs, ∀ i, P.instrAt r = some i → host.encodes i = true

end Host

/-- A record with an emission helper for its opcode. -/
def Instr.isLine : Instr → Bool
  | .call _ _ _ => false
  | .binary .store _ _ _ => true
  | i => i.writesResult

namespace IRProgram

variable {V σ : Type} (M : Machine V σ) (P : IRProgram)

/-- Run a list of instructions none of which jumps. -/
def execLine (refs : List Nat) (e : ExecState V σ) : Option (ExecState V σ) :=
  refs.foldlM (fun e r => (P.instrAt r).bind fun i => execInstr M r i e) e

/-- Instructions with emission helpers, each reading instructions before it. -/
structure StraightLine (refs : List Nat) : Prop where
  records : ∀ r ∈ refs, ∃ i, P.instrAt r = some i ∧ i.isLine = true
  sorted : refs.Pairwise (· < ·)
  operands : ∀ r ∈ refs, ∀ o, .instr o ∈ P.readsAt r → o < r

end IRProgram

namespace Proofs

section

variable {host : Host} {s s' : HostState} {dst a b src : VReg}

/-! ### The helpers -/

/-- The helper has written `v` to `dst`, and maybe the flags. -/
structure Wrote (dst : VReg) (v : Word) (s s' : HostState) : Prop where
  regs : s'.regs = Function.update s.regs dst v
  mem : s'.mem = s.mem

lemma setcc_movzx (x : Word) (c : Bool) :
    ((x >>> 8) <<< 8 ||| IRProgram.wordOfBool c).truncate 8 = (IRProgram.wordOfBool c).truncate 8 := by
  apply BitVec.eq_of_getLsbD_eq
  intro i hi
  simp [hi]

lemma truncate_wordOfBool (c : Bool) :
    ((IRProgram.wordOfBool c).truncate 8).zeroExtend 64 = IRProgram.wordOfBool c := by
  cases c <;> rfl

lemma truncate_signExtend (x : BitVec 32) : (x.signExtend 64).truncate 32 = x := by
  apply BitVec.eq_of_getLsbD_eq
  intro i hi
  simp only [BitVec.truncate_eq_setWidth, BitVec.getLsbD_setWidth, BitVec.getLsbD_signExtend, hi,
    show i < 64 by omega, decide_true, Bool.true_and, if_true]

lemma rotateRight_count (x : Word) (shift : Nat) :
    x.rotateRight ((BitVec.ofNat 8 shift).toNat % 64) = x.rotateRight shift := by
  rw [BitVec.toNat_ofNat, ← BitVec.rotateRight_mod_eq_rotateRight (r := shift)]
  congr 1
  omega

lemma effect_movImm (v : Word) : ∃ s', host.effect (.movImm dst v) s = some s' ∧ Wrote dst v s s' := by
  cases host <;> exact ⟨_, rfl, rfl, rfl⟩

/-- x86-64 copies the first operand to the result register, which is a new one. -/
lemma effect_binary (op : Opcode)
    (hop : op ∈ [Opcode.add, .sub, .mul, .xor, .crc32, .and, .or]) (hb : b ≠ dst) : ∃ s', host.effect (.binary op dst a b) s = some s' ∧
      Wrote dst (host.arch.evalBinary op (s.regs a) (s.regs b)) s s' := by
  cases host with
  | x86 =>
    have hmov : (s.set dst (s.regs a)).regs b = s.regs b := Function.update_of_ne hb _ _
    have hdst : (s.set dst (s.regs a)).regs dst = s.regs a := Function.update_self ..
    simp only [List.mem_cons, List.not_mem_nil, or_false] at hop
    rcases hop with rfl | rfl | rfl | rfl | rfl | rfl | rfl <;>
    · refine ⟨_, rfl, ?_, rfl⟩
      simp only [X86.helpers, X86.emitAdd, X86.emitSub, X86.emitMul, X86.emitAnd, X86.emitOr,
        X86.emitXor, X86.emitCrc32, List.foldl_cons, List.foldl_nil, X86Instr.exec, hmov, hdst]
      exact Function.update_idem ..
  | arm64 =>
    simp only [List.mem_cons, List.not_mem_nil, or_false] at hop
    rcases hop with rfl | rfl | rfl | rfl | rfl | rfl | rfl <;> exact ⟨_, rfl, rfl, rfl⟩

/-- A materialised comparison and a fused branch have the same condition code. -/
lemma jumpCode_eq_setCode : X86.jumpCode = X86.setCode ∧ Arm64.jumpCode = Arm64.setCode :=
  ⟨rfl, rfl⟩

/-- The table of either host for the comparisons. -/
lemma condition_eq (op : Opcode) (flags : Word × Word) :
    (X86.setCode op).holds flags = Arch.condition op flags.1 flags.2 ∧
      (Arm64.setCode op).holds flags = Arch.condition op flags.1 flags.2 := by
  cases op <;> exact ⟨rfl, rfl⟩

lemma effect_cmpSet (op : Opcode) : ∃ s', host.effect (.cmpSet op dst a b) s = some s' ∧
    Wrote dst (IRProgram.wordOfBool (Arch.condition op (s.regs a) (s.regs b))) s s' := by
  cases host with
  | x86 =>
    refine ⟨_, rfl, ?_, rfl⟩
    simp only [X86.helpers, X86.emitCmpSet, List.foldl_cons, List.foldl_nil, X86Instr.exec, HostState.set,
      Function.update_self, setcc_movzx, truncate_wordOfBool, (condition_eq op _).1]
    exact Function.update_idem ..
  | arm64 =>
    refine ⟨_, rfl, ?_, rfl⟩
    simp only [Arm64.helpers, Arm64.emitCmpSet, List.foldl_cons, List.foldl_nil, ArmInstr.exec,
      HostState.set, (condition_eq op _).2]

/-- The helper has jumped, or not, and left registers and memory as they were. -/
structure JumpedTo (out : Option Label) (s : HostState) (r : HostState × Option Label) : Prop where
  label : r.2 = out
  regs : r.1.regs = s.regs
  mem : r.1.mem = s.mem

lemma jump_cmp (op : Opcode) (label : Label) : ∃ r, host.jump (.cmpJumpTrue op a b label) s = some r ∧
    JumpedTo (if Arch.condition op (s.regs a) (s.regs b) then some label else none) s r := by
  cases host with
  | x86 =>
    refine ⟨_, rfl, ?_⟩
    simp only [X86.helpers, X86.emitCmpJumpTrue, runTo, X86Instr.exec, X86Instr.target,
      jumpCode_eq_setCode.1, (condition_eq op _).1]
    split_ifs <;> exact ⟨rfl, rfl, rfl⟩
  | arm64 =>
    refine ⟨_, rfl, ?_⟩
    simp only [Arm64.helpers, Arm64.emitCmpJumpTrue, runTo, ArmInstr.exec, ArmInstr.target,
      jumpCode_eq_setCode.2, (condition_eq op _).2]
    split_ifs <;> exact ⟨rfl, rfl, rfl⟩

lemma jump_test (label : Label) : ∃ r, host.jump (.testJumpTrue src label) s = some r ∧
    JumpedTo (if s.regs src != 0 then some label else none) s r := by
  cases host with
  | x86 =>
    refine ⟨_, rfl, ?_⟩
    simp only [X86.helpers, X86.emitTestJumpTrue, runTo, X86Instr.exec, X86Instr.target,
      CondCode.holds, BitVec.and_self]
    split_ifs <;> exact ⟨rfl, rfl, rfl⟩
  | arm64 =>
    refine ⟨_, rfl, ?_⟩
    simp only [Arm64.helpers, Arm64.emitTestJumpTrue, runTo, ArmInstr.exec, ArmInstr.target]
    split_ifs <;> exact ⟨rfl, rfl, rfl⟩

lemma jump_jmp (label : Label) : ∃ r, host.jump (.jmp label) s = some r ∧ JumpedTo (some label) s r := by
  cases host <;> exact ⟨_, rfl, rfl, rfl, rfl⟩

/-- A fused branch jumps where the branch on the materialised comparison does. -/
theorem jump_fused (host : Host) (op : Opcode) (dst a b : VReg) (label : Label) (s : HostState) :
    ∃ s₁ r r', host.effect (.cmpSet op dst a b) s = some s₁ ∧
      host.jump (.testJumpTrue dst label) s₁ = some r ∧
      host.jump (.cmpJumpTrue op a b label) s = some r' ∧ r.2 = r'.2 ∧ r.1.mem = r'.1.mem ∧
      r.1.regs = Function.update r'.1.regs dst
        (IRProgram.wordOfBool (Arch.condition op (s.regs a) (s.regs b))) := by
  obtain ⟨s₁, hs₁, hwrote⟩ := @effect_cmpSet host s dst a b op
  obtain ⟨r, hr, htest⟩ := @jump_test host s₁ dst label
  obtain ⟨r', hr', hcmp⟩ := @jump_cmp host s a b op label
  refine ⟨s₁, r, r', hs₁, hr, hr', ?_, ?_, ?_⟩
  · rw [htest.label, hcmp.label, hwrote.regs, Function.update_self]
    cases Arch.condition op (s.regs a) (s.regs b) <;> rfl
  · rw [htest.mem, hcmp.mem, hwrote.mem]
  · rw [htest.regs, hcmp.regs, hwrote.regs]

/-- On registers that hold words, the host jumps where the target does. -/
theorem jump_target (host : Host) {i : VInstr} {r : HostState × Option Label}
    (h : host.jump i s = some r) (rest : List VInstr) {v : VState Value Heap}
    (hregs : ∀ reg, v.regs reg = .word (s.regs reg)) :
    host.arch.target.execCode (i :: rest) v = match r.2 with
      | some label => .goto label v
      | none => host.arch.target.execCode rest v := by
  cases i with
  | cmpJumpTrue op a b label =>
    obtain ⟨r', hr', hjumped⟩ := @jump_cmp host s a b op label
    cases h.symm.trans hr'
    have hcompare : host.arch.target.compare op (v.regs a) (v.regs b) =
        Arch.condition op (s.regs a) (s.regs b) := by
      rw [hregs, hregs]
      rfl
    rw [Target.execCode, hcompare, hjumped.label]
    split_ifs <;> rfl
  | testJumpTrue cond label =>
    obtain ⟨r', hr', hjumped⟩ := @jump_test host s cond label
    cases h.symm.trans hr'
    have htruthy : host.arch.target.truthy (v.regs cond) = (s.regs cond != 0) := by
      rw [hregs]
      exact host.arch.target.truthy_const (s.regs cond)
    rw [Target.execCode, htruthy, hjumped.label]
    split_ifs <;> rfl
  | jmp label =>
    obtain ⟨r', hr', hjumped⟩ := @jump_jmp host s label
    cases h.symm.trans hr'
    rw [hjumped.label]
    rfl
  | _ => cases host <;> cases h

lemma effect_lnot : ∃ s', host.effect (.lnot dst src) s = some s' ∧
    Wrote dst (s.regs src ^^^ 1) s s' := by
  cases host with
  | x86 =>
    refine ⟨_, rfl, ?_, rfl⟩
    simp only [X86.helpers, X86.emitLnot, List.foldl_cons, List.foldl_nil, X86Instr.exec,
      HostState.set, Function.update_self]
    exact Function.update_idem ..
  | arm64 => exact ⟨_, rfl, rfl, rfl⟩

lemma effect_extend {op : Opcode} (hop : op = .zExt ∨ op = .sExt) :
    ∃ s', host.effect (.extend op dst src) s = some s' ∧
      Wrote dst (host.arch.evalUnary op (s.regs src)) s s' := by
  rcases hop with rfl | rfl <;> cases host <;> exact ⟨_, rfl, rfl, rfl⟩

lemma effect_ror (shift : Nat) : if host == .x86 || decide (shift < 64) then
    ∃ s', host.effect (.ror dst src shift) s = some s' ∧
      Wrote dst (host.arch.rotateRight shift (s.regs src)) s s'
    else host.effect (.ror dst src shift) s = none := by
  cases host with
  | x86 =>
    refine ⟨_, rfl, ?_, rfl⟩
    simp only [X86.helpers, X86.emitRor, List.foldl_cons, List.foldl_nil, X86Instr.exec,
      HostState.set, Function.update_self, rotateRight_count]
    exact Function.update_idem ..
  | arm64 =>
    by_cases hshift : shift < 64
    · rw [if_pos (by simp [hshift])]
      refine ⟨s.set dst ((s.regs src).rotateRight shift), ?_, rfl, rfl⟩
      change (if ([ArmInstr.rorImm dst src shift].all ArmInstr.isEncodable) = true then _ else _) = _
      rw [if_pos (by simpa [ArmInstr.isEncodable] using hshift)]
      rfl
    · rw [if_neg (by simp [hshift])]
      change (if ([ArmInstr.rorImm dst src shift].all ArmInstr.isEncodable) = true then _ else _) = _
      rw [if_neg (by simpa [ArmInstr.isEncodable] using hshift)]

lemma effect_lea (offset : Word) :
    if host == .x86 || ArmInstr.isAddSubImm ((offset.truncate 32).signExtend 64) then
      ∃ s', host.effect (.lea dst src ((offset.truncate 32).signExtend 64)) s = some s' ∧
        Wrote dst (s.regs src + (offset.truncate 32).signExtend 64) s s'
    else host.effect (.lea dst src ((offset.truncate 32).signExtend 64)) s = none := by
  generalize offset.truncate 32 = disp
  cases host with
  | x86 =>
    refine ⟨_, rfl, ?_, rfl⟩
    simp only [X86.helpers, X86.emitLea, List.foldl_cons, List.foldl_nil, X86Instr.exec,
      truncate_signExtend]
    rfl
  | arm64 =>
    have heffect : Host.arm64.effect (.lea dst src (disp.signExtend 64)) s =
        if ArmInstr.isAddSubImm (disp.signExtend 64) = true then
          some (s.set dst (s.regs src + disp.signExtend 64)) else none := by
      change (if ([ArmInstr.addImm dst src (((disp.signExtend 64).truncate 32).signExtend 64)].all
        ArmInstr.isEncodable) = true then some (s.set dst (s.regs src +
          ((disp.signExtend 64).truncate 32).signExtend 64)) else none) = _
      rw [truncate_signExtend, List.all_cons, List.all_nil, Bool.and_true]
      rfl
    rw [heffect]
    cases himm : ArmInstr.isAddSubImm (disp.signExtend 64) with
    | true => exact ⟨_, rfl, rfl, rfl⟩
    | false => rfl

lemma effect_load64 : ∃ s', host.effect (.load64 dst src) s = some s' ∧
    Wrote dst (s.mem.load (s.regs src) 8) s s' := by
  cases host <;> exact ⟨_, rfl, rfl, rfl⟩

lemma effect_store64 : ∃ s', host.effect (.store64 a b) s = some s' ∧ s'.regs = s.regs ∧
    s'.mem = s.mem.store (s.regs a) 8 (s.regs b) := by
  cases host <;> exact ⟨_, rfl, rfl, rfl⟩

end

section

variable {host : Host} {s s' : HostState} {e e' : ExecState Word (Memory 64)} {P : IRProgram}
  {fn : IRFunction} {reg : IRValueRef → VReg} {r : Nat} {i : Instr} {x : IRValueRef}

/-! ### One record -/

/-- The code of a record and its meaning: a result in its register, or a store. -/
structure Stepped (host : Host) (code : List VInstr) (r : Nat) (i : Instr) (s s' : HostState)
    (e e' : ExecState Word (Memory 64)) : Prop where
  run : host.run code s = some s'
  exec : execInstr host.arch.emitted r i e = some e'
  wrote : i.writesResult = true → ∃ v, Wrote (.result r) v s s' ∧ e' = e.setReg r v
  stored : i.writesResult = false → s'.regs = s.regs ∧ e'.regs = e.regs ∧ s'.mem = e'.mem

lemma run_singleton (v : VInstr) : host.run [v] s = host.effect v s := by
  unfold Host.run
  rw [List.foldlM_cons]
  cases host.effect v s <;> rfl

lemma stepped_result {v : VInstr} {w w' : Word} (heffect : ∃ s', host.effect v s = some s' ∧
      Wrote (.result r) w s s') (hexec : execInstr host.arch.emitted r i e = some (e.setReg r w'))
    (hw : w = w') (hresult : i.writesResult = true) :
    ∃ s' e', Stepped host [v] r i s s' e e' := by
  obtain ⟨s', hs', hwrote⟩ := heffect
  subst hw
  refine ⟨s', _, (run_singleton v).trans hs', hexec, fun _ => ⟨w, hwrote, rfl⟩, ?_⟩
  intro hno
  rw [hresult] at hno
  cases hno

/-- The unary opcodes, in a unary or a binary record. -/
lemma stepped_unary (op : Opcode) {a : IRValueRef} (hop : op ∈ [Opcode.lNot, .zExt, .sExt, .load, .isNull])
    (ha : s.regs (reg a) = e.regs a) (hmem : s.mem = e.mem)
    (hexec : execInstr host.arch.emitted r i e =
      some (e.setReg r (host.arch.emitted.evalUnary op (e.regs a) e.mem)))
    (hresult : i.writesResult = true) :
    ∃ s' e', Stepped host (lowerUnary reg r op a) r i s s' e e' := by
  simp only [List.mem_cons, List.not_mem_nil, or_false] at hop
  rcases hop with rfl | rfl | rfl | rfl | rfl
  · exact stepped_result effect_lnot hexec (by rw [ha]; rfl) hresult
  · exact stepped_result (effect_extend (.inl rfl)) hexec (by rw [ha]; rfl) hresult
  · exact stepped_result (effect_extend (.inr rfl)) hexec (by rw [ha]; rfl) hresult
  · exact stepped_result effect_load64 hexec (by rw [ha, hmem]; rfl) hresult
  · exact stepped_result (effect_movImm 0) hexec rfl hresult

/-- On a host whose assembler encodes it, a record does what the machine of the host says. -/
lemma exec_lowerInstr (hline : i.isLine = true) (hfresh : ∀ x ∈ registerReads P i, reg x ≠ .result r)
    (hregs : ∀ x ∈ registerReads P i, s.regs (reg x) = e.regs x) (hmem : s.mem = e.mem) :
    if host.encodes i then ∃ s' e', Stepped host (lowerInstr P reg r i) r i s s' e e'
    else host.run (lowerInstr P reg r i) s = none := by
  cases i with
  | constInt t value => exact stepped_result (effect_movImm value) rfl rfl rfl
  | constBool value => exact stepped_result (effect_movImm _) rfl rfl rfl
  | binary op t a b =>
    cases op with
    | add | sub | mul | xor | crc32 | and | or =>
      have ha := hregs a List.mem_cons_self
      have hb := hregs b (List.mem_cons_of_mem a List.mem_cons_self)
      exact stepped_result (effect_binary _ (by decide)
        (hfresh b (List.mem_cons_of_mem a List.mem_cons_self))) rfl (by rw [ha, hb]; rfl) rfl
    | lAnd =>
      have ha := hregs a List.mem_cons_self
      have hb := hregs b (List.mem_cons_of_mem a List.mem_cons_self)
      exact stepped_result (effect_binary .and (by decide)
        (hfresh b (List.mem_cons_of_mem a List.mem_cons_self))) rfl (by rw [ha, hb]; rfl) rfl
    | lOr =>
      have ha := hregs a List.mem_cons_self
      have hb := hregs b (List.mem_cons_of_mem a List.mem_cons_self)
      exact stepped_result (effect_binary .or (by decide)
        (hfresh b (List.mem_cons_of_mem a List.mem_cons_self))) rfl (by rw [ha, hb]; rfl) rfl
    | cmpEq | cmpNe | cmpLt | cmpGt | cmpLe | cmpGe =>
      have ha := hregs a List.mem_cons_self
      have hb := hregs b (List.mem_cons_of_mem a List.mem_cons_self)
      exact stepped_result (effect_cmpSet _) rfl (by rw [ha, hb]; rfl) rfl
    | store =>
      have ha := hregs a List.mem_cons_self
      have hb := hregs b (List.mem_cons_of_mem a List.mem_cons_self)
      obtain ⟨s', hs', hsregs, hsmem⟩ := @effect_store64 host s (reg a) (reg b)
      refine ⟨s', _, (run_singleton _).trans hs', rfl, nofun, fun _ => ⟨hsregs, rfl, ?_⟩⟩
      rw [hsmem, ha, hb, hmem]
      rfl
    | lNot => exact stepped_unary .lNot (by decide) (hregs a List.mem_cons_self) hmem rfl rfl
    | zExt => exact stepped_unary .zExt (by decide) (hregs a List.mem_cons_self) hmem rfl rfl
    | sExt => exact stepped_unary .sExt (by decide) (hregs a List.mem_cons_self) hmem rfl rfl
    | load => exact stepped_unary .load (by decide) (hregs a List.mem_cons_self) hmem rfl rfl
    | isNull => exact stepped_result (effect_movImm 0) rfl rfl rfl
    | _ => cases hline
  | unary op t a =>
    cases op with
    | lNot => exact stepped_unary .lNot (by decide) (hregs a List.mem_cons_self) hmem rfl rfl
    | zExt => exact stepped_unary .zExt (by decide) (hregs a List.mem_cons_self) hmem rfl rfl
    | sExt => exact stepped_unary .sExt (by decide) (hregs a List.mem_cons_self) hmem rfl rfl
    | load => exact stepped_unary .load (by decide) (hregs a List.mem_cons_self) hmem rfl rfl
    | isNull => exact stepped_result (effect_movImm 0) rfl rfl rfl
    | _ => cases hline
  | rotateRight a shift =>
    have ha := hregs a List.mem_cons_self
    have heffect := @effect_ror host s (.result r) (reg a) shift
    change if host == .x86 || decide (shift < 64) then _ else _
    split_ifs at heffect ⊢ with hencodes
    · exact stepped_result heffect rfl (by rw [ha]; rfl) rfl
    · exact (run_singleton _).trans heffect
  | gep base byteOffset =>
    have ha := hregs base List.mem_cons_self
    have heffect := @effect_lea host s (.result r) (reg base) byteOffset
    change if host == .x86 || ArmInstr.isAddSubImm ((byteOffset.truncate 32).signExtend 64) then _
      else _
    split_ifs at heffect ⊢ with hencodes
    · exact stepped_result heffect rfl (by rw [ha]; rfl) rfl
    · exact (run_singleton _).trans heffect
  | _ => cases hline

/-! ### A line of records -/

variable {t : Translator} {W : Nat → Prop} {defer : Nat → Nat → Bool} {blk : Nat} {refs : List Nat}

lemma isTerminator_of_isLine (h : i.isLine = true) : i.isTerminator = false := by
  cases i <;> first | rfl | cases h

lemma translateInstr_line (ht : PhisMapped P fn t) (hi : P.instrAt r = some i)
    (hline : i.isLine = true) (hconst : i.isConst = true → t.regMap (.instr r) = none)
    (hdefer : i.isCompare = true → defer r blk = false) :
    translateInstr P fn defer t r blk = (lowerInstr P t.regOf r i, after P t r i) := by
  by_cases hc : i.isConst = true
  · have hnone := hconst hc
    unfold translateInstr
    rw [hi]
    cases i with
    | constInt ty value =>
      dsimp only
      rw [Translator.emitImm64, hnone]
      rfl
    | constBool value =>
      dsimp only
      rw [Translator.emitImm64, hnone]
      rfl
    | _ => cases hc
  · exact translateInstr_eq ht hi (isTerminator_of_isLine hline) (by simpa using hc) hdefer

lemma regOf_after_self (h : i.writesResult = true) : (after P t r i).regOf (.instr r) = .result r := by
  rw [Translator.regOf, regMap_after, if_pos ⟨rfl, h⟩]
  rfl

/-- The registers and the memory of a host are those of the records. -/
structure Agrees (t : Translator) (s : HostState) (e : ExecState Word (Memory 64)) : Prop where
  regs : ∀ x, s.regs (t.regOf x) = e.regs x
  mem : s.mem = e.mem

lemma Agrees.step {code : List VInstr} (ht : Tracks P fn W t) (h : Agrees t s e)
    (hstep : Stepped host code r i s s' e e') : Agrees (after P t r i) s' e' := by
  cases hw : i.writesResult with
  | true =>
    obtain ⟨v, hwrote, rfl⟩ := hstep.wrote hw
    constructor
    · intro x
      by_cases hx : x = .instr r
      · rw [hx, regOf_after_self hw, hwrote.regs]
        exact (Function.update_self ..).trans (Function.update_self (IRValueRef.instr r) v e.regs).symm
      · have hreg : t.regOf x ≠ .result r := fun heq => hx (eq_instr_of_regOf ht heq)
        rw [regOf_after hx, hwrote.regs, Function.update_of_ne hreg, h.regs x]
        exact (Function.update_of_ne hx _ _).symm
    · exact hwrote.mem.trans h.mem
  | false =>
    obtain ⟨hregs, heregs, hmem⟩ := hstep.stored hw
    constructor
    · intro x
      rw [after, hw, if_neg Bool.false_ne_true, regOf_requestAll, hregs, heregs, h.regs x]
    · exact hmem

lemma run_append (code code' : List VInstr) :
    host.run (code ++ code') s = (host.run code s).bind (host.run code') := List.foldlM_append

lemma straightLine_tail (h : P.StraightLine (r :: refs)) : P.StraightLine refs where
  records r' hr' := h.records r' (List.mem_cons_of_mem r hr')
  sorted := h.sorted.of_cons
  operands r' hr' := h.operands r' (List.mem_cons_of_mem r hr')

lemma readsAt_of_line (hi : P.instrAt r = some i) (hline : i.isLine = true) :
    P.readsAt r = registerReads P i := by
  unfold IRProgram.readsAt
  rw [hi]
  cases i <;> first | rfl | cases hline

/-- A straight line is refused by the assembler, or it does what the machine of the host says. -/
theorem run_line (hline : P.StraightLine refs)
    (hconst : ∀ r ∈ refs, ∀ i, P.instrAt r = some i → i.isConst = true → t.regMap (.instr r) = none)
    (hdefer : ∀ r ∈ refs, ∀ i, P.instrAt r = some i → i.isCompare = true → defer r blk = false)
    (ht : Tracks P fn W t) (h : Agrees t s e) :
    (host.EncodesLine P refs → ∃ s' e', host.run (translateInstrs P fn defer blk refs t).1 s = some s' ∧
      P.execLine host.arch.emitted refs e = some e' ∧
      Agrees (translateInstrs P fn defer blk refs t).2 s' e') ∧
    (¬ host.EncodesLine P refs → host.run (translateInstrs P fn defer blk refs t).1 s = none) := by
  induction refs generalizing t W s e with
  | nil =>
    refine ⟨fun _ => ⟨s, e, rfl, rfl, h⟩, fun hno => ?_⟩
    exact absurd (fun r hr => (List.not_mem_nil hr).elim) hno
  | cons r rest ih =>
    obtain ⟨i, hi, hlinei⟩ := hline.records r List.mem_cons_self
    have hreads := readsAt_of_line hi hlinei
    have hoperands := hline.operands r List.mem_cons_self
    have htranslate : translateInstr P fn defer t r blk =
        (lowerInstr P t.regOf r i, after P t r i) :=
      translateInstr_line ht.toPhisMapped hi hlinei (hconst r List.mem_cons_self i hi)
        (hdefer r List.mem_cons_self i hi)
    have hcode : translateInstrs P fn defer blk (r :: rest) t =
        (lowerInstr P t.regOf r i ++ (translateInstrs P fn defer blk rest (after P t r i)).1,
          (translateInstrs P fn defer blk rest (after P t r i)).2) := by
      rw [translateInstrs, htranslate]
    have hstep := @exec_lowerInstr host s e P t.regOf r i hlinei (fun x hx hreg => by
      have hself := eq_instr_of_regOf ht hreg
      rw [hself, ← hreads] at hx
      exact absurd (hoperands r hx) (Nat.lt_irrefl r)) (fun x _ => h.regs x) h.mem
    have hafter := ht.after hi
    have hrest : ∀ r' ∈ rest, ∀ i', P.instrAt r' = some i' → i'.isConst = true →
        (after P t r i).regMap (.instr r') = none := by
      intro r' hr' i' hi' hc'
      have hlt := (List.pairwise_cons.mp hline.sorted).1 r' hr'
      have hne : IRValueRef.instr r' ≠ .instr r := by
        rintro ⟨⟩
        exact absurd hlt (Nat.lt_irrefl _)
      have hnot : IRValueRef.instr r' ∉ registerReads P i := by
        rw [← hreads]
        intro hmem
        exact absurd (hoperands r' hmem) (by omega)
      rw [regMap_after, if_neg fun hh => hne hh.1, if_neg hnot]
      exact hconst r' (List.mem_cons_of_mem r hr') i' hi' hc'
    have hih := fun s e (hagrees : Agrees (after P t r i) s e) =>
      ih (s := s) (e := e) (straightLine_tail hline) hrest
        (fun r' hr' => hdefer r' (List.mem_cons_of_mem r hr')) hafter hagrees
    rw [hcode]
    dsimp only
    rw [run_append]
    split_ifs at hstep with hencodes
    · obtain ⟨s₁, e₁, hstep⟩ := hstep
      rw [hstep.run, Option.bind_some]
      obtain ⟨hyes, hno⟩ := hih s₁ e₁ (h.step ht hstep)
      constructor
      · intro hall
        obtain ⟨s', e', hs', he', hagrees⟩ := hyes fun r' hr' => hall r' (List.mem_cons_of_mem r hr')
        refine ⟨s', e', hs', ?_, hagrees⟩
        unfold IRProgram.execLine
        rw [List.foldlM_cons, hi, Option.bind_some, hstep.exec]
        exact he'
      · intro hnot
        apply hno
        intro hall
        apply hnot
        intro r' hr' i' hi'
        rcases List.mem_cons.mp hr' with rfl | hr'
        · rw [hi] at hi'
          cases hi'
          exact hencodes
        · exact hall r' hr' i' hi'
    · rw [hstep]
      exact ⟨fun hall => absurd (hall r List.mem_cons_self i hi) hencodes, fun _ => rfl⟩

end

end Proofs

end TidyTuples
