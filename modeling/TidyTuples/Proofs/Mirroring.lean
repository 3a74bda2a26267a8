import TidyTuples.Proofs.Emission
import TidyTuples.Proofs.ExecutedCode

/-!
# Registers that mirror IR values

In a run of the code that reads no register before it is written, the home of every value that has
been computed holds what the IR interpreter computes for it.
-/

namespace TidyTuples

/-- A block's entry cannot be observed in the code. -/
def Event.isEnter {V : Type} : Event V → Bool
  | enter _ => true
  | _ => false

/-- The stores and calls. -/
def visible {V : Type} (trace : List (Event V)) : List (Event V) :=
  trace.filter fun e => !e.isEnter

/-- The same memory, and the same stores and calls so far. -/
structure SameEffects {V σ : Type} (s : ExecState V σ) (v : VState V σ) : Prop where
  mem : v.mem = s.mem
  trace : v.trace = visible s.trace

open IRProgram

/-- Logical connectives on 0 and 1; what the code does instead agrees there. -/
structure Target.Logical {V σ : Type} (M : Target V σ) : Prop where
  lAnd : ∀ a b, M.binary .lAnd (M.const (wordOfBool a)) (M.const (wordOfBool b)) =
    M.const (wordOfBool (a && b))
  lOr : ∀ a b, M.binary .lOr (M.const (wordOfBool a)) (M.const (wordOfBool b)) =
    M.const (wordOfBool (a || b))
  lNot : ∀ a, M.unary .lNot (M.const (wordOfBool a)) = M.const (wordOfBool !a)
  and : ∀ a b, M.binary .and (M.const (wordOfBool a)) (M.const (wordOfBool b)) =
    M.const (wordOfBool (a && b))
  or : ∀ a b, M.binary .or (M.const (wordOfBool a)) (M.const (wordOfBool b)) =
    M.const (wordOfBool (a || b))
  xor : ∀ a, M.binary .xor (M.const (wordOfBool a)) (M.const 1) = M.const (wordOfBool !a)

namespace IRProgram

variable (P : IRProgram)

/-- The operand is 0 or 1. -/
def isBooleanRef (x : IRValueRef) : Bool := ((P.getInstr x).map Instr.isBoolean).getD false

/-- The instruction does in the code what it does in the IR. Connectives need operands that are 0
or 1, and the offset of an address 32 bits. -/
def HasCode : Instr → Prop
  | .binary op _ a b =>
    match op with
    | .lAnd | .lOr => P.isBooleanRef a = true ∧ P.isBooleanRef b = true
    | .lNot => P.isBooleanRef a = true
    | .add | .sub | .mul | .xor | .crc32 | .and | .or | .store | .zExt | .sExt | .load
    | .cmpEq | .cmpNe | .cmpLt | .cmpGt | .cmpLe | .cmpGe => True
    | _ => False
  | .unary op _ a =>
    match op with
    | .lNot => P.isBooleanRef a = true
    | .zExt | .sExt | .load => True
    | _ => False
  | .gep _ byteOffset => (byteOffset.truncate 32).signExtend 64 = byteOffset
  | _ => True

end IRProgram

namespace Proofs

open Translator

/-- Of the registers in `written` the homes hold the IR values. Constants have theirs throughout,
and a comparison of `D` has no register. -/
structure Mirrors {V σ : Type} (M : Target V σ) (P : IRProgram) (D : Nat → Prop)
    (written : List VReg) (s : ExecState V σ) (v : VState V σ) : Prop extends SameEffects s v where
  homes : ∀ x, home P x ∈ written → v.regs (home P x) = s.regs x
  unrequested : ∀ x, .requested x ∉ written
  deferred : ∀ c, D c → .result c ∉ written
  consts : ∀ x w, P.constIntValue x = some w → s.regs x = M.const w
  booleans : ∀ x, P.isBooleanRef x = true → home P x ∈ written →
    ∃ b, s.regs x = M.const (wordOfBool b)

section

variable {V σ : Type} {M : Target V σ} {P : IRProgram} {fn : IRFunction} {t : Translator}
  {D : Nat → Prop} {W W' : List VReg} {X : Nat → Prop} {s s' : ExecState V σ} {v v' : VState V σ} {r : Nat}
  {i : Instr} {x : IRValueRef}

lemma home_ne_argument (x : IRValueRef) (c k : Nat) : home P x ≠ .argument c k := by
  cases x with
  | instr r =>
    intro h
    change (if P.isPhiAt r then VReg.phi r else .result r) = _ at h
    split_ifs at h
  | null =>
    intro h
    cases h
  | param f k =>
    intro h
    cases h

lemma home_of_notPhi (hi : P.instrAt r = some i) (hphi : i.isPhi = false) :
    home P (.instr r) = .result r := by
  refine if_neg ?_
  rw [IRProgram.isPhiAt, hi]
  exact ne_true_of_eq_false hphi

lemma eq_instr_of_home_eq (h : home P x = home P (.instr r)) : x = .instr r := by
  cases x with
  | instr r' =>
    change (if P.isPhiAt r' then VReg.phi r' else .result r') =
      if P.isPhiAt r then VReg.phi r else .result r at h
    split_ifs at h
    · rw [VReg.phi.inj h]
    · rw [VReg.result.inj h]
  | null =>
    change VReg.requested _ = if P.isPhiAt r then VReg.phi r else .result r at h
    split_ifs at h
  | param f k =>
    change VReg.requested _ = if P.isPhiAt r then VReg.phi r else .result r at h
    split_ifs at h

lemma home_ne_requested_instr (r : Nat) (x : IRValueRef) : home P (.instr r) ≠ .requested x := by
  intro h
  change (if P.isPhiAt r then VReg.phi r else .result r) = _ at h
  split_ifs at h

/-- The registers for arguments do not matter. -/
lemma Mirrors.congr (h : Mirrors M P D W s v)
    (hW : ∀ reg, (∀ c k, reg ≠ .argument c k) → (reg ∈ W' ↔ reg ∈ W))
    (hmem : v'.mem = v.mem) (htrace : v'.trace = v.trace)
    (hregs : ∀ reg, (∀ c k, reg ≠ .argument c k) → v'.regs reg = v.regs reg) :
    Mirrors M P D W' s v' := by
  have hhome : ∀ x, home P x ∈ W' ↔ home P x ∈ W := fun x => hW _ (home_ne_argument x)
  constructor
  · exact ⟨hmem.trans h.mem, htrace.trans h.trace⟩
  · intro x hx
    rw [hregs _ (home_ne_argument x)]
    exact h.homes x ((hhome x).mp hx)
  · intro x hx
    exact h.unrequested x ((hW (.requested x) fun c k heq => nomatch heq).mp hx)
  · intro c hc hx
    exact h.deferred c hc ((hW (.result c) fun c k heq => nomatch heq).mp hx)
  · exact h.consts
  · intro x hbool hx
    exact h.booleans x hbool ((hhome x).mp hx)

/-- An operand in a written register is read as in the IR. -/
lemma Mirrors.read (h : Mirrors M P D W s v) (ht : Tracks P fn X t) (hmem : t.regOf x ∈ W) :
    v.regs (t.regOf x) = s.regs x ∧ home P x ∈ W := by
  rcases regOf_cases ht x with hx | hx
  · rw [hx] at hmem ⊢
    exact ⟨h.homes x hmem, hmem⟩
  · rw [hx] at hmem
    exact absurd hmem (h.unrequested x)

lemma Mirrors.readBoolean (h : Mirrors M P D W s v) (ht : Tracks P fn X t) (hmem : t.regOf x ∈ W)
    (hbool : P.isBooleanRef x = true) : ∃ b, s.regs x = M.const (wordOfBool b) :=
  h.booleans x hbool (h.read ht hmem).2

/-- A value in its home. -/
lemma Mirrors.setHome (h : Mirrors M P D W s v) (r : Nat) {value : V}
    (hD : ∀ c, D c → home P (.instr r) ≠ .result c)
    (hconst : ∀ w, P.constIntValue (.instr r) = some w → value = M.const w)
    (hbool : P.isBooleanRef (.instr r) = true → ∃ b, value = M.const (wordOfBool b)) :
    Mirrors M P D (home P (.instr r) :: W) (s.setReg r value)
      (v.setReg (home P (.instr r)) value) := by
  have hother : ∀ x, x ≠ .instr r → home P x ∈ home P (.instr r) :: W → home P x ∈ W :=
    fun x hx hmem => (List.mem_cons.mp hmem).resolve_left fun heq => hx (eq_instr_of_home_eq heq)
  constructor
  · exact ⟨h.mem, h.trace⟩
  · intro x hmem
    change Function.update v.regs (home P (.instr r)) value (home P x) =
      Function.update s.regs (.instr r) value x
    by_cases hx : x = .instr r
    · rw [hx, Function.update_self, Function.update_self]
    · rw [Function.update_of_ne fun heq => hx (eq_instr_of_home_eq heq), Function.update_of_ne hx]
      exact h.homes x (hother x hx hmem)
  · intro x hmem
    exact h.unrequested x ((List.mem_cons.mp hmem).resolve_left
      (home_ne_requested_instr r x).symm)
  · intro c hc hmem
    exact h.deferred c hc ((List.mem_cons.mp hmem).resolve_left (hD c hc).symm)
  · intro x w hw
    change Function.update s.regs (.instr r) value x = _
    by_cases hx : x = .instr r
    · rw [hx, Function.update_self]
      exact hconst w (hx ▸ hw)
    · rw [Function.update_of_ne hx]
      exact h.consts x w hw
  · intro x hbool' hmem
    change ∃ b, Function.update s.regs (.instr r) value x = _
    by_cases hx : x = .instr r
    · rw [hx, Function.update_self]
      exact hbool (hx ▸ hbool')
    · rw [Function.update_of_ne hx]
      exact h.booleans x hbool' (hother x hx hmem)

/-- A result in its register. -/
lemma Mirrors.setResult (h : Mirrors M P D W s v) (hi : P.instrAt r = some i)
    (hphi : i.isPhi = false) (hD : ¬ D r) {value : V}
    (hconst : ∀ w, P.constIntValue (.instr r) = some w → value = M.const w)
    (hbool : i.isBoolean = true → ∃ b, value = M.const (wordOfBool b)) :
    Mirrors M P D (.result r :: W) (s.setReg r value) (v.setReg (.result r) value) := by
  have hhome := home_of_notPhi hi hphi
  rw [← hhome]
  refine h.setHome r (fun c hc heq => ?_) hconst fun hb => hbool ?_
  · rw [hhome] at heq
    exact hD (VReg.result.inj heq ▸ hc)
  · rwa [IRProgram.isBooleanRef, IRProgram.getInstr, hi] at hb

/-- A result that has no register: a comparison that waits for its branch. -/
lemma Mirrors.setUnwritten (h : Mirrors M P D W s v) (hi : P.instrAt r = some i)
    (hphi : i.isPhi = false) (hrun : i.isConst = false) (hD : D r) (value : V) :
    Mirrors M P D W (s.setReg r value) v := by
  have hne : ∀ x, home P x ∈ W → x ≠ .instr r := by
    rintro x hmem rfl
    rw [home_of_notPhi hi hphi] at hmem
    exact h.deferred r hD hmem
  constructor
  · exact ⟨h.mem, h.trace⟩
  · intro x hmem
    change _ = Function.update s.regs (.instr r) value x
    rw [Function.update_of_ne (hne x hmem)]
    exact h.homes x hmem
  · exact h.unrequested
  · exact h.deferred
  · intro x w hw
    change Function.update s.regs (.instr r) value x = _
    rw [Function.update_of_ne]
    · exact h.consts x w hw
    · rintro rfl
      rw [IRProgram.constIntValue_runTime hi hrun] at hw
      cases hw
  · intro x hbool hmem
    change ∃ b, Function.update s.regs (.instr r) value x = _
    rw [Function.update_of_ne (hne x hmem)]
    exact h.booleans x hbool hmem

end

section

variable {V σ : Type} {M : Target V σ} {P : IRProgram} {fn : IRFunction} {t : Translator}
  {D : Nat → Prop} {W : List VReg} {X : Nat → Prop} {s s' : ExecState V σ} {v : VState V σ} {r : Nat} {i : Instr}

/-! ### One instruction -/

lemma argumentCode_runs (call index : Nat) (args : List IRValueRef) (v : VState V σ) :
    ∃ v', Runs M (argumentCode P call index args) v v' ∧ v'.mem = v.mem ∧ v'.trace = v.trace ∧
      (∀ reg, (∀ k, index ≤ k → reg ≠ .argument call k) → v'.regs reg = v.regs reg) ∧
      ∀ k arg w, args[k]? = some arg → P.constIntValue arg = some w →
        v'.regs (.argument call (index + k)) = M.const w := by
  induction args generalizing index v with
  | nil => exact ⟨v, runs_nil, rfl, rfl, fun _ _ => rfl, fun k arg w hk => nomatch hk⟩
  | cons arg rest ih =>
    have hcode : argumentCode P call index (arg :: rest) =
        ((P.constIntValue arg).map (VInstr.movImm (.argument call index))).toList ++
          argumentCode P call (index + 1) rest := by
      unfold argumentCode
      rw [List.zipIdx_cons, List.filterMap_cons]
      dsimp only
      cases P.constIntValue arg <;> rfl
    rw [hcode]
    cases hconst : P.constIntValue arg with
    | none =>
      obtain ⟨v', hruns, hmem, htrace, hregs, hargs⟩ := ih (index + 1) v
      refine ⟨v', hruns, hmem, htrace, fun reg hreg => hregs reg fun k hk => hreg k (by omega), ?_⟩
      intro k arg' w hk hw
      cases k with
      | zero =>
        cases hk
        rw [hconst] at hw
        cases hw
      | succ k =>
        rw [← Nat.add_assoc, Nat.add_right_comm]
        exact hargs k arg' w hk hw
    | some value =>
      obtain ⟨v', hruns, hmem, htrace, hregs, hargs⟩ :=
        ih (index + 1) (v.setReg (.argument call index) (M.const value))
      refine ⟨v', (runs_straight rfl rfl).append hruns, hmem, htrace, fun reg hreg => ?_, ?_⟩
      · rw [hregs reg fun k hk => hreg k (by omega)]
        exact Function.update_of_ne (hreg index le_rfl) _ _
      · intro k arg' w hk hw
        cases k with
        | zero =>
          cases hk
          rw [hconst] at hw
          cases hw
          rw [Nat.add_zero, hregs _ fun k hk heq => by
            have := (VReg.argument.inj heq).2
            omega]
          exact Function.update_self _ _ _
        | succ k =>
          rw [← Nat.add_assoc, Nat.add_right_comm]
          exact hargs k arg' w hk hw

/-- The argument registers of a call hold the IR values of its arguments. -/
lemma map_argumentReg (h : Mirrors M P D W s v) (ht : Tracks P fn X t) {call : Nat}
    {args : List IRValueRef} {v' : VState V σ}
    (hregs : ∀ reg, (∀ k, 0 ≤ k → reg ≠ .argument call k) → v'.regs reg = v.regs reg)
    (hargs : ∀ k arg w, args[k]? = some arg → P.constIntValue arg = some w →
      v'.regs (.argument call (0 + k)) = M.const w)
    (hW : ∀ reg ∈ (args.zipIdx 0).map fun (arg, k) => argumentReg P t.regOf call k arg,
      (∀ c k, reg ≠ .argument c k) → reg ∈ W) :
    ((args.zipIdx 0).map fun (arg, k) => argumentReg P t.regOf call k arg).map v'.regs =
      args.map s.regs := by
  apply List.ext_getElem?
  intro k
  rw [List.getElem?_map, List.getElem?_map, List.getElem?_map, List.getElem?_zipIdx]
  cases hk : args[k]? with
  | none => rfl
  | some arg =>
    simp only [Option.map_some, Nat.zero_add, Option.some.injEq]
    have hmem : argumentReg P t.regOf call k arg ∈
        (args.zipIdx 0).map fun (arg, k) => argumentReg P t.regOf call k arg :=
      List.mem_map.mpr ⟨(arg, k), List.mem_zipIdx_iff_getElem?.mpr hk, rfl⟩
    have hread := hW _ hmem
    unfold argumentReg at hread ⊢
    cases hconst : P.constIntValue arg with
    | some w =>
      have harg := hargs k arg w hk hconst
      rw [Nat.zero_add] at harg
      exact harg.trans (h.consts arg w hconst).symm
    | none =>
      rw [hconst] at hread
      change v'.regs (t.regOf arg) = s.regs arg
      rw [hregs _ fun k _ => regOf_ne_argument ht call k]
      exact (h.read ht (hread fun c k => regOf_ne_argument ht c k)).1

/-- Code of one instruction that writes a result. -/
lemma Mirrors.result (h : Mirrors M P D W s v) (hi : P.instrAt r = some i)
    (hphi : i.isPhi = false) (hrun : i.isConst = false) (hD : ¬ D r) {c : VInstr} {value : V}
    (hstraight : c.isStraight = true) (hwrites : c.writes = some (.result r))
    (hexec : M.execVInstr c v = some (v.setReg (.result r) value))
    (hbool : i.isBoolean = true → ∃ b, value = M.const (wordOfBool b)) :
    ∃ v', Runs M [c] v v' ∧ Mirrors M P D (writtenBy W [c]) (s.setReg r value) v' := by
  refine ⟨_, runs_straight hstraight hexec, ?_⟩
  have hW : writtenBy W [c] = .result r :: W := by
    change c.writes.toList ++ W = _
    rw [hwrites]
    rfl
  rw [hW]
  refine h.setResult hi hphi hD (fun w hw => ?_) hbool
  rw [IRProgram.constIntValue_runTime hi hrun] at hw
  cases hw

/-- A unary opcode, in a record of either layout. -/
lemma lowerUnary_mirrors (op : Opcode) (hM : M.Logical) (h : Mirrors M P D W s v) (ht : Tracks P fn X t)
    (hi : P.instrAt r = some i) (hphi : i.isPhi = false) (hrun : i.isConst = false) (hD : ¬ D r)
    (hbool : i.isBoolean = false) {a : IRValueRef}
    (hcode : P.HasCode (.unary op .void a)) (hW : WrittenFirst W (lowerUnary t.regOf r op a)) :
    ∃ v', Runs M (lowerUnary t.regOf r op a) v v' ∧
      Mirrors M P D (writtenBy W (lowerUnary t.regOf r op a))
        (s.setReg r (M.evalUnary op (s.regs a) s.mem)) v' := by
  have hnot : i.isBoolean = true → ∃ b, M.evalUnary op (s.regs a) s.mem =
      M.const (wordOfBool b) := fun h => by rw [hbool] at h; cases h
  have hread : t.regOf a ∈ W → v.regs (t.regOf a) = s.regs a := fun hmem => (h.read ht hmem).1
  cases op with
  | zExt | sExt =>
    obtain ⟨hmem, -⟩ := hW
    refine h.result hi hphi hrun hD rfl rfl ?_ hnot
    rw [← hread (hmem _ List.mem_cons_self)]
    rfl
  | load =>
    obtain ⟨hmem, -⟩ := hW
    refine h.result hi hphi hrun hD rfl rfl ?_ hnot
    rw [← hread (hmem _ List.mem_cons_self), ← h.mem]
    rfl
  | lNot =>
    obtain ⟨hmem, -⟩ := hW
    have hin := hmem _ List.mem_cons_self
    obtain ⟨b, hb⟩ := h.readBoolean ht hin hcode
    refine h.result hi hphi hrun hD rfl rfl ?_ hnot
    change some (v.setReg (.result r) (M.binary .xor (v.regs (t.regOf a)) (M.const 1))) =
      some (v.setReg (.result r) (M.unary .lNot (s.regs a)))
    rw [hread hin, hb, hM.xor, hM.lNot]
  | _ => exact hcode.elim

/-- A store or a call. -/
lemma Mirrors.effect {v' : VState V σ} (h : Mirrors M P D W s v) {mem : σ} {e : Event V}
    (he : e.isEnter = false) (hmem : v'.mem = mem) (htrace : v'.trace = v.trace ++ [e])
    (hregs : v'.regs = v.regs) : Mirrors M P D W ({ s with mem }.emitEvent e) v' := by
  constructor
  · constructor
    · exact hmem
    · change v'.trace = visible (s.trace ++ [e])
      rw [htrace, h.trace, visible, visible, List.filter_append, List.filter_cons_of_pos (by simp [he]),
        List.filter_nil]
  · intro x hx
    rw [hregs]
    exact h.homes x hx
  · exact h.unrequested
  · exact h.deferred
  · exact h.consts
  · exact h.booleans

/-- A call that is not stuck. -/
lemma call_mirrors (h : Mirrors M P D W s v) (ht : Tracks P fn X t) {ty : IRType}
    {callee : RuntimeFn} {args : List IRValueRef} (hi : P.instrAt r = some (.call ty callee args))
    (hD : ¬ D r)
    (hW : WrittenFirst W (lowerInstr P t.regOf r (.call ty callee args))) :
    (∀ s', execInstr M.toMachine r (.call ty callee args) s = some s' → ∃ v',
      Runs M (lowerInstr P t.regOf r (.call ty callee args)) v v' ∧
      Mirrors M P D (writtenBy W (lowerInstr P t.regOf r (.call ty callee args))) s' v') ∧
    (execInstr M.toMachine r (.call ty callee args) s = none → ∃ v',
      Halts M (lowerInstr P t.regOf r (.call ty callee args)) v v' ∧ SameEffects s v') := by
  obtain ⟨v₁, hruns, hmem, htrace, hregs, hargs⟩ := argumentCode_runs (M := M) (P := P) r 0 args v
  let regs := (args.zipIdx 0).map fun (arg, k) => argumentReg P t.regOf r k arg
  let result : Option VReg := if ty = .void then none else some (.result r)
  have hcode : lowerInstr P t.regOf r (.call ty callee args) =
    argumentCode P r 0 args ++ [.invoke callee regs result] := rfl
  rw [hcode] at hW ⊢
  obtain ⟨-, hreads, -⟩ := writtenFirst_append.mp hW
  -- only argument registers have been written
  have hwritten : ∀ reg, (∀ c k, reg ≠ .argument c k) →
      (reg ∈ writtenBy W (argumentCode P r 0 args) ↔ reg ∈ W) := by
    intro reg hreg
    rw [mem_writtenBy]
    refine or_iff_left ?_
    rintro ⟨c, hc, hwrites⟩
    obtain ⟨⟨arg, k⟩, -, hw⟩ := List.mem_filterMap.mp hc
    obtain ⟨w, -, rfl⟩ := Option.map_eq_some_iff.mp hw
    exact hreg r k (Option.some.inj hwrites).symm
  have hvalues : regs.map v₁.regs = args.map s.regs :=
    map_argumentReg h ht hregs hargs fun reg hmem hreg => (hwritten reg hreg).mp (hreads reg hmem)
  have h₁ : Mirrors M P D (writtenBy W (argumentCode P r 0 args)) s v₁ :=
    h.congr hwritten hmem htrace fun reg hreg => hregs reg fun k _ => hreg r k
  have hexec : M.execVInstr (.invoke callee regs result) v₁ =
      (M.call callee (args.map s.regs) s.mem).map fun p =>
        let v₂ : VState V σ := { v₁ with mem := p.2, trace := v₁.trace ++ [.call callee (args.map s.regs)] }
        result.elim v₂ fun reg => v₂.setReg reg p.1 := by
    unfold Target.execVInstr
    dsimp only
    rw [hvalues, h₁.mem]
    cases M.call callee (args.map s.regs) s.mem with
    | none => rfl
    | some p => cases result <;> rfl
  rw [writtenBy_append]
  unfold execInstr
  dsimp only
  cases hcall : M.call callee (args.map s.regs) s.mem with
  | none =>
    rw [hcall, Option.map_none] at hexec
    exact ⟨fun _ hs' => (nomatch hs'), fun _ =>
      ⟨v₁, hruns.halts (halts_straight rfl hexec), h₁.toSameEffects⟩⟩
  | some p =>
    rw [hcall, Option.map_some] at hexec
    refine ⟨fun s' hs' => ?_, fun hnone => nomatch hnone⟩
    refine ⟨_, hruns.append (runs_straight rfl hexec), ?_⟩
    cases hs'
    have h₂ : Mirrors M P D (writtenBy W (argumentCode P r 0 args))
        ({ s with mem := p.2 }.emitEvent (.call callee (args.map s.regs)))
        { v₁ with mem := p.2, trace := v₁.trace ++ [.call callee (args.map s.regs)] } :=
      h₁.effect rfl rfl rfl rfl
    change Mirrors M P D (result.toList ++ _) _ _
    by_cases hty : ty = .void
    · have hnone : result = none := if_pos hty
      rw [if_pos hty, hnone]
      exact h₂
    · have hsome : result = some (.result r) := if_neg hty
      rw [if_neg hty, hsome]
      refine h₂.setResult hi rfl hD (fun w hw => ?_) fun hbool => nomatch hbool
      rw [IRProgram.constIntValue_runTime hi rfl] at hw
      cases hw

/-- The code of an instruction does what the instruction does. -/
lemma lowerInstr_mirrors (hM : M.Logical) (h : Mirrors M P D W s v) (ht : Tracks P fn X t)
    (hi : P.instrAt r = some i) (hterm : i.isTerminator = false) (hphi : i.isPhi = false)
    (hrun : i.isConst = false) (hcode : P.HasCode i) (hD : ¬ D r)
    (hW : WrittenFirst W (lowerInstr P t.regOf r i)) :
    (∀ s', execInstr M.toMachine r i s = some s' → ∃ v', Runs M (lowerInstr P t.regOf r i) v v' ∧
      Mirrors M P D (writtenBy W (lowerInstr P t.regOf r i)) s' v') ∧
    (execInstr M.toMachine r i s = none → ∃ v', Halts M (lowerInstr P t.regOf r i) v v' ∧
      SameEffects s v') := by
  have hread : ∀ {x}, t.regOf x ∈ W → v.regs (t.regOf x) = s.regs x := fun hmem =>
    (h.read ht hmem).1
  cases i with
  | constInt ty value => cases hrun
  | constBool value => cases hrun
  | branch target => cases hterm
  | condBranch cond b₁ b₂ => cases hterm
  | ret value => cases hterm
  | phi ty entries => cases hphi
  | call ty callee args => exact call_mirrors h ht hi hD hW
  | rotateRight a shift =>
    refine ⟨fun s' hs' => ?_, fun hnone => nomatch hnone⟩
    cases hs'
    refine h.result hi rfl rfl hD rfl rfl ?_ fun hbool => nomatch hbool
    rw [← hread (hW.1 _ List.mem_cons_self)]
    rfl
  | gep base byteOffset =>
    refine ⟨fun s' hs' => ?_, fun hnone => nomatch hnone⟩
    cases hs'
    refine h.result hi rfl rfl hD rfl rfl ?_ fun hbool => nomatch hbool
    rw [← hread (hW.1 _ List.mem_cons_self)]
    change some (v.setReg (.result r) (M.gep ((byteOffset.truncate 32).signExtend 64) _)) = _
    rw [hcode]
  | unary op ty a =>
    have hunary : op.isUnary = true := by
      cases op <;> first | rfl | exact hcode.elim
    refine ⟨fun s' hs' => ?_, fun hnone => ?_⟩
    · simp only [execInstr, hunary, if_true, Option.some.injEq] at hs'
      subst hs'
      exact lowerUnary_mirrors op hM h ht hi rfl rfl hD rfl hcode hW
    · simp only [execInstr, hunary, if_true] at hnone
      cases hnone
  | binary op ty a b =>
    have hpair : ∀ c : VInstr, c.reads = [t.regOf a, t.regOf b] → WrittenFirst W [c] →
        t.regOf a ∈ W ∧ t.regOf b ∈ W := by
      intro c hc hclean
      refine ⟨hclean.1 _ ?_, hclean.1 _ ?_⟩ <;> simp [hc]
    cases op with
    | add | sub | mul | xor | crc32 | and | or =>
      obtain ⟨ha, hb⟩ := hpair _ rfl hW
      refine ⟨fun s' hs' => ?_, fun hnone => nomatch hnone⟩
      cases hs'
      refine h.result hi rfl rfl hD rfl rfl ?_ fun hbool => nomatch hbool
      rw [← hread ha, ← hread hb]
      rfl
    | cmpEq | cmpNe | cmpLt | cmpGt | cmpLe | cmpGe =>
      obtain ⟨ha, hb⟩ := hpair _ rfl hW
      refine ⟨fun s' hs' => ?_, fun hnone => nomatch hnone⟩
      cases hs'
      refine h.result hi rfl rfl hD rfl rfl ?_ fun _ => ⟨_, M.binary_compare _ _ _ rfl⟩
      rw [← hread ha, ← hread hb, M.binary_compare _ _ _ rfl]
      rfl
    | lAnd =>
      obtain ⟨ha, hb⟩ := hpair _ rfl hW
      obtain ⟨x, hx⟩ := h.readBoolean ht ha hcode.1
      obtain ⟨y, hy⟩ := h.readBoolean ht hb hcode.2
      refine ⟨fun s' hs' => ?_, fun hnone => nomatch hnone⟩
      cases hs'
      refine h.result hi rfl rfl hD rfl rfl ?_ fun _ => ⟨x && y, by rw [hx, hy, hM.lAnd]⟩
      change some (v.setReg (.result r) (M.binary .and (v.regs (t.regOf a)) (v.regs (t.regOf b)))) = _
      rw [hread ha, hread hb, hx, hy, hM.and, hM.lAnd]
    | lOr =>
      obtain ⟨ha, hb⟩ := hpair _ rfl hW
      obtain ⟨x, hx⟩ := h.readBoolean ht ha hcode.1
      obtain ⟨y, hy⟩ := h.readBoolean ht hb hcode.2
      refine ⟨fun s' hs' => ?_, fun hnone => nomatch hnone⟩
      cases hs'
      refine h.result hi rfl rfl hD rfl rfl ?_ fun _ => ⟨x || y, by rw [hx, hy, hM.lOr]⟩
      change some (v.setReg (.result r) (M.binary .or (v.regs (t.regOf a)) (v.regs (t.regOf b)))) = _
      rw [hread ha, hread hb, hx, hy, hM.or, hM.lOr]
    | store =>
      obtain ⟨ha, hb⟩ := hpair _ rfl hW
      refine ⟨fun s' hs' => ?_, fun hnone => nomatch hnone⟩
      cases hs'
      refine ⟨_, runs_straight rfl rfl, ?_⟩
      rw [← hread ha, ← hread hb, ← h.mem]
      exact h.effect rfl rfl rfl rfl
    | zExt =>
      refine ⟨fun s' hs' => ?_, fun hnone => nomatch hnone⟩
      cases hs'
      exact lowerUnary_mirrors .zExt hM h ht hi rfl rfl hD rfl hcode hW
    | sExt =>
      refine ⟨fun s' hs' => ?_, fun hnone => nomatch hnone⟩
      cases hs'
      exact lowerUnary_mirrors .sExt hM h ht hi rfl rfl hD rfl hcode hW
    | load =>
      refine ⟨fun s' hs' => ?_, fun hnone => nomatch hnone⟩
      cases hs'
      exact lowerUnary_mirrors .load hM h ht hi rfl rfl hD rfl hcode hW
    | lNot =>
      refine ⟨fun s' hs' => ?_, fun hnone => nomatch hnone⟩
      cases hs'
      exact lowerUnary_mirrors .lNot hM h ht hi rfl rfl hD rfl hcode hW
    | _ => exact hcode.elim

end

end Proofs

end TidyTuples
