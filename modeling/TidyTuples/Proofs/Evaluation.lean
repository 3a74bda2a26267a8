import TidyTuples.Proofs.Execution

/-!
# What straight-line code computes

The code of an expression, of a tuple hash and of the bindings of a scope leaves the value of the
list and push semantics in the register it answers with.
-/

namespace TidyTuples.Proofs

open IRProgram

/-- The code between `p` and `q` puts a value into the register `ref`. -/
def Computes (C : Compiled) (p : IRProgram) (s : QueryState) (q : IRProgram) (ref : IRValueRef)
    (v : Value) : Prop :=
  ∃ s', C.Reaches p s q s' ∧ s'.mem = s.mem ∧ Holds q s' ref v

/-- The bindings of the scope have the values of the row. -/
def ScopeHolds (p : IRProgram) (s : QueryState) (scope : ConsumerScope) (row : Row) : Prop :=
  ∀ id v, scope.bindings id = some v → ∃ w, row id = some w ∧ Holds p s v.valueRef (.word w)

section

variable {C : Compiled} {p q : IRProgram} {s s' : QueryState}

lemma Holds.reaches {ref : IRValueRef} {v : Value} (h : Holds p s ref v) (hr : C.Reaches p s q s')
    (hl : Local p q) : Holds q s' ref v := by
  obtain ⟨off, rfl, hoff, hv⟩ := h
  exact ⟨off, rfl, hoff.trans_le hl.size, (hr.frame off hoff).trans hv⟩

lemma ScopeHolds.reaches {scope : ConsumerScope} {row : Row} (h : ScopeHolds p s scope row)
    (hr : C.Reaches p s q s') (hl : Local p q) : ScopeHolds q s' scope row := by
  intro id v hv
  obtain ⟨w, hw, hh⟩ := h id v hv
  exact ⟨w, hw, hh.reaches hr hl⟩

lemma ScopeHolds.bind {scope : ConsumerScope} {row : Row} (h : ScopeHolds p s scope row) (iu : IU)
    {ref : IRValueRef} {w : Word} (href : Holds p s ref (.word w)) (t : SQLType) :
    ScopeHolds p s (scope.bind iu (.makeNonNull ref t)) (row.bind iu w) := by
  intro id v hv
  by_cases hid : id = iu.id
  · simp only [ConsumerScope.bind, hid, Function.update_self, Option.some.injEq] at hv
    subst hv
    exact ⟨w, by simp [Row.bind, hid], href⟩
  · simp only [ConsumerScope.bind, Function.update_of_ne hid] at hv
    simp only [Row.bind, Function.update_of_ne hid]
    exact h id v hv

/-! ### Builders -/

lemma constIntValue_mono (h : Extends p q) {ref : IRValueRef} {w : Word}
    (hw : p.constIntValue ref = some w) : q.constIntValue ref = some w := by
  cases ref with
  | instr off =>
    simp only [IRProgram.constIntValue, IRProgram.getInstr] at hw ⊢
    cases hi : p.instrAt off with
    | none => simp [hi] at hw
    | some i =>
      rw [hi] at hw
      cases i with
      | constInt t v => rwa [h.records off _ hi trivial]
      | constBool v => rwa [h.records off _ hi trivial]
      | _ => cases hw
  | _ => cases hw

lemma emit_setReg_computes (hv : Valid p) {i : Instr} (hext : Extends (p.emit i).2 C.program)
    (hc : ConstRegs C.program s.regs) (hphi : i.isPhi = false) (hterm : i.isTerminator = false)
    {v : Value} (hx : execInstr C.arch.machine p.dataSize i s = some (s.setReg p.dataSize v)) :
    Computes C p s (p.emit i).2 (p.emit i).1 v := by
  have hpos := i.byteSize_pos
  refine ⟨_, emit_reaches hv hext hc hphi hterm hx, rfl, p.dataSize, rfl, ?_, ?_⟩
  · rw [emit_dataSize]
    omega
  · simp [ExecState.setReg]

lemma addConstInt_computes (hv : Valid p) {v : Word} {t : IRType}
    (hext : Extends (p.addConstInt v t).2 C.program) (hc : ConstRegs C.program s.regs) :
    Computes C p s (p.addConstInt v t).2 (p.addConstInt v t).1 (.word v) := by
  have hi : C.program.instrAt (constOffset p v t) = some (.constInt t v) :=
    C.denotes _ (hext.requests (addConstInt_request v t))
  have hreg : s.regs (.instr (constOffset p v t)) = .word v :=
    hc _ _ (by simp [IRProgram.constIntValue, IRProgram.getInstr, hi])
  have hv' := addConstInt_valid hv v t
  obtain ⟨t', w, htw⟩ := hv'.cache _ _ (addConstInt_cache v t)
  have hlt := hv'.instrAt_lt htw
  rw [addConstInt_ref]
  cases hkey : p.constIntCache.lookup (constKey v t) with
  | some off =>
    refine ⟨s, ?_, rfl, _, rfl, hlt, hreg⟩
    simp only [IRProgram.addConstInt, hkey]
    exact ⟨.refl _ _, fun _ _ => rfl, hc⟩
  | none =>
    have hoff : constOffset p v t = p.dataSize := by simp [constOffset, hkey]
    rw [hoff] at hi hlt ⊢
    have hx : execInstr C.arch.machine p.dataSize (.constInt t v) s =
        some (s.setReg p.dataSize (.word v)) := rfl
    refine ⟨_, reaches_instr hi (addConstInt_currentBlkIdx v t) ?_ (hext.prefixes _) hc rfl rfl hx,
      rfl, _, rfl, hlt, by simp [ExecState.setReg]⟩
    simp only [IRProgram.addConstInt, hkey]
    change (p.emit (.constInt t v)).2.blockAt _ = _
    rw [emit_blockAt hv, if_pos rfl]

lemma foldConstants_eval (arch : Arch) {op : Opcode} {t t' : IRType} {va vb v : Word}
    (h : foldConstants op t va vb = some (v, t')) : arch.evalBinary op va vb = v := by
  cases op <;> simp only [foldConstants, Option.some.injEq, Prod.mk.injEq] at h <;>
    first
    | exact h.1
    | (split_ifs at h; simp only [Option.some.injEq, Prod.mk.injEq] at h; exact h.1)
    | cases h

lemma foldConstants_bit {op : Opcode} {t : IRType} {a b : IRValueRef} {va vb v : Word}
    (hbool : t = .bool → (Instr.binary op t a b).isBoolean = true)
    (h : foldConstants op t va vb = some (v, .bool)) :
    (if (v != 0) = true then (1 : Word) else 0) = v := by
  have hbit : ∀ c : Bool, (if (wordOfBool c != 0) = true then (1 : Word) else 0) = wordOfBool c := by
    decide
  cases op <;> simp only [foldConstants, Option.some.injEq, Prod.mk.injEq] at h <;>
    first
    | (obtain ⟨rfl, -⟩ := h; exact hbit _)
    | (obtain ⟨-, rfl⟩ := h; cases hbool rfl)
    | (split_ifs at h; simp only [Option.some.injEq, Prod.mk.injEq] at h; obtain ⟨-, rfl⟩ := h; cases hbool rfl)
    | cases h

/-- Folding computes what the instruction would. -/
lemma addBinary_computes (hv : Valid p) {op : Opcode} {t : IRType} {a b : IRValueRef}
    (hop : op.isBinary = true) (hstore : op ≠ .store)
    (hbool : t = .bool → (Instr.binary op t a b).isBoolean = true) {wa wb : Word}
    (ha : Holds p s a (.word wa)) (hb : Holds p s b (.word wb)) (hl : Local p (p.addBinary op t a b).2)
    (hext : Extends (p.addBinary op t a b).2 C.program) (hc : ConstRegs C.program s.regs) :
    Computes C p s (p.addBinary op t a b).2 (p.addBinary op t a b).1
      (.word (C.arch.evalBinary op wa wb)) := by
  have hpP := hl.toExtends.trans hext
  have hconst : ∀ {ref v w}, p.constIntValue ref = some v → Holds p s ref (.word w) → v = w := by
    intro ref v w hv' hh
    obtain ⟨off, rfl, -, hw⟩ := hh
    have hreg := hc off v (constIntValue_mono hpP hv')
    rw [hw] at hreg
    cases hreg
    rfl
  unfold IRProgram.addBinary at hext ⊢
  cases hfold : p.tryConstFold op t a b with
  | none =>
    rw [hfold] at hext
    refine emit_setReg_computes hv hext hc rfl rfl ?_
    obtain ⟨-, -, -, hwa⟩ := ha
    obtain ⟨-, -, -, hwb⟩ := hb
    simp only [execInstr, if_neg hstore, hop, if_true, hwa, hwb]
    rfl
  | some folded =>
    rw [hfold] at hext
    simp only [IRProgram.tryConstFold, bind, Option.bind_eq_some_iff] at hfold
    obtain ⟨va, hva, vb, hvb, ⟨v, t'⟩, hf, hres⟩ := hfold
    have heval := foldConstants_eval C.arch hf
    rw [hconst hva ha, hconst hvb hb] at heval
    rw [heval]
    by_cases ht : t' = .bool
    · subst ht
      simp only [if_true, pure, Option.some.injEq] at hres
      subst hres
      refine emit_setReg_computes hv (i := .constBool (v != 0)) hext hc rfl rfl ?_
      conv => rhs; rw [← foldConstants_bit hbool hf]
      rfl
    · simp only [if_neg ht, pure, Option.some.injEq] at hres
      subst hres
      exact addConstInt_computes hv hext hc

lemma addUnary_computes (hv : Valid p) {t : IRType} {a : IRValueRef} {w : Word}
    (ha : Holds p s a (.word w)) (hext : Extends (p.addUnary .zExt t a).2 C.program)
    (hc : ConstRegs C.program s.regs) :
    Computes C p s (p.addUnary .zExt t a).2 (p.addUnary .zExt t a).1 (.word (C.arch.zExt w)) := by
  refine emit_setReg_computes hv hext hc rfl rfl ?_
  obtain ⟨-, -, -, hw⟩ := ha
  simp only [execInstr, hw]
  rfl

lemma addRotateRight_computes (hv : Valid p) {shift : Nat} {a : IRValueRef} {w : Word}
    (ha : Holds p s a (.word w)) (hext : Extends (p.addRotateRight a shift).2 C.program)
    (hc : ConstRegs C.program s.regs) : Computes C p s (p.addRotateRight a shift).2
      (p.addRotateRight a shift).1 (.word (C.arch.rotateRight shift w)) := by
  refine emit_setReg_computes hv hext hc rfl rfl ?_
  obtain ⟨-, -, -, hw⟩ := ha
  simp only [execInstr, hw]
  rfl

/-- The binary `ZExt` is never folded and its value is of no interest. -/
lemma addBinary_zExt_computes (hv : Valid p) {t : IRType} {a b : IRValueRef}
    (hext : Extends (p.addBinary .zExt t a b).2 C.program) (hc : ConstRegs C.program s.regs) :
    ∃ v, Computes C p s (p.addBinary .zExt t a b).2 (p.addBinary .zExt t a b).1 v := by
  have heq : p.addBinary .zExt t a b = p.emit (.binary .zExt t a b) := by
    unfold IRProgram.addBinary IRProgram.tryConstFold
    cases p.constIntValue a <;> cases p.constIntValue b <;> rfl
  rw [heq] at hext ⊢
  exact ⟨_, emit_setReg_computes hv hext hc rfl rfl rfl⟩

/-- A call of a precompiled function. -/
lemma addCall_reaches (hv : Valid p) {t : IRType} {fn : RuntimeFn} {args : List IRValueRef}
    {v : Value} (heap : Heap) (hext : Extends (p.addCall t fn args).2 C.program)
    (hc : ConstRegs C.program s.regs)
    (hcall : callRuntime fn (args.map s.regs) s.mem = some (v, heap)) :
    ∃ s', C.Reaches p s (p.addCall t fn args).2 s' ∧ s'.mem = heap ∧
      (t ≠ .void → Holds (p.addCall t fn args).2 s' (.instr p.dataSize) v) := by
  let s₁ : QueryState := ExecState.emitEvent { s with mem := heap } (.call fn (args.map s.regs))
  have hx : execInstr C.arch.machine p.dataSize (.call t fn args) s =
      some (if t = .void then s₁ else s₁.setReg p.dataSize v) := by
    have hcall' : C.arch.machine.call fn (args.map s.regs) s.mem = some (v, heap) := hcall
    simp only [execInstr, hcall']
    rfl
  refine ⟨_, emit_reaches hv hext hc rfl rfl hx, ?_, fun ht => ⟨p.dataSize, rfl, ?_, ?_⟩⟩
  · split_ifs <;> rfl
  · have hpos := (Instr.call t fn args).byteSize_pos
    change p.dataSize < p.dataSize + _
    omega
  · rw [if_neg ht]
    simp [ExecState.setReg]

/-- A call that leaves memory as it is. -/
lemma addCall_computes (hv : Valid p) {t : IRType} {fn : RuntimeFn} {args : List IRValueRef}
    {v : Value} (hext : Extends (p.addCall t fn args).2 C.program) (hc : ConstRegs C.program s.regs)
    (ht : t ≠ .void) (hcall : callRuntime fn (args.map s.regs) s.mem = some (v, s.mem)) :
    Computes C p s (p.addCall t fn args).2 (.instr p.dataSize) v := by
  obtain ⟨s', hr, hm, hh⟩ := addCall_reaches hv s.mem hext hc hcall
  exact ⟨s', hr, hm, hh ht⟩

end

/-! ### Expressions -/

section

variable {C : Compiled} {ctx ctx' : CompilationContext} {s : QueryState}

lemma evalBinary_opcodeOf (arch : Arch) (op : BinOpKind) (a b : Word) :
    arch.evalBinary (opcodeOf op).1 a b = op.eval a b := by
  cases op <;> rfl

lemma opcodeOf_isBinary (op : BinOpKind) : (opcodeOf op).1.isBinary = true := by
  cases op <;> rfl

lemma opcodeOf_bool {op : BinOpKind} (h : (opcodeOf op).2 = .bool) (a b : IRValueRef) :
    (Instr.binary (opcodeOf op).1 (opcodeOf op).2 a b).isBoolean = true := by
  cases op <;> first | rfl | cases h

theorem evalExpr_computes {resolve : ColumnRef → Except CppError IU} {scope : ConsumerScope}
    {e : Expr} {v : SQLValue} {row : Row} {w : Word} (hready : Ready ctx.program)
    (hscope : ScopeOk ctx.program scope) (hrow : ScopeHolds ctx.program s scope row)
    (hc : ConstRegs C.program s.regs) (hext : Extends ctx'.program C.program)
    (h : evalExpr resolve scope e ctx = .ok (v, ctx')) (hw : e.eval resolve row = some w) :
    Computes C ctx.program s ctx'.program v.valueRef (.word w) := by
  induction e generalizing v w ctx ctx' s with
  | colRef ref =>
    rw [evalExpr] at h
    obtain ⟨iu, ctx₁, hiu, hget⟩ := run_bind_ok h
    obtain ⟨hres, rfl⟩ := run_ofExcept_ok hiu
    obtain ⟨hval, rfl⟩ := run_ofExcept_ok hget
    rw [Expr.eval, hres] at hw
    obtain ⟨w', hw', hh⟩ := hrow _ _ (get_ok hval)
    have hrow' : row iu.id = some w := hw
    rw [hrow'] at hw'
    cases hw'
    exact ⟨s, .refl hc, rfl, hh⟩
  | intLit n =>
    rw [evalExpr] at h
    have h' : Except.ok (⟨(ctx.program.addConstInt n .int64).1, .null, .integer⟩,
        ctx.withProgram (ctx.program.addConstInt n .int64).2) = Except.ok (v, ctx') := h
    cases h'
    rw [Expr.eval] at hw
    cases hw
    exact addConstInt_computes hready.valid hext hc
  | binOp op l r ihl ihr =>
    obtain ⟨vl, ctx₁, vr, ctx₂, hl, hr, hv⟩ := run_evalExpr_binOp h
    simp only [Expr.eval, bind, Option.bind_eq_some_iff] at hw
    obtain ⟨wl, hwl, wr, hwr, hres⟩ := hw
    cases hres
    obtain ⟨a₁, hnl, hal, -⟩ := evalExpr_advances False hready hscope False.elim hl
    obtain ⟨a₂, hnr, har, -⟩ := evalExpr_advances False a₁.ready (hscope.mono a₁.loc) False.elim hr
    obtain ⟨-, hval, rfl⟩ := hv hnl hnr
    have a₃ := a₂.ready.addBinary False (opcodeOf op).1 (opcodeOf op).2 (hal.mono a₂.loc) har
      False.elim
    have hext₂ : Extends ctx₂.program C.program := a₃.loc.toExtends.trans hext
    obtain ⟨s₁, hr₁, hm₁, hh₁⟩ := ihl hready hscope hrow hc (a₂.loc.toExtends.trans hext₂) hl hwl
    obtain ⟨s₂, hr₂, hm₂, hh₂⟩ := ihr a₁.ready (hscope.mono a₁.loc) (hrow.reaches hr₁ a₁.loc)
      hr₁.consts hext₂ hr hwr
    obtain ⟨s₃, hr₃, hm₃, hh₃⟩ := addBinary_computes a₂.ready.valid (opcodeOf_isBinary op)
      (opcodeOf_ne_store op) (fun ht => opcodeOf_bool ht _ _) (hh₁.reaches hr₂ a₂.loc) hh₂ a₃.loc
      hext hr₂.consts
    rw [evalBinary_opcodeOf] at hh₃
    exact ⟨s₃, (hr₁.trans hr₂ a₁.loc.size).trans hr₃ (a₁.loc.trans a₂.loc).size,
      by rw [hm₃, hm₂, hm₁], hval ▸ hh₃⟩

lemma Predicate.evalRest_computes {pred : Predicate} {scope : ConsumerScope} {es : List Expr}
    {v res : SQLValue} {row : Row} {w₀ w : Word} (hready : Ready ctx.program)
    (hscope : ScopeOk ctx.program scope) (hrow : ScopeHolds ctx.program s scope row)
    (hc : ConstRegs C.program s.regs) (hext : Extends ctx'.program C.program)
    (hav : v.nullRef = .null ∧ Available ctx.program v.valueRef)
    (hv : Holds ctx.program s v.valueRef (.word w₀))
    (h : pred.evalRest scope es v ctx = .ok (res, ctx')) (hw : pred.restValue row es w₀ = some w) :
    Computes C ctx.program s ctx'.program res.valueRef (.word w) := by
  induction es generalizing v w₀ ctx s with
  | nil =>
    obtain ⟨rfl, rfl⟩ := run_pure_ok h
    cases hw
    exact ⟨s, .refl hc, rfl, hv⟩
  | cons e rest ih =>
    rw [Predicate.evalRest] at h
    obtain ⟨next, ctx₁, hnext, h⟩ := run_bind_ok h
    obtain ⟨both, ctx₂, hand, hrest⟩ := run_bind_ok h
    obtain ⟨rfl, rfl⟩ := run_logic hand
    simp only [Predicate.restValue, bind, Option.bind_eq_some_iff] at hw
    obtain ⟨wn, hwn, hw⟩ := hw
    obtain ⟨a₁, -, han, -⟩ := evalExpr_advances False hready hscope False.elim hnext
    have a₂ := a₁.ready.addBinary False .lAnd .bool (hav.2.mono a₁.loc) han False.elim
    have l₂ := a₁.loc.trans a₂.loc
    have hav₂ := addBinary_available a₁.ready.valid (show Opcode.lAnd ≠ .store by simp) .bool
      v.valueRef next.valueRef
    obtain ⟨a₃, -⟩ := Predicate.evalRest_advances False a₂.ready (hscope.mono l₂)
      (v := ⟨_, .null, .bool⟩) ⟨rfl, hav₂, False.elim⟩ False.elim hrest
    have hext₂ := a₃.loc.toExtends.trans hext
    obtain ⟨s₁, hr₁, hm₁, hh₁⟩ := evalExpr_computes hready hscope hrow hc
      (a₂.loc.toExtends.trans hext₂) hnext hwn
    obtain ⟨s₂, hr₂, hm₂, hh₂⟩ := addBinary_computes a₁.ready.valid
      (show Opcode.lAnd.isBinary = true from rfl) (by simp) (fun _ => rfl) (hv.reaches hr₁ a₁.loc) hh₁
        a₂.loc hext₂ hr₁.consts
    obtain ⟨s₃, hr₃, hm₃, hh₃⟩ := ih a₂.ready (hscope.mono l₂)
      ((hrow.reaches hr₁ a₁.loc).reaches hr₂ a₂.loc) hr₂.consts ⟨rfl, hav₂⟩ hh₂ hrest hw
    exact ⟨s₃, (hr₁.trans hr₂ a₁.loc.size).trans hr₃ l₂.size, by rw [hm₃, hm₂, hm₁], hh₃⟩

lemma Predicate.eval_computes {pred : Predicate} {scope : ConsumerScope} {res : SQLValue}
    {row : Row} {w : Word} (hready : Ready ctx.program) (hscope : ScopeOk ctx.program scope)
    (hrow : ScopeHolds ctx.program s scope row) (hc : ConstRegs C.program s.regs)
    (hext : Extends ctx'.program C.program) (h : pred.eval scope ctx = .ok (res, ctx'))
    (hw : pred.value row = some w) :
    Computes C ctx.program s ctx'.program res.valueRef (.word w) := by
  unfold Predicate.eval at h
  unfold Predicate.value at hw
  cases hconj : pred.conjuncts with
  | nil =>
    rw [hconj] at h
    cases h
  | cons e rest =>
    rw [hconj] at h hw
    obtain ⟨v, ctx₁, hv, h⟩ := run_bind_ok h
    simp only [bind, Option.bind_eq_some_iff] at hw
    obtain ⟨w₀, hw₀, hw⟩ := hw
    obtain ⟨a₁, hnull, hav, -⟩ := evalExpr_advances False hready hscope False.elim hv
    obtain ⟨a₂, -⟩ := Predicate.evalRest_advances False a₁.ready (hscope.mono a₁.loc)
      ⟨hnull, hav, False.elim⟩ False.elim h
    obtain ⟨s₁, hr₁, hm₁, hh₁⟩ := evalExpr_computes hready hscope hrow hc
      (a₂.loc.toExtends.trans hext) hv hw₀
    obtain ⟨s₂, hr₂, hm₂, hh₂⟩ := Predicate.evalRest_computes a₁.ready (hscope.mono a₁.loc)
      (hrow.reaches hr₁ a₁.loc) hr₁.consts hext ⟨hnull, hav⟩ hh₁ h hw
    exact ⟨s₂, hr₁.trans hr₂ a₁.loc.size, by rw [hm₂, hm₁], hh₂⟩

/-! ### Hashes, arguments and bindings -/

def ValuesHold (p : IRProgram) (s : QueryState) (vals : List SQLValue) (ws : List Word) : Prop :=
  List.Forall₂ (fun v w => Holds p s v.valueRef (.word w)) vals ws

lemma ValuesHold.reaches {p q : IRProgram} {s' : QueryState} {vals : List SQLValue}
    {ws : List Word} (h : ValuesHold p s vals ws) (hr : C.Reaches p s q s') (hl : Local p q) :
    ValuesHold q s' vals ws :=
  List.Forall₂.imp (fun _ _ hh => hh.reaches hr hl) h

/-- The values bound to IUs that are live in the row. -/
lemma ScopeHolds.values {p : IRProgram} {scope : ConsumerScope} {row : Row}
    (h : ScopeHolds p s scope row) {ius : List IU} {vals : List SQLValue} {ws : List Word}
    (hb : List.Forall₂ (fun iu v => scope.bindings iu.id = some v) ius vals)
    (hw : row.words ius = some ws) : ValuesHold p s vals ws := by
  induction hb generalizing ws with
  | nil =>
    cases hw
    exact .nil
  | cons hv _ ih =>
    obtain ⟨w, ws', hw₁, hws', rfl⟩ := Row.words_cons.mp hw
    obtain ⟨w', hw', hh⟩ := h _ _ hv
    rw [hw₁] at hw'
    cases hw'
    exact .cons hh (ih hws')

lemma hashLoop_computes {values : List SQLValue} {ws : List Word} {hash1 hash2 : IRValueRef}
    {h₁ h₂ : Word} {res : IRValueRef × IRValueRef} (hready : Ready ctx.program)
    (hav : ∀ v ∈ values, Available ctx.program v.valueRef) (hav₁ : Available ctx.program hash1)
    (hav₂ : Available ctx.program hash2) (hvals : ValuesHold ctx.program s values ws)
    (hh₁ : Holds ctx.program s hash1 (.word h₁)) (hh₂ : Holds ctx.program s hash2 (.word h₂))
    (hc : ConstRegs C.program s.regs) (hext : Extends ctx'.program C.program)
    (h : hashLoop values hash1 hash2 ctx = .ok (res, ctx')) :
    ∃ s', C.Reaches ctx.program s ctx'.program s' ∧ s'.mem = s.mem ∧
      Holds ctx'.program s' res.1 (.word (C.arch.hashPair ws (h₁, h₂)).1) ∧
      Holds ctx'.program s' res.2 (.word (C.arch.hashPair ws (h₁, h₂)).2) := by
  induction values generalizing ws hash1 hash2 h₁ h₂ ctx s with
  | nil =>
    cases hvals
    obtain ⟨rfl, rfl⟩ := run_pure_ok h
    exact ⟨s, .refl hc, rfl, hh₁, hh₂⟩
  | cons sv rest ih =>
    obtain ⟨w, ws', hw, hws', rfl⟩ := List.forall₂_cons_left_iff.mp hvals
    rw [hashLoop, run_bind_of_ok (run_addBinary' _ _ _ _), run_bind_of_ok (run_addUnary _ _ _),
      run_bind_of_ok (run_addBinary' _ _ _ _), run_bind_of_ok (run_addBinary' _ _ _ _)] at h
    simp only [program_withProgram] at h
    have hsv := hav sv List.mem_cons_self
    have a₁ := hready.addBinary False .zExt .uint64 hsv hsv fun _ => trivial
    have a₂ := a₁.ready.addUnary False .uint64 (hsv.mono a₁.loc)
    have hz : Available _ ((ctx.program.addBinary .zExt .uint64 sv.valueRef sv.valueRef).2.addUnary
      .zExt .uint64 sv.valueRef).1 := emit_available rfl
    have l₂ := a₁.loc.trans a₂.loc
    have a₃ := a₂.ready.addBinary False .crc32 .uint64 (hav₁.mono l₂) hz fun _ => trivial
    have l₃ := l₂.trans a₃.loc
    have a₄ := a₃.ready.addBinary False .crc32 .uint64 (hav₂.mono l₃) (hz.mono a₃.loc)
      fun _ => trivial
    have l₄ := l₃.trans a₄.loc
    have hav' : ∀ v ∈ rest, Available _ v.valueRef := fun v hv =>
      (hav v (List.mem_cons_of_mem sv hv)).mono l₄
    have hn₁ := (addBinary_available a₂.ready.valid (show Opcode.crc32 ≠ .store by simp) .uint64 hash1
      ((ctx.program.addBinary .zExt .uint64 sv.valueRef sv.valueRef).2.addUnary .zExt .uint64
        sv.valueRef).1).mono a₄.loc
    have hn₂ := addBinary_available a₃.ready.valid (show Opcode.crc32 ≠ .store by simp) .uint64 hash2
      ((ctx.program.addBinary .zExt .uint64 sv.valueRef sv.valueRef).2.addUnary .zExt .uint64
        sv.valueRef).1
    obtain ⟨a₅, -⟩ := hashLoop_advances False a₄.ready hav' hn₁ hn₂ h
    have e₄ := a₅.loc.toExtends.trans hext
    have e₃ := a₄.loc.toExtends.trans e₄
    have e₂ := a₃.loc.toExtends.trans e₃
    obtain ⟨-, s₁, r₁, m₁, -⟩ := addBinary_zExt_computes hready.valid (a₂.loc.toExtends.trans e₂) hc
    obtain ⟨s₂, r₂, m₂, k₂⟩ := addUnary_computes a₁.ready.valid (hw.reaches r₁ a₁.loc) e₂ r₁.consts
    have r₁₂ := r₁.trans r₂ a₁.loc.size
    obtain ⟨s₃, r₃, m₃, k₃⟩ := addBinary_computes a₂.ready.valid
      (show Opcode.crc32.isBinary = true from rfl) (by simp) (by simp) (hh₁.reaches r₁₂ l₂) k₂
      a₃.loc e₃ r₂.consts
    have r₁₃ := r₁₂.trans r₃ l₂.size
    obtain ⟨s₄, r₄, m₄, k₄⟩ := addBinary_computes a₃.ready.valid
      (show Opcode.crc32.isBinary = true from rfl) (by simp) (by simp) (hh₂.reaches r₁₃ l₃)
      (k₂.reaches r₃ a₃.loc) a₄.loc e₄ r₃.consts
    have r₁₄ := r₁₃.trans r₄ l₃.size
    obtain ⟨s₅, r₅, m₅, k₅⟩ := ih a₄.ready hav' hn₁ hn₂ (ValuesHold.reaches hws' r₁₄ l₄)
      (k₃.reaches r₄ a₄.loc) k₄ r₄.consts h
    exact ⟨s₅, r₁₄.trans r₅ l₄.size, by rw [m₅, m₄, m₃, m₂, m₁], k₅⟩

theorem hashValues_computes {values : List SQLValue} {ws : List Word} {ref : IRValueRef}
    (hready : Ready ctx.program) (hav : ∀ v ∈ values, Available ctx.program v.valueRef)
    (hvals : ValuesHold ctx.program s values ws) (hc : ConstRegs C.program s.regs)
    (hext : Extends ctx'.program C.program) (h : hashValues values ctx = .ok (ref, ctx')) :
    Computes C ctx.program s ctx'.program ref (.word (C.arch.hashWords ws)) := by
  rw [hashValues, run_bind_of_ok (run_addConstInt _ _), run_bind_of_ok (run_addConstInt _ _)] at h
  simp only [program_withProgram] at h
  obtain ⟨⟨hash1, hash2⟩, ctx₁, hloop, h⟩ := run_bind_ok h
  have a₁ := hready.addConstInt False hashSeed1 .uint64
  have a₂ := a₁.ready.addConstInt False hashSeed2 .uint64
  have l₂ := a₁.loc.trans a₂.loc
  have hav₂ : ∀ v ∈ values, Available _ v.valueRef := fun v hv => (hav v hv).mono l₂
  have hs₁ := (addConstInt_available hready.valid hashSeed1 .uint64).mono a₂.loc
  have hs₂ := addConstInt_available a₁.ready.valid hashSeed2 .uint64
  obtain ⟨a₃, av₁, av₂⟩ := hashLoop_advances False a₂.ready hav₂ hs₁ hs₂ hloop
  rw [run_bind_of_ok (run_addRotateRight _ _), run_bind_of_ok (run_addBinary' _ _ _ _),
    run_bind_of_ok (run_addConstInt _ _), run_addBinary'] at h
  simp only [program_withProgram] at h
  cases h
  have a₄ := a₃.ready.addRotateRight False 32 av₂
  have hrot := emit_available (p := ctx₁.program) (i := .rotateRight hash2 32) rfl
  have a₅ := a₄.ready.addBinary False .xor .uint64 (av₁.mono a₄.loc) hrot fun _ => trivial
  have a₆ := a₅.ready.addConstInt False hashMultiplier .uint64
  have a₇ := a₆.ready.addBinary False .mul .uint64
    ((addBinary_available a₄.ready.valid (show Opcode.xor ≠ .store by simp) _ _ _).mono a₆.loc)
    (addConstInt_available a₅.ready.valid _ _) fun _ => trivial
  have e₆ := a₇.loc.toExtends.trans hext
  have e₅ := a₆.loc.toExtends.trans e₆
  have e₄ := a₅.loc.toExtends.trans e₅
  have e₃ := a₄.loc.toExtends.trans e₄
  have e₂ := a₃.loc.toExtends.trans e₃
  obtain ⟨s₁, r₁, m₁, k₁⟩ := addConstInt_computes hready.valid (a₂.loc.toExtends.trans e₂) hc
  obtain ⟨s₂, r₂, m₂, k₂⟩ := addConstInt_computes a₁.ready.valid e₂ r₁.consts
  have r₁₂ := r₁.trans r₂ a₁.loc.size
  obtain ⟨s₃, r₃, m₃, k₃, k₃'⟩ := hashLoop_computes a₂.ready hav₂ hs₁ hs₂ (hvals.reaches r₁₂ l₂)
    (k₁.reaches r₂ a₂.loc) k₂ r₂.consts e₃ hloop
  have r₁₃ := r₁₂.trans r₃ l₂.size
  obtain ⟨s₄, r₄, m₄, k₄⟩ := addRotateRight_computes a₃.ready.valid k₃' e₄ r₃.consts
  obtain ⟨s₅, r₅, m₅, k₅⟩ := addBinary_computes a₄.ready.valid
    (show Opcode.xor.isBinary = true from rfl) (by simp) (by simp) (k₃.reaches r₄ a₄.loc) k₄ a₅.loc
    e₅ r₄.consts
  obtain ⟨s₆, r₆, m₆, k₆⟩ := addConstInt_computes a₅.ready.valid e₆ r₅.consts
  obtain ⟨s₇, r₇, m₇, k₇⟩ := addBinary_computes a₆.ready.valid
    (show Opcode.mul.isBinary = true from rfl) (by simp) (by simp) (k₅.reaches r₆ a₆.loc) k₆ a₇.loc
    hext r₆.consts
  have l₃ := l₂.trans a₃.loc
  have l₅ := (l₃.trans a₄.loc).trans a₅.loc
  exact ⟨s₇, (((r₁₃.trans r₄ l₃.size).trans r₅ (l₃.trans a₄.loc).size).trans r₆ l₅.size).trans r₇
    (l₅.trans a₆.loc).size, by rw [m₇, m₆, m₅, m₄, m₃, m₂, m₁], k₇⟩

/-- The arguments of a call and their values. -/
def ArgsHold (p : IRProgram) (s : QueryState) (args : List IRValueRef) (vs : List Value) : Prop :=
  List.Forall₂ (Holds p s) args vs

lemma ArgsHold.reaches {p q : IRProgram} {s' : QueryState} {args : List IRValueRef}
    {vs : List Value} (h : ArgsHold p s args vs) (hr : C.Reaches p s q s') (hl : Local p q) :
    ArgsHold q s' args vs :=
  List.Forall₂.imp (fun _ _ hh => hh.reaches hr hl) h

lemma ArgsHold.regs {p : IRProgram} {args : List IRValueRef} {vs : List Value}
    (h : ArgsHold p s args vs) : args.map s.regs = vs := by
  induction h with
  | nil => rfl
  | cons hh _ ih =>
    obtain ⟨-, -, -, hv⟩ := hh
    rw [List.map_cons, hv, ih]

lemma ValuesHold.args {p : IRProgram} {vals : List SQLValue} {ws : List Word}
    (h : ValuesHold p s vals ws) : ArgsHold p s (vals.map SQLValue.valueRef) (ws.map .word) :=
  List.forall₂_map_left_iff.mpr (List.forall₂_map_right_iff.mpr h)

lemma ArgsHold.append {p : IRProgram} {args args' : List IRValueRef} {vs vs' : List Value}
    (h : ArgsHold p s args vs) (h' : ArgsHold p s args' vs') :
    ArgsHold p s (args ++ args') (vs ++ vs') :=
  List.rel_append h h'

lemma ArgsHold.replicate {p : IRProgram} {ref : IRValueRef} {v : Value} (h : Holds p s ref v)
    (n : Nat) : ArgsHold p s (List.replicate n ref) (List.replicate n v) := by
  induction n with
  | zero => exact .nil
  | succ n ih => exact .cons h ih

lemma ArgsHold.padTo {p : IRProgram} {args : List IRValueRef} {vs : List Value} {ref : IRValueRef}
    {v : Value} (h : ArgsHold p s args vs) (href : Holds p s ref v) (n : Nat) :
    ArgsHold p s (padTo n ref args) (padTo n v vs) := by
  unfold TidyTuples.padTo
  rw [List.Forall₂.length_eq h]
  exact h.append (.replicate href _)

lemma padTo_map {α β : Type} (f : α → β) (n : Nat) (zero : α) (args : List α) :
    (padTo n zero args).map f = padTo n (f zero) (args.map f) := by
  simp [padTo]

lemma insertArgs_map {α β : Type} (f : α → β) (htPtr hash zero4 : α) (keys payload : List α) :
    (insertArgs htPtr hash zero4 keys payload).map f =
      insertArgs (f htPtr) (f hash) (f zero4) (keys.map f) (payload.map f) := by
  simp [insertArgs, padTo_map]

lemma map_toWord_word (ws : List Word) : (ws.map Value.word).map Value.toWord = ws := by
  simp [Function.comp_def]

theorem padWithZeros_computes {n : Nat} {args res : List IRValueRef} {vs : List Value}
    (hready : Ready ctx.program) (hav : ∀ r ∈ args, Available ctx.program r)
    (hargs : ArgsHold ctx.program s args vs) (hc : ConstRegs C.program s.regs)
    (hext : Extends ctx'.program C.program) (h : padWithZeros n args ctx = .ok (res, ctx')) :
    ∃ s', C.Reaches ctx.program s ctx'.program s' ∧ s'.mem = s.mem ∧
      ArgsHold ctx'.program s' res (vs ++ List.replicate n (.word 0)) := by
  induction n generalizing args vs ctx s with
  | zero =>
    obtain ⟨rfl, rfl⟩ := run_pure_ok h
    exact ⟨s, .refl hc, rfl, by simpa using hargs⟩
  | succ n ih =>
    rw [padWithZeros, run_bind_of_ok (run_addConstInt _ _)] at h
    have a₁ := hready.addConstInt False 0 .int64
    have hav' : ∀ r ∈ args ++ [(ctx.program.addConstInt 0 .int64).1],
        Available (ctx.withProgram (ctx.program.addConstInt 0 .int64).2).program r := by
      intro r hr
      rcases List.mem_append.mp hr with hr | hr
      · exact (hav r hr).mono a₁.loc
      · exact List.mem_singleton.mp hr ▸ addConstInt_available hready.valid 0 .int64
    obtain ⟨a₂, -⟩ := padWithZeros_advances False
      (show Ready (ctx.withProgram _).program from a₁.ready) hav' h
    obtain ⟨s₁, r₁, m₁, k₁⟩ := addConstInt_computes hready.valid (a₂.loc.toExtends.trans hext) hc
    obtain ⟨s₂, r₂, m₂, k₂⟩ := ih (show Ready (ctx.withProgram _).program from a₁.ready) hav'
      ((hargs.reaches r₁ a₁.loc).append (.cons k₁ .nil)) r₁.consts h
    refine ⟨s₂, r₁.trans r₂ a₁.loc.size, by rw [m₂, m₁], ?_⟩
    rw [List.append_assoc] at k₂
    exact k₂

theorem bindColumns_computes {iPhi : IRValueRef} {i : Nat} {cols : List (IU × Column)}
    {scope res : ConsumerScope} {row row' : Row} (hready : Ready ctx.program)
    (hav : Available ctx.program iPhi) (hscope : ScopeOk ctx.program scope)
    (hphi : Holds ctx.program s iPhi (.word (BitVec.ofNat 64 i)))
    (hrow : ScopeHolds ctx.program s scope row) (hc : ConstRegs C.program s.regs)
    (hext : Extends ctx'.program C.program)
    (h : ScanTranslator.bindColumns iPhi cols scope ctx = .ok (res, ctx'))
    (hload : ScanTranslator.loadColumns s.mem i cols row = some row') :
    ∃ s', C.Reaches ctx.program s ctx'.program s' ∧ s'.mem = s.mem ∧
      ScopeHolds ctx'.program s' res row' := by
  induction cols generalizing scope row ctx s with
  | nil =>
    obtain ⟨rfl, rfl⟩ := run_pure_ok h
    cases hload
    exact ⟨s, .refl hc, rfl, hrow⟩
  | cons c rest ih =>
    obtain ⟨iu, col⟩ := c
    rw [ScanTranslator.bindColumns, run_bind_of_ok (run_addConstInt _ _),
      run_bind_of_ok (run_addCall _ _ _)] at h
    simp only [program_withProgram] at h
    obtain ⟨w, hw, hload⟩ := Option.bind_eq_some_iff.mp hload
    have a₁ := hready.addConstInt False col.address .ptr
    have hargs : ∀ r ∈ [(ctx.program.addConstInt col.address .ptr).1, iPhi],
        Available (ctx.program.addConstInt col.address .ptr).2 r := by
      intro r hr
      rcases List.mem_pair.mp hr with rfl | rfl
      · exact addConstInt_available hready.valid _ _
      · exact hav.mono a₁.loc
    have a₂ := a₁.ready.addCall False .int64 .loadColumnValue _ hargs
    have a₁₂ := a₁.trans a₂
    have hscope' := (hscope.mono a₁₂.loc).bind iu (emit_available rfl :
      Available _ ((ctx.program.addConstInt col.address .ptr).2.addCall .int64 .loadColumnValue
        [(ctx.program.addConstInt col.address .ptr).1, iPhi]).1) col.type
    obtain ⟨a₃, -⟩ := bindColumns_advances False a₁₂.ready (hav.mono a₁₂.loc) hscope' h
    have e₂ := a₃.loc.toExtends.trans hext
    obtain ⟨s₁, r₁, m₁, k₁⟩ := addConstInt_computes hready.valid (a₂.loc.toExtends.trans e₂) hc
    have hargs₁ : ArgsHold _ s₁ [(ctx.program.addConstInt col.address .ptr).1, iPhi]
        [.word col.address, .word (BitVec.ofNat 64 i)] :=
      .cons k₁ (.cons (hphi.reaches r₁ a₁.loc) .nil)
    obtain ⟨s₂, r₂, m₂, k₂⟩ := addCall_computes a₁.ready.valid (t := .int64) (v := .word w) e₂
      r₁.consts (by simp) (by
        rw [hargs₁.regs, m₁]
        simp only [callRuntime, Value.toWord_word, hw]
        rfl)
    have r₁₂ := r₁.trans r₂ a₁.loc.size
    have m₁₂ : s₂.mem = s.mem := by rw [m₂, m₁]
    obtain ⟨s₃, r₃, m₃, k₃⟩ := ih a₁₂.ready (hav.mono a₁₂.loc) hscope' (hphi.reaches r₁₂ a₁₂.loc)
      ((hrow.reaches r₁₂ a₁₂.loc).bind iu k₂ col.type) r₂.consts h (m₁₂ ▸ hload)
    exact ⟨s₃, r₁₂.trans r₃ a₁₂.loc.size, by rw [m₃, m₁₂], k₃⟩

/-- `fn` reads the field vector `fields` of the entry. -/
def ReadsFields (fn : RuntimeFn) (e : HTEntry) (fields : List Word) : Prop :=
  ∀ (i w : Word) (heap : Heap), readVector fields (i.truncate 32).toInt = some w →
    callRuntime fn [.entry e, .word i] heap = some (.word w, heap)

lemma getKey_reads (e : HTEntry) : ReadsFields .getKey e e.keyData := by
  intro i w heap h
  simp only [callRuntime, Value.toWord_word, h]
  rfl

lemma getPayload_reads (e : HTEntry) : ReadsFields .getPayload e e.payloadData := by
  intro i w heap h
  simp only [callRuntime, Value.toWord_word, h]
  rfl

theorem bindFields_computes {fn : RuntimeFn} {entryPtr : IRValueRef} {e : HTEntry}
    {fields : List Word} {i : Nat} {ius : List IU} {scope res : ConsumerScope} {row row' : Row}
    (hfn : ReadsFields fn e fields) (hready : Ready ctx.program)
    (hav : Available ctx.program entryPtr) (hscope : ScopeOk ctx.program scope)
    (hentry : Holds ctx.program s entryPtr (.entry e))
    (hrow : ScopeHolds ctx.program s scope row) (hc : ConstRegs C.program s.regs)
    (hext : Extends ctx'.program C.program)
    (h : HashJoinTranslator.bindFields fn entryPtr i ius scope ctx = .ok (res, ctx'))
    (hbind : HashJoinTranslator.bindWords fields i ius row = some row') :
    ∃ s', C.Reaches ctx.program s ctx'.program s' ∧ s'.mem = s.mem ∧
      ScopeHolds ctx'.program s' res row' := by
  induction ius generalizing i scope row ctx s with
  | nil =>
    obtain ⟨rfl, rfl⟩ := run_pure_ok h
    cases hbind
    exact ⟨s, .refl hc, rfl, hrow⟩
  | cons iu rest ih =>
    rw [HashJoinTranslator.bindFields, run_bind_of_ok (run_addConstInt _ _),
      run_bind_of_ok (run_addCall _ _ _)] at h
    simp only [program_withProgram] at h
    obtain ⟨w, hw, hbind⟩ := Option.bind_eq_some_iff.mp hbind
    have a₁ := hready.addConstInt False (BitVec.ofNat 64 i) .int32
    have hargs : ∀ r ∈ [entryPtr, (ctx.program.addConstInt (BitVec.ofNat 64 i) .int32).1],
        Available (ctx.program.addConstInt (BitVec.ofNat 64 i) .int32).2 r := by
      intro r hr
      rcases List.mem_pair.mp hr with rfl | rfl
      · exact hav.mono a₁.loc
      · exact addConstInt_available hready.valid _ _
    have a₂ := a₁.ready.addCall False .int64 fn _ hargs
    have a₁₂ := a₁.trans a₂
    have hscope' := (hscope.mono a₁₂.loc).bind iu (emit_available rfl :
      Available _ ((ctx.program.addConstInt (BitVec.ofNat 64 i) .int32).2.addCall .int64 fn
        [entryPtr, (ctx.program.addConstInt (BitVec.ofNat 64 i) .int32).1]).1) iu.type
    obtain ⟨a₃, -⟩ := bindFields_advances False a₁₂.ready (hav.mono a₁₂.loc) hscope' h
    have e₂ := a₃.loc.toExtends.trans hext
    obtain ⟨s₁, r₁, m₁, k₁⟩ := addConstInt_computes hready.valid (a₂.loc.toExtends.trans e₂) hc
    have hargs₁ : ArgsHold _ s₁ [entryPtr, (ctx.program.addConstInt (BitVec.ofNat 64 i) .int32).1]
        [.entry e, .word (BitVec.ofNat 64 i)] :=
      .cons (hentry.reaches r₁ a₁.loc) (.cons k₁ .nil)
    obtain ⟨s₂, r₂, m₂, k₂⟩ := addCall_computes a₁.ready.valid (t := .int64) (v := .word w) e₂
      r₁.consts (by simp) (by
        rw [hargs₁.regs, m₁]
        exact hfn _ _ _ hw)
    have r₁₂ := r₁.trans r₂ a₁.loc.size
    obtain ⟨s₃, r₃, m₃, k₃⟩ := ih a₁₂.ready (hav.mono a₁₂.loc) hscope' (hentry.reaches r₁₂ a₁₂.loc)
      ((hrow.reaches r₁₂ a₁₂.loc).bind iu k₂ iu.type) r₂.consts h hbind
    exact ⟨s₃, r₁₂.trans r₃ a₁₂.loc.size, by rw [m₃, m₂, m₁], k₃⟩

end

end TidyTuples.Proofs
