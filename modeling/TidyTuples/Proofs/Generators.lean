import TidyTuples.Proofs.Emission

/-!
# The operators emit structured code

Every generator function derives the program it leaves from the one it was given. Under `strict`,
that the predicates are boolean, all of it can be lowered.
-/

namespace TidyTuples

namespace Expr

/-- Integer arithmetic over columns and literals. -/
def isArith : Expr → Bool
  | colRef _ => true
  | intLit _ => true
  | binOp op l r =>
    match op with
    | .add | .sub => l.isArith && r.isArith
    | _ => false

/-- AND and OR over comparisons of arithmetic. -/
def isBoolean : Expr → Bool
  | binOp op l r =>
    match op with
    | .eq | .ne | .lt | .gt | .le | .ge => l.isArith && r.isArith
    | .and | .or => l.isBoolean && r.isBoolean
    | .add | .sub => false
  | _ => false

end Expr

namespace Proofs

open IRProgram

/-- Code can be emitted: an open block with nothing behind it. -/
structure Ready (p : IRProgram) : Prop where
  valid : Valid p
  isOpen : Open p
  fresh : Fresh p

/-- `q` is derived from `p` in its current block and still ready. -/
structure Advances (strict : Prop) (p q : IRProgram) : Prop where
  emits : Emits strict p q
  ready : Ready q
  loc : Local p q
  length : q.blocks.length = p.blocks.length

section

variable {strict : Prop} {p q r : IRProgram}

lemma Advances.refl (h : Ready p) : Advances strict p p := ⟨.refl p, h, .refl p, rfl⟩

lemma Advances.trans (h : Advances strict p q) (h' : Advances strict q r) : Advances strict p r :=
  ⟨h.emits.trans h'.emits, h'.ready, h.loc.trans h'.loc, h'.length.trans h.length⟩

lemma Available.mono {ref : IRValueRef} (h : Available p ref) (hl : Local p q) :
    Available q ref := by
  obtain ⟨off, i, rfl, hi, hd⟩ := h
  exact ⟨off, i, rfl, hl.allRecords off i hi, hd⟩

lemma IsBoolRef.mono {ref : IRValueRef} (h : IsBoolRef p ref) (hl : Local p q) :
    IsBoolRef q ref := by
  obtain ⟨off, i, rfl, hi, hb⟩ := h
  exact ⟨off, i, rfl, hl.allRecords off i hi, hb⟩

/-! ### Builders -/

lemma Ready.emit (h : Ready p) {i : Instr} (hphi : i.isPhi = false) (hterm : i.isTerminator = false)
    (huses : ∀ r ∈ i.uses, Available p r) (hlow : strict → Lowerable p i) :
    Advances strict p (p.emit i).2 := by
  refine ⟨.plain hphi hterm h.fresh huses hlow,
    ⟨emit_valid h.valid i, emit_open h.valid h.isOpen hterm, fun b hb => ?_⟩,
    emit_local h.valid hphi, emit_length h.valid.fnIdx i⟩
  rw [emit_blockAt h.valid, if_neg, h.fresh b hb]
  exact fun heq => absurd (heq ▸ hb : p.currentBlkIdx < p.currentBlkIdx) (by omega)

lemma emit_available {i : Instr} (hd : i.definesReg = true) :
    Available (p.emit i).2 (p.emit i).1 :=
  ⟨p.dataSize, i, rfl, emit_self i, hd⟩

variable (strict)

lemma Ready.addConstInt (h : Ready p) (v : Word) (t : IRType) :
    Advances strict p (p.addConstInt v t).2 := by
  refine ⟨.const p v t, ⟨addConstInt_valid h.valid v t, addConstInt_open h.valid h.isOpen v t,
    fun b hb => ?_⟩, addConstInt_local h.valid v t, addConstInt_length h.valid.fnIdx v t⟩
  rw [addConstInt_currentBlkIdx] at hb
  simp only [IRProgram.addConstInt]
  split
  · exact h.fresh b hb
  · change (p.emit (.constInt t v)).2.blockAt b = []
    rw [emit_blockAt h.valid, if_neg (by omega), h.fresh b hb]

lemma addConstInt_available (hv : Valid p) (v : Word) (t : IRType) :
    Available (p.addConstInt v t).2 (p.addConstInt v t).1 := by
  have hv' := addConstInt_valid hv v t
  obtain ⟨t', v', hi⟩ := hv'.cache _ _ (addConstInt_cache v t)
  rw [addConstInt_ref]
  exact ⟨_, _, rfl, hi, rfl⟩

lemma Ready.addBinary (h : Ready p) (op : Opcode) (t : IRType) {a b : IRValueRef}
    (ha : Available p a) (hb : Available p b) (hlow : strict → Lowerable p (.binary op t a b)) :
    Advances strict p (p.addBinary op t a b).2 := by
  rcases addBinary_cases (p := p) op t a b with ⟨v, heq⟩ | ⟨v, t', heq⟩ | heq
  · rw [heq]
    exact h.emit (i := .constBool v) rfl rfl (by simp [Instr.uses]) fun _ => trivial
  · rw [heq]
    exact h.addConstInt strict v t'
  · rw [heq]
    refine h.emit rfl rfl (fun r hr => ?_) hlow
    simp only [Instr.uses] at hr
    split_ifs at hr
    · rcases List.mem_pair.mp hr with rfl | rfl
      · exact ha
      · exact hb
    · exact List.mem_singleton.mp hr ▸ ha
    · cases hr

lemma addBinary_available (hv : Valid p) {op : Opcode} (hop : op ≠ .store) (t : IRType)
    (a b : IRValueRef) : Available (p.addBinary op t a b).2 (p.addBinary op t a b).1 := by
  rcases addBinary_cases (p := p) op t a b with ⟨v, heq⟩ | ⟨v, t', heq⟩ | heq
  · rw [heq]
    exact emit_available rfl
  · rw [heq]
    exact addConstInt_available hv v t'
  · rw [heq]
    exact emit_available (by simpa [Instr.definesReg] using hop)

lemma foldConstants_isBool {op : Opcode} {t t' : IRType} {a b : IRValueRef} {va vb v : Word}
    (hop : (Instr.binary op t a b).isBoolean = true)
    (hf : foldConstants op t va vb = some (v, t')) : t' = .bool := by
  cases op <;> simp only [Instr.isBoolean, Bool.false_eq_true] at hop <;>
    simp only [foldConstants, Option.some.injEq, Prod.mk.injEq] at hf <;> exact hf.2.symm

lemma addBinary_isBool {op : Opcode} {t : IRType} {a b : IRValueRef}
    (hop : (Instr.binary op t a b).isBoolean = true) :
    IsBoolRef (p.addBinary op t a b).2 (p.addBinary op t a b).1 := by
  have hemit : ∀ i : Instr, i.isBoolean = true → IsBoolRef (p.emit i).2 (p.emit i).1 :=
    fun i hi => ⟨p.dataSize, i, rfl, emit_self i, hi⟩
  unfold IRProgram.addBinary
  cases hfold : p.tryConstFold op t a b with
  | none => exact hemit _ hop
  | some folded =>
    simp only [IRProgram.tryConstFold, bind, Option.bind_eq_some_iff] at hfold
    obtain ⟨va, -, vb, -, ⟨v, t'⟩, hf, hres⟩ := hfold
    have ht := foldConstants_isBool hop hf
    simp only [ht, if_true, pure, Option.some.injEq] at hres
    rw [← hres]
    exact hemit _ rfl

lemma Ready.addUnary (h : Ready p) (t : IRType) {a : IRValueRef} (ha : Available p a) :
    Advances strict p (p.addUnary .zExt t a).2 := by
  refine h.emit rfl rfl (fun r hr => ?_) fun _ => rfl
  exact List.mem_singleton.mp hr ▸ ha

lemma Ready.addRotateRight (h : Ready p) (shift : Nat) {a : IRValueRef} (ha : Available p a) :
    Advances strict p (p.addRotateRight a shift).2 := by
  refine h.emit rfl rfl (fun r hr => ?_) fun _ => trivial
  exact List.mem_singleton.mp hr ▸ ha

lemma Ready.addCall (h : Ready p) (t : IRType) (fn : RuntimeFn) (args : List IRValueRef)
    (hargs : ∀ r ∈ args, Available p r) : Advances strict p (p.addCall t fn args).2 :=
  h.emit rfl rfl hargs fun _ => trivial

/-- Inside the true branch of an `if` and inside a loop's body code can be emitted. -/
lemma openIf_ready (hv : Valid p) (cond : IRValueRef) : Ready (p.openIf cond) := by
  have h := openIf_spec hv cond
  have hb := hv.blkIdx
  refine ⟨h.valid, h.isOpen, fun b hlt => ?_⟩
  rw [h.current] at hlt
  rw [h.blockAt, if_neg (by omega), blockAt_of_length_le (by omega)]

lemma openLoop_ready (hv : Valid p) (name : String) (zeroRef bound : IRValueRef) :
    Ready (p.openLoop name zeroRef bound) := by
  have h := openLoop_spec hv name zeroRef bound
  have hb := hv.blkIdx
  refine ⟨h.valid, h.isOpen, fun b hlt => ?_⟩
  rw [h.current] at hlt
  rw [h.blockAt, if_neg (by omega), if_neg (by omega), blockAt_of_length_le (by omega)]

end

/-! ### Expressions -/

section

variable {strict : Prop} {ctx ctx' : CompilationContext}

/-- The bindings are values that never are NULL. -/
def ScopeOk (p : IRProgram) (scope : ConsumerScope) : Prop :=
  ∀ id v, scope.bindings id = some v → v.nullRef = .null ∧ Available p v.valueRef

lemma ScopeOk.mono {p q : IRProgram} {scope : ConsumerScope} (h : ScopeOk p scope)
    (hl : Local p q) : ScopeOk q scope :=
  fun id v hv => ⟨(h id v hv).1, (h id v hv).2.mono hl⟩

lemma ScopeOk.bind {p : IRProgram} {scope : ConsumerScope} (h : ScopeOk p scope) (iu : IU)
    {ref : IRValueRef} (href : Available p ref) (t : SQLType) :
    ScopeOk p (scope.bind iu (.makeNonNull ref t)) := by
  intro id v hv
  by_cases hid : id = iu.id
  · simp only [ConsumerScope.bind, hid, Function.update_self, Option.some.injEq] at hv
    subst hv
    exact ⟨rfl, href⟩
  · simp only [ConsumerScope.bind, Function.update_of_ne hid] at hv
    exact h id v hv

lemma get_ok {scope : ConsumerScope} {iu : IU} {v : SQLValue} (h : scope.get iu = .ok v) :
    scope.bindings iu.id = some v := by
  unfold ConsumerScope.get at h
  split at h
  · rename_i hb
    cases h
    exact hb
  · cases h

lemma mapM_ok {α β : Type} {f : α → Except CppError β} {xs : List α} {ys : List β}
    (h : xs.mapM f = .ok ys) : List.Forall₂ (fun x y => f x = .ok y) xs ys := by
  induction xs generalizing ys with
  | nil =>
    cases h
    exact .nil
  | cons x xs ih =>
    rw [List.mapM_cons] at h
    cases hx : f x with
    | error e =>
      rw [hx] at h
      cases h
    | ok y =>
      cases hxs : xs.mapM f with
      | error e =>
        rw [hx, hxs] at h
        cases h
      | ok ys' =>
        rw [hx, hxs] at h
        cases h
        exact .cons hx (ih hxs)

/-- The values bound to a list of IUs. -/
lemma run_getAll {scope : ConsumerScope} {ius : List IU} {vals : List SQLValue}
    (h : scope.getAll ius ctx = .ok (vals, ctx')) :
    ctx' = ctx ∧ List.Forall₂ (fun iu v => scope.bindings iu.id = some v) ius vals := by
  obtain ⟨hvals, rfl⟩ := run_ofExcept_ok h
  exact ⟨rfl, (mapM_ok hvals).imp fun _ _ => get_ok⟩

lemma getAll_available {p : IRProgram} {scope : ConsumerScope} (hscope : ScopeOk p scope)
    {ius : List IU} {vals : List SQLValue}
    (h : List.Forall₂ (fun iu v => scope.bindings iu.id = some v) ius vals) :
    ∀ v ∈ vals, Available p v.valueRef := by
  induction h with
  | nil => simp
  | cons hv _ ih =>
    intro v hmem
    rcases List.mem_cons.mp hmem with rfl | hmem
    · exact (hscope _ _ hv).2
    · exact ih v hmem

/-- The value of an operator on two non-null values. -/
lemma run_emitOp {op : Opcode} {t : IRType} {rtype : SQLType} {a b v : SQLValue}
    (ha : a.nullRef = .null) (hb : b.nullRef = .null)
    (h : SQLValue.emitOp op t rtype a b ctx = .ok (v, ctx')) :
    v = ⟨(ctx.program.addBinary op t a.valueRef b.valueRef).1, .null, rtype⟩ ∧
      ctx' = ctx.withProgram (ctx.program.addBinary op t a.valueRef b.valueRef).2 := by
  simp only [SQLValue.emitOp] at h
  change (Gen.addBinary op t a.valueRef b.valueRef >>= _) (ctx.withProgram ctx.program) = _ at h
  rw [run_bind_of_ok (run_addBinary _ _ _ _ _)] at h
  simp only [SQLValue.propagateNull2, SQLValue.isNullable, ha, hb, bne_self_eq_false,
    Bool.not_false, Bool.and_self, if_true] at h
  exact run_pure_ok h

lemma run_logic {op : Opcode} {a b v : SQLValue} (h : (do
      return ⟨← Gen.addBinary op .bool a.valueRef b.valueRef, .null, .bool⟩ : Gen SQLValue) ctx =
        .ok (v, ctx')) :
    v = ⟨(ctx.program.addBinary op .bool a.valueRef b.valueRef).1, .null, .bool⟩ ∧
      ctx' = ctx.withProgram (ctx.program.addBinary op .bool a.valueRef b.valueRef).2 := by
  change (Gen.addBinary op .bool a.valueRef b.valueRef >>= _) (ctx.withProgram ctx.program) = _ at h
  rw [run_bind_of_ok (run_addBinary _ _ _ _ _)] at h
  exact run_pure_ok h

/-- The opcode of a binary expression and the type of its record. -/
def opcodeOf : BinOpKind → Opcode × IRType
  | .eq => (.cmpEq, .bool)
  | .ne => (.cmpNe, .bool)
  | .lt => (.cmpLt, .bool)
  | .gt => (.cmpGt, .bool)
  | .le => (.cmpLe, .bool)
  | .ge => (.cmpGe, .bool)
  | .add => (.add, .int64)
  | .sub => (.sub, .int64)
  | .and => (.lAnd, .bool)
  | .or => (.lOr, .bool)

/-- A binary expression evaluates its sides and adds one binary operation. -/
lemma run_evalExpr_binOp {resolve : ColumnRef → Except CppError IU} {scope : ConsumerScope}
    {op : BinOpKind} {l r : Expr} {v : SQLValue}
    (h : evalExpr resolve scope (.binOp op l r) ctx = .ok (v, ctx')) :
    ∃ vl ctx₁ vr ctx₂, evalExpr resolve scope l ctx = .ok (vl, ctx₁) ∧
      evalExpr resolve scope r ctx₁ = .ok (vr, ctx₂) ∧
      (vl.nullRef = .null → vr.nullRef = .null → v.nullRef = .null ∧
        v.valueRef = (ctx₂.program.addBinary (opcodeOf op).1 (opcodeOf op).2 vl.valueRef
          vr.valueRef).1 ∧
        ctx' = ctx₂.withProgram (ctx₂.program.addBinary (opcodeOf op).1 (opcodeOf op).2 vl.valueRef
          vr.valueRef).2) := by
  rw [evalExpr] at h
  obtain ⟨vl, ctx₁, hl, h⟩ := run_bind_ok h
  obtain ⟨vr, ctx₂, hr, h⟩ := run_bind_ok h
  refine ⟨vl, ctx₁, vr, ctx₂, hl, hr, fun hnl hnr => ?_⟩
  cases op with
  | and | or =>
    obtain ⟨rfl, rfl⟩ := run_logic h
    exact ⟨rfl, rfl, rfl⟩
  | eq | ne | lt | gt | le | ge | add | sub =>
    obtain ⟨rfl, rfl⟩ := run_emitOp hnl hnr h
    exact ⟨rfl, rfl, rfl⟩

/-- The sides of a boolean or arithmetic operation are boolean or arithmetic. -/
lemma sides_of_isBoolean {op : BinOpKind} {l r : Expr}
    (h : (Expr.binOp op l r).isArith = true ∨ (Expr.binOp op l r).isBoolean = true) :
    (l.isArith = true ∨ l.isBoolean = true) ∧ (r.isArith = true ∨ r.isBoolean = true) ∧
      ((opcodeOf op).1 = .lAnd ∨ (opcodeOf op).1 = .lOr → l.isBoolean = true ∧ r.isBoolean = true) := by
  cases op <;> simp_all [Expr.isArith, Expr.isBoolean, opcodeOf]

lemma opcodeOf_isBoolean {op : BinOpKind} {l r : Expr} (h : (Expr.binOp op l r).isBoolean = true)
    (a b : IRValueRef) : (Instr.binary (opcodeOf op).1 (opcodeOf op).2 a b).isBoolean = true := by
  cases op <;> first | rfl | cases h

lemma opcodeOf_ne_store (op : BinOpKind) : (opcodeOf op).1 ≠ .store := by
  cases op <;> simp [opcodeOf]

variable (strict) in
theorem evalExpr_advances {resolve : ColumnRef → Except CppError IU} {scope : ConsumerScope}
    {e : Expr} {v : SQLValue} (hready : Ready ctx.program) (hscope : ScopeOk ctx.program scope)
    (hstrict : strict → e.isArith = true ∨ e.isBoolean = true)
    (h : evalExpr resolve scope e ctx = .ok (v, ctx')) :
    Advances strict ctx.program ctx'.program ∧ v.nullRef = .null ∧
      Available ctx'.program v.valueRef ∧ (e.isBoolean = true → IsBoolRef ctx'.program v.valueRef) := by
  induction e generalizing v ctx ctx' with
  | colRef ref =>
    rw [evalExpr] at h
    obtain ⟨iu, ctx₁, hiu, hget⟩ := run_bind_ok h
    obtain ⟨-, rfl⟩ := run_ofExcept_ok hiu
    obtain ⟨hval, rfl⟩ := run_ofExcept_ok hget
    have hv := get_ok hval
    exact ⟨.refl hready, (hscope _ _ hv).1, (hscope _ _ hv).2, fun hb => by cases hb⟩
  | intLit n =>
    rw [evalExpr] at h
    have h' : Except.ok (⟨(ctx.program.addConstInt n .int64).1, .null, .integer⟩,
        ctx.withProgram (ctx.program.addConstInt n .int64).2) = Except.ok (v, ctx') := h
    cases h'
    exact ⟨hready.addConstInt strict n .int64, rfl, addConstInt_available hready.valid n .int64,
      fun hb => by cases hb⟩
  | binOp op l r ihl ihr =>
    obtain ⟨vl, ctx₁, vr, ctx₂, hl, hr, hv⟩ := run_evalExpr_binOp h
    have hsides := fun hs => sides_of_isBoolean (hstrict hs)
    obtain ⟨hadv₁, hnl, hal, hbl⟩ := ihl hready hscope (fun hs => (hsides hs).1) hl
    obtain ⟨hadv₂, hnr, har, hbr⟩ :=
      ihr hadv₁.ready (hscope.mono hadv₁.loc) (fun hs => (hsides hs).2.1) hr
    obtain ⟨hnull, hval, rfl⟩ := hv hnl hnr
    have hlow : strict → Lowerable ctx₂.program
        (.binary (opcodeOf op).1 (opcodeOf op).2 vl.valueRef vr.valueRef) := by
      intro hs
      have hlogic := (hsides hs).2.2
      cases op with
      | and | or =>
        obtain ⟨hbl', hbr'⟩ := hlogic (by simp [opcodeOf])
        exact ⟨(hbl hbl').mono hadv₂.loc, hbr hbr'⟩
      | eq | ne | lt | gt | le | ge | add | sub => trivial
    refine ⟨(hadv₁.trans hadv₂).trans (hadv₂.ready.addBinary strict _ _ (hal.mono hadv₂.loc) har hlow), hnull,
      ?_, fun hb => ?_⟩
    · rw [hval]
      exact addBinary_available hadv₂.ready.valid (opcodeOf_ne_store op) _ _ _
    · rw [hval]
      exact addBinary_isBool (opcodeOf_isBoolean hb _ _)

/-! ### Operators -/

lemma run_addConstInt (v : Word) (t : IRType) : Gen.addConstInt v t ctx =
    .ok ((ctx.program.addConstInt v t).1, ctx.withProgram (ctx.program.addConstInt v t).2) := rfl

lemma run_addUnary (op : Opcode) (t : IRType) (a : IRValueRef) : Gen.addUnary op t a ctx =
    .ok ((ctx.program.addUnary op t a).1, ctx.withProgram (ctx.program.addUnary op t a).2) := rfl

lemma run_addRotateRight (a : IRValueRef) (shift : Nat) : Gen.addRotateRight a shift ctx =
    .ok ((ctx.program.addRotateRight a shift).1,
      ctx.withProgram (ctx.program.addRotateRight a shift).2) := rfl

lemma run_addCall (t : IRType) (fn : RuntimeFn) (args : List IRValueRef) :
    Gen.addCall t fn args ctx = .ok ((ctx.program.addCall t fn args).1,
      ctx.withProgram (ctx.program.addCall t fn args).2) := rfl

lemma run_addBinary' (op : Opcode) (t : IRType) (a b : IRValueRef) : Gen.addBinary op t a b ctx =
    .ok ((ctx.program.addBinary op t a b).1,
      ctx.withProgram (ctx.program.addBinary op t a b).2) := rfl

variable (strict) in
lemma hashLoop_advances {values : List SQLValue} {hash1 hash2 : IRValueRef}
    {res : IRValueRef × IRValueRef} (hready : Ready ctx.program)
    (hvals : ∀ v ∈ values, Available ctx.program v.valueRef) (h1 : Available ctx.program hash1)
    (h2 : Available ctx.program hash2) (h : hashLoop values hash1 hash2 ctx = .ok (res, ctx')) :
    Advances strict ctx.program ctx'.program ∧ Available ctx'.program res.1 ∧
      Available ctx'.program res.2 := by
  induction values generalizing hash1 hash2 ctx with
  | nil =>
    obtain ⟨rfl, rfl⟩ := run_pure_ok h
    exact ⟨.refl hready, h1, h2⟩
  | cons sv rest ih =>
    rw [hashLoop, run_bind_of_ok (run_addBinary' _ _ _ _), run_bind_of_ok (run_addUnary _ _ _),
      run_bind_of_ok (run_addBinary' _ _ _ _), run_bind_of_ok (run_addBinary' _ _ _ _)] at h
    simp only [program_withProgram] at h
    have hsv := hvals sv List.mem_cons_self
    have a₁ := hready.addBinary strict .zExt .uint64 hsv hsv
      fun _ => trivial
    have a₂ := a₁.ready.addUnary strict .uint64 (hsv.mono a₁.loc)
    have hv₂ := emit_available (p := (ctx.program.addBinary .zExt .uint64 sv.valueRef sv.valueRef).2)
      (i := .unary .zExt .uint64 sv.valueRef) rfl
    have l₂ := a₁.loc.trans a₂.loc
    have a₃ := a₂.ready.addBinary strict .crc32 .uint64 (h1.mono l₂) hv₂
      fun _ => trivial
    have l₃ := l₂.trans a₃.loc
    have a₄ := a₃.ready.addBinary strict .crc32 .uint64 (h2.mono l₃)
      (hv₂.mono a₃.loc) fun _ => trivial
    have l₄ := l₃.trans a₄.loc
    obtain ⟨a₅, hres₁, hres₂⟩ := ih a₄.ready
      (fun v hv => (hvals v (List.mem_cons_of_mem sv hv)).mono l₄)
      ((addBinary_available a₂.ready.valid (by simp) _ _ _).mono a₄.loc)
      (addBinary_available a₃.ready.valid (by simp) _ _ _) h
    exact ⟨(((a₁.trans a₂).trans a₃).trans a₄).trans a₅, hres₁, hres₂⟩

variable (strict) in
lemma hashValues_advances {values : List SQLValue} {ref : IRValueRef} (hready : Ready ctx.program)
    (hvals : ∀ v ∈ values, Available ctx.program v.valueRef)
    (h : hashValues values ctx = .ok (ref, ctx')) :
    Advances strict ctx.program ctx'.program ∧ Available ctx'.program ref := by
  rw [hashValues, run_bind_of_ok (run_addConstInt _ _), run_bind_of_ok (run_addConstInt _ _)] at h
  simp only [program_withProgram] at h
  obtain ⟨⟨hash1, hash2⟩, ctx₁, hloop, h⟩ := run_bind_ok h
  have a₁ := hready.addConstInt strict hashSeed1 .uint64
  have a₂ := a₁.ready.addConstInt strict hashSeed2 .uint64
  have l₂ := a₁.loc.trans a₂.loc
  obtain ⟨a₃, h1, h2⟩ := hashLoop_advances strict a₂.ready
    (fun v hv => (hvals v hv).mono l₂)
    ((addConstInt_available hready.valid _ _).mono a₂.loc)
    (addConstInt_available a₁.ready.valid _ _) hloop
  rw [run_bind_of_ok (run_addRotateRight _ _), run_bind_of_ok (run_addBinary' _ _ _ _),
    run_bind_of_ok (run_addConstInt _ _), run_addBinary'] at h
  simp only [program_withProgram] at h
  cases h
  have a₄ := a₃.ready.addRotateRight strict 32 h2
  have hrot := emit_available (p := ctx₁.program) (i := .rotateRight hash2 32) rfl
  have a₅ := a₄.ready.addBinary strict .xor .uint64 (h1.mono a₄.loc) hrot
    fun _ => trivial
  have a₆ := a₅.ready.addConstInt strict hashMultiplier .uint64
  have a₇ := a₆.ready.addBinary strict .mul .uint64
    ((addBinary_available a₄.ready.valid (by simp) _ _ _).mono a₆.loc)
    (addConstInt_available a₅.ready.valid _ _) fun _ => trivial
  exact ⟨(((((a₁.trans a₂).trans a₃).trans a₄).trans a₅).trans a₆).trans a₇,
    addBinary_available a₆.ready.valid (by simp) _ _ _⟩

variable (strict) in
lemma padWithZeros_advances {n : Nat} {args res : List IRValueRef} (hready : Ready ctx.program)
    (hargs : ∀ r ∈ args, Available ctx.program r)
    (h : padWithZeros n args ctx = .ok (res, ctx')) :
    Advances strict ctx.program ctx'.program ∧ ∀ r ∈ res, Available ctx'.program r := by
  induction n generalizing args ctx with
  | zero =>
    obtain ⟨rfl, rfl⟩ := run_pure_ok h
    exact ⟨.refl hready, hargs⟩
  | succ n ih =>
    rw [padWithZeros, run_bind_of_ok (run_addConstInt _ _)] at h
    have a₁ := hready.addConstInt strict 0 .int64
    obtain ⟨a₂, hres⟩ := ih (show Ready (ctx.withProgram _).program from a₁.ready)
      (by
        intro r hr
        rcases List.mem_append.mp hr with hr | hr
        · exact (hargs r hr).mono a₁.loc
        · exact List.mem_singleton.mp hr ▸ addConstInt_available hready.valid 0 .int64) h
    exact ⟨a₁.trans a₂, hres⟩

variable (strict) in
/-- A row of calls that bind one IU each. -/
lemma call_bind_advances (value : Word) (t : IRType) (fn : RuntimeFn) {scope : ConsumerScope}
    (args : IRValueRef → List IRValueRef) (hready : Ready ctx.program)
    (hscope : ScopeOk ctx.program scope)
    (hargs : ∀ r ∈ args (ctx.program.addConstInt value t).1, r ≠ (ctx.program.addConstInt value t).1 →
      Available ctx.program r) (iu : IU) (ty : SQLType) :
    let p₁ := (ctx.program.addConstInt value t).2
    let p₂ := (p₁.addCall .int64 fn (args (ctx.program.addConstInt value t).1)).2
    Advances strict ctx.program p₂ ∧ ScopeOk p₂ (scope.bind iu
      (.makeNonNull (p₁.addCall .int64 fn (args (ctx.program.addConstInt value t).1)).1 ty)) := by
  intro p₁ p₂
  have a₁ := hready.addConstInt strict value t
  have a₂ : Advances strict p₁ p₂ := a₁.ready.addCall strict _ _ _ fun r hr => by
    by_cases hc : r = (ctx.program.addConstInt value t).1
    · exact hc ▸ addConstInt_available hready.valid value t
    · exact (hargs r hr hc).mono a₁.loc
  have a₃ := a₁.trans a₂
  exact ⟨a₃, (hscope.mono a₃.loc).bind iu (emit_available rfl) ty⟩

variable (strict) in
lemma bindFields_advances {fn : RuntimeFn} {entryPtr : IRValueRef} {i : Nat} {ius : List IU}
    {scope res : ConsumerScope} (hready : Ready ctx.program)
    (hentry : Available ctx.program entryPtr) (hscope : ScopeOk ctx.program scope)
    (h : HashJoinTranslator.bindFields fn entryPtr i ius scope ctx = .ok (res, ctx')) :
    Advances strict ctx.program ctx'.program ∧ ScopeOk ctx'.program res := by
  induction ius generalizing i scope ctx with
  | nil =>
    obtain ⟨rfl, rfl⟩ := run_pure_ok h
    exact ⟨.refl hready, hscope⟩
  | cons iu rest ih =>
    rw [HashJoinTranslator.bindFields, run_bind_of_ok (run_addConstInt _ _),
      run_bind_of_ok (run_addCall _ _ _)] at h
    simp only [program_withProgram] at h
    obtain ⟨a₁, hs₁⟩ := call_bind_advances strict (BitVec.ofNat 64 i) .int32 fn
      (fun c => [entryPtr, c]) hready hscope (by
        intro r hr hne
        rcases List.mem_pair.mp hr with rfl | rfl
        · exact hentry
        · exact absurd rfl hne) iu iu.type
    obtain ⟨a₂, hs₂⟩ := ih a₁.ready (hentry.mono a₁.loc) hs₁ h
    exact ⟨a₁.trans a₂, hs₂⟩

variable (strict) in
lemma bindColumns_advances {iPhi : IRValueRef} {cols : List (IU × Column)}
    {scope res : ConsumerScope} (hready : Ready ctx.program)
    (hphi : Available ctx.program iPhi) (hscope : ScopeOk ctx.program scope)
    (h : ScanTranslator.bindColumns iPhi cols scope ctx = .ok (res, ctx')) :
    Advances strict ctx.program ctx'.program ∧ ScopeOk ctx'.program res := by
  induction cols generalizing scope ctx with
  | nil =>
    obtain ⟨rfl, rfl⟩ := run_pure_ok h
    exact ⟨.refl hready, hscope⟩
  | cons c rest ih =>
    obtain ⟨iu, col⟩ := c
    rw [ScanTranslator.bindColumns, run_bind_of_ok (run_addConstInt _ _),
      run_bind_of_ok (run_addCall _ _ _)] at h
    simp only [program_withProgram] at h
    obtain ⟨a₁, hs₁⟩ := call_bind_advances strict col.address .ptr .loadColumnValue
      (fun c => [c, iPhi]) hready hscope (by
        intro r hr hne
        rcases List.mem_pair.mp hr with rfl | rfl
        · exact absurd rfl hne
        · exact hphi) iu col.type
    obtain ⟨a₂, hs₂⟩ := ih a₁.ready (hphi.mono a₁.loc) hs₁ h
    exact ⟨a₁.trans a₂, hs₂⟩

/-- A consumer emits structured code wherever it is asked to. -/
def ConsumerEmits (strict : Prop) (consume : Consumer) : Prop :=
  ∀ (ctx ctx' : CompilationContext) scope child, Ready ctx.program → ScopeOk ctx.program scope →
    consume scope child ctx = .ok ((), ctx') → Emits strict ctx.program ctx'.program

lemma loop_emits {name : String} {zeroOff : Nat} {bound one : IRValueRef}
    {body : IRValueRef → Gen Unit} (hv : Valid ctx.program)
    (hz : ctx.program.constIntCache.lookup (constKey 0 .int64) = some zeroOff)
    (hbound : Available ctx.program bound) (hone : Available ctx.program one)
    (hbody : ∀ ctx₁, ctx₁.program = ctx.program.openLoop name (.instr zeroOff) bound →
      ∀ ctx₂, body (.instr ctx.program.loopIndex) ctx₁ = .ok ((), ctx₂) →
        Emits strict ctx₁.program ctx₂.program)
    (h : Gen.countedLoop name (.instr zeroOff) bound one body ctx = .ok ((), ctx')) :
    Emits strict ctx.program ctx'.program := by
  obtain ⟨ctx₁, q, hrun, hclose, rfl⟩ := (run_countedLoop_iff hv _ _ _ _ _).mp h
  exact .loop hz hbound hone (hbody _ rfl ctx₁ hrun) hclose

lemma loopIndex_available {p : IRProgram} (hv : Valid p) (name : String)
    (zeroRef bound : IRValueRef) :
    Available (p.openLoop name zeroRef bound) (.instr p.loopIndex) :=
  ⟨_, _, rfl, (openLoop_spec hv name zeroRef bound).phi, rfl⟩

lemma scan_emits {scan : ScanTranslator} {parent : Consumer} (hp : ConsumerEmits strict parent)
    (hv : Valid ctx.program) (h : scan.produce parent ctx = .ok ((), ctx')) :
    Emits strict (ctx.program.addConstInt 0 .int64).2 ctx'.program := by
  rw [ScanTranslator.produce, run_bind_of_ok (run_addConstInt _ _),
    run_bind_of_ok (run_addConstInt _ _), run_bind_of_ok (run_addConstInt _ _)] at h
  simp only [program_withProgram, addConstInt_ref] at h
  have hv₁ := addConstInt_valid hv 0 .int64
  have hv₂ := addConstInt_valid hv₁ (BitVec.ofNat 64 scan.table.numRows) .int64
  have hv₃ := addConstInt_valid hv₂ 1 .int64
  have l₂ := addConstInt_local hv₁ (BitVec.ofNat 64 scan.table.numRows) .int64
  have l₃ := addConstInt_local hv₂ 1 .int64
  have hz := (l₂.trans l₃).cache _ _ (addConstInt_cache (p := ctx.program) 0 .int64)
  have hn := (addConstInt_available hv₁ (BitVec.ofNat 64 scan.table.numRows) .int64).mono l₃
  have ho := addConstInt_available hv₂ 1 .int64
  rw [addConstInt_ref] at hn ho
  refine ((Emits.const _ _ _).trans (.const _ _ _)).trans
    (loop_emits hv₃ hz hn ho ?_ h)
  intro ctx₁ hctx₁ ctx₂ hrun
  obtain ⟨scope, ctx₃, hcols, hparent⟩ := run_bind_ok hrun
  have hready : Ready ctx₁.program := hctx₁ ▸ openLoop_ready hv₃ _ _ _
  obtain ⟨adv, hscope⟩ := bindColumns_advances strict hready
    (hctx₁ ▸ loopIndex_available hv₃ _ _ _) (fun _ _ hv => by cases hv) hcols
  exact adv.emits.trans (hp ctx₃ ctx₂ scope scan.id adv.ready hscope hparent)

variable (strict) in
lemma Predicate.evalRest_advances {pred : Predicate} {scope : ConsumerScope} {es : List Expr}
    {v res : SQLValue} (hready : Ready ctx.program) (hscope : ScopeOk ctx.program scope)
    (hv : v.nullRef = .null ∧ Available ctx.program v.valueRef ∧
      (strict → IsBoolRef ctx.program v.valueRef))
    (hstrict : strict → ∀ e ∈ es, e.isBoolean = true)
    (h : pred.evalRest scope es v ctx = .ok (res, ctx')) :
    Advances strict ctx.program ctx'.program ∧ Available ctx'.program res.valueRef := by
  induction es generalizing v ctx with
  | nil =>
    obtain ⟨rfl, rfl⟩ := run_pure_ok h
    exact ⟨.refl hready, hv.2.1⟩
  | cons e rest ih =>
    rw [Predicate.evalRest] at h
    obtain ⟨next, ctx₁, hnext, h⟩ := run_bind_ok h
    obtain ⟨both, ctx₂, hand, h⟩ := run_bind_ok h
    obtain ⟨hand, hctx₂⟩ := run_logic hand
    have hbool : strict → e.isBoolean = true := fun hs => hstrict hs e List.mem_cons_self
    obtain ⟨a₁, -, hav, hb⟩ := evalExpr_advances strict hready hscope
      (fun hs => .inr (hbool hs)) hnext
    have a₂ := a₁.ready.addBinary strict .lAnd .bool (hv.2.1.mono a₁.loc)
      hav fun hs => ⟨(hv.2.2 hs).mono a₁.loc, hb (hbool hs)⟩
    subst hand hctx₂
    obtain ⟨a₃, hres⟩ := ih (v := ⟨_, .null, .bool⟩) a₂.ready (hscope.mono (a₁.loc.trans a₂.loc))
      ⟨rfl, addBinary_available a₁.ready.valid (show Opcode.lAnd ≠ .store by simp) .bool v.valueRef next.valueRef,
        fun _ => addBinary_isBool (t := .bool) (show (Instr.binary .lAnd .bool _ _).isBoolean = true from rfl)⟩
      (fun hs e' he' => hstrict hs e' (List.mem_cons_of_mem e he')) h
    exact ⟨(a₁.trans a₂).trans a₃, hres⟩

variable (strict) in
lemma Predicate.eval_advances {pred : Predicate} {scope : ConsumerScope} {res : SQLValue}
    (hready : Ready ctx.program) (hscope : ScopeOk ctx.program scope)
    (hstrict : strict → ∀ e ∈ pred.conjuncts, e.isBoolean = true)
    (h : pred.eval scope ctx = .ok (res, ctx')) :
    Advances strict ctx.program ctx'.program ∧ Available ctx'.program res.valueRef := by
  unfold Predicate.eval at h
  cases hc : pred.conjuncts with
  | nil =>
    rw [hc] at h
    cases h
  | cons e rest =>
    rw [hc] at h hstrict
    obtain ⟨v, ctx₁, hv, h⟩ := run_bind_ok h
    have hbool : strict → e.isBoolean = true := fun hs => hstrict hs e List.mem_cons_self
    obtain ⟨a₁, hnull, hav, hb⟩ := evalExpr_advances strict hready hscope
      (fun hs => .inr (hbool hs)) hv
    obtain ⟨a₂, hres⟩ := Predicate.evalRest_advances strict a₁.ready
      (hscope.mono a₁.loc) ⟨hnull, hav, fun hs => hb (hbool hs)⟩
      (fun hs e' he' => hstrict hs e' (List.mem_cons_of_mem e he')) h
    exact ⟨a₁.trans a₂, hres⟩

lemma select_emits {id : Nat} {pred : Predicate} {parent : Consumer}
    (hp : ConsumerEmits strict parent)
    (hstrict : strict → ∀ e ∈ pred.conjuncts, e.isBoolean = true) :
    ConsumerEmits strict (selectConsume id pred parent) := by
  intro ctx ctx' scope child hready hscope h
  simp only [selectConsume] at h
  obtain ⟨cond, ctx₁, hcond, h⟩ := run_bind_ok h
  obtain ⟨adv, hav⟩ := Predicate.eval_advances strict hready hscope hstrict hcond
  rw [run_bind_of_ok (show Gen.program ctx₁ = .ok (ctx₁.program, ctx₁) from rfl)] at h
  split_ifs at h
  · exact adv.emits.trans (hp _ _ _ _ adv.ready (hscope.mono adv.loc) h)
  · obtain ⟨ctx₂, hbody, rfl⟩ := (run_ifStmt_iff adv.ready.valid _ _).mp h
    have hopen := openIf_spec adv.ready.valid cond.valueRef
    exact adv.emits.trans (.ifThen adv.ready.fresh hav (hp _ _ _ _
      (openIf_ready adv.ready.valid cond.valueRef)
      ((hscope.mono adv.loc).mono hopen.loc) hbody))

lemma mem_insertArgs {htPtr hash zero4 r : IRValueRef} {keys payload : List IRValueRef}
    (h : r ∈ insertArgs htPtr hash zero4 keys payload) :
    r = htPtr ∨ r = hash ∨ r = zero4 ∨ r ∈ keys ∨ r ∈ payload := by
  simp only [insertArgs, padTo, List.mem_append, List.mem_replicate, List.mem_cons,
    List.not_mem_nil, or_false] at h
  tauto

/-- What `consumeBuildSide` emits, step by step. -/
lemma run_consumeBuildSide {j : HashJoinTranslator} {scope : ConsumerScope}
    (h : j.consumeBuildSide scope ctx = .ok ((), ctx')) :
    ∃ keyVals payloadVals hash ctx₁,
      List.Forall₂ (fun iu v => scope.bindings iu.id = some v) j.buildKeys keyVals ∧
      List.Forall₂ (fun iu v => scope.bindings iu.id = some v) j.buildPayloadIUs payloadVals ∧
      hashValues keyVals ctx = .ok (hash, ctx₁) ∧
      let p₂ := (ctx₁.program.addConstInt j.hashTable .ptr).2
      let p₃ := (p₂.addConstInt 0 .int64).2
      ctx'.program = (p₃.addCall .void .insert
        (insertArgs (ctx₁.program.addConstInt j.hashTable .ptr).1 hash (p₂.addConstInt 0 .int64).1
          (keyVals.map SQLValue.valueRef) (payloadVals.map SQLValue.valueRef))).2 ∧
      ctx'.heap = ctx₁.heap.setHashTable j.hashTable
        { ctx₁.heap.hashTables j.hashTable with numKeyFields := keyVals.length,
                                                numPayloadFields := payloadVals.length } := by
  rw [HashJoinTranslator.consumeBuildSide] at h
  obtain ⟨keyVals, ctx₁, hk, h₁⟩ := run_bind_ok h
  obtain ⟨payloadVals, ctx₂, hp, h₂⟩ := run_bind_ok h₁
  obtain ⟨hash, ctx₃, hhash, h₃⟩ := run_bind_ok h₂
  obtain ⟨rfl, hk'⟩ := run_getAll hk
  obtain ⟨rfl, hp'⟩ := run_getAll hp
  rw [run_bind_of_ok (run_addConstInt _ _), run_bind_of_ok (a := ()) rfl,
    run_bind_of_ok (a := ()) rfl, run_bind_of_ok (run_addConstInt _ _),
    run_bind_of_ok (run_addCall _ _ _)] at h₃
  cases h₃
  refine ⟨keyVals, payloadVals, hash, ctx₃, hk', hp', hhash, rfl, ?_⟩
  simp [Heap.setHashTable, CompilationContext.withProgram]

/-- The body of the loop over the matches. -/
def probeBody (j : HashJoinTranslator) (parent : Consumer) (scope : ConsumerScope)
    (matchesPtr idxPhi : IRValueRef) : Gen Unit := do
  let entryPtr ← Gen.addCall .ptr .matchAt [matchesPtr, idxPhi]
  let joinScope ← HashJoinTranslator.bindFields .getKey entryPtr 0 j.buildKeys scope
  let joinScope ← HashJoinTranslator.bindFields .getPayload entryPtr 0 j.buildPayloadIUs joinScope
  parent joinScope j.id

/-- What `consumeProbeSide` emits up to its loop over the matches. -/
lemma run_consumeProbeSide {j : HashJoinTranslator} {parent : Consumer} {scope : ConsumerScope}
    (h : j.consumeProbeSide parent scope ctx = .ok ((), ctx')) :
    ∃ keyVals hash ctx₁ ctx₂ lookupArgs ctx₃ ctx₄,
      List.Forall₂ (fun iu v => scope.bindings iu.id = some v) j.probeKeys keyVals ∧
      hashValues keyVals ctx = .ok (hash, ctx₁) ∧
      ctx₂.program = (ctx₁.program.addConstInt j.hashTable .ptr).2 ∧
      ctx₂.heap = ctx₁.heap.setHashTable j.hashTable
        { ctx₁.heap.hashTables j.hashTable with numKeyFields := keyVals.length } ∧
      padWithZeros (4 - keyVals.length) ([(ctx₁.program.addConstInt j.hashTable .ptr).1, hash] ++
        keyVals.map SQLValue.valueRef) ctx₂ = .ok (lookupArgs, ctx₃) ∧
      let p₄ := (ctx₃.program.addCall .ptr .lookupAll lookupArgs).2
      let p₅ := (p₄.addCall .int64 .matchCount [.instr ctx₃.program.dataSize]).2
      let p₆ := (p₅.addConstInt 0 .int64).2
      ctx₄ = ctx₃.withProgram (p₆.addConstInt 1 .int64).2 ∧
      Gen.countedLoop "hj_match" (.instr (constOffset p₅ 0 .int64)) (.instr p₄.dataSize)
        (.instr (constOffset p₆ 1 .int64)) (probeBody j parent scope (.instr ctx₃.program.dataSize)) ctx₄ =
          .ok ((), ctx') := by
  rw [HashJoinTranslator.consumeProbeSide] at h
  obtain ⟨keyVals, ctx₁, hk, h₁⟩ := run_bind_ok h
  obtain ⟨hash, ctx₂, hhash, h₂⟩ := run_bind_ok h₁
  obtain ⟨rfl, hk'⟩ := run_getAll hk
  rw [run_bind_of_ok (run_addConstInt _ _), run_bind_of_ok (a := ()) rfl] at h₂
  obtain ⟨lookupArgs, ctx₃, hpad, h₃⟩ := run_bind_ok h₂
  rw [run_bind_of_ok (run_addCall _ _ _), run_bind_of_ok (run_addCall _ _ _),
    run_bind_of_ok (run_addConstInt _ _), run_bind_of_ok (run_addConstInt _ _)] at h₃
  simp only [program_withProgram, addConstInt_ref] at h₃
  have hlen : 2 + 4 - ([(ctx₂.program.addConstInt j.hashTable .ptr).1, hash] ++
      keyVals.map SQLValue.valueRef).length = 4 - keyVals.length := by
    simp only [List.length_append, List.length_cons, List.length_nil, List.length_map]
    omega
  rw [hlen] at hpad
  exact ⟨keyVals, hash, ctx₂, _, lookupArgs, ctx₃, _, hk', hhash, rfl, rfl, hpad, rfl, h₃⟩

lemma buildSide_emits {j : HashJoinTranslator} {scope : ConsumerScope} (hready : Ready ctx.program)
    (hscope : ScopeOk ctx.program scope) (h : j.consumeBuildSide scope ctx = .ok ((), ctx')) :
    Emits strict ctx.program ctx'.program := by
  obtain ⟨keyVals, payloadVals, hash, ctx₁, hk, hp, hhash, hprog, -⟩ := run_consumeBuildSide h
  have hkeys := getAll_available hscope hk
  have hpayload := getAll_available hscope hp
  obtain ⟨a₁, hav⟩ := hashValues_advances strict hready hkeys hhash
  have a₂ := a₁.ready.addConstInt strict j.hashTable .ptr
  have a₃ := a₂.ready.addConstInt strict 0 .int64
  have l₃ := a₂.loc.trans a₃.loc
  rw [hprog]
  refine (((a₁.trans a₂).trans a₃).trans (a₃.ready.addCall strict _ _ _ fun r hr => ?_)).emits
  rcases mem_insertArgs hr with rfl | rfl | rfl | hr | hr
  · exact (addConstInt_available a₁.ready.valid _ _).mono a₃.loc
  · exact hav.mono l₃
  · exact addConstInt_available a₂.ready.valid _ _
  · obtain ⟨v, hv, rfl⟩ := List.mem_map.mp hr
    exact ((hkeys v hv).mono a₁.loc).mono l₃
  · obtain ⟨v, hv, rfl⟩ := List.mem_map.mp hr
    exact ((hpayload v hv).mono a₁.loc).mono l₃

/-- The body of the loop over the matches. -/
lemma probeBody_emits {j : HashJoinTranslator} {parent : Consumer} {scope : ConsumerScope}
    {matchesPtr idxPhi : IRValueRef} (hp : ConsumerEmits strict parent)
    (hready : Ready ctx.program) (hscope : ScopeOk ctx.program scope)
    (hm : Available ctx.program matchesPtr) (hidx : Available ctx.program idxPhi)
    (h : probeBody j parent scope matchesPtr idxPhi ctx = .ok ((), ctx')) :
    Emits strict ctx.program ctx'.program := by
  rw [probeBody, run_bind_of_ok (run_addCall _ _ _)] at h
  obtain ⟨scope₁, ctx₁, hkeys, h₁⟩ := run_bind_ok h
  obtain ⟨scope₂, ctx₂, hpayload, hparent⟩ := run_bind_ok h₁
  have b₁ := hready.addCall strict .ptr .matchAt
    [matchesPtr, idxPhi] (by
      intro r hr
      rcases List.mem_pair.mp hr with rfl | rfl
      · exact hm
      · exact hidx)
  have he := emit_available (p := ctx.program) (i := .call .ptr .matchAt [matchesPtr, idxPhi]) rfl
  obtain ⟨b₂, hs₁⟩ := bindFields_advances strict b₁.ready he (hscope.mono b₁.loc) hkeys
  obtain ⟨b₃, hs₂⟩ := bindFields_advances strict b₂.ready (he.mono b₂.loc) hs₁ hpayload
  exact ((b₁.trans b₂).trans b₃).emits.trans (hp _ _ _ _ b₃.ready hs₂ hparent)

/-- The code of a probe in front of its loop over the matches. -/
structure ProbeStart (strict : Prop) (p q : IRProgram) (matchesOff zeroOff countOff oneOff : Nat) :
    Prop where
  advances : Advances strict p q
  zeroCached : q.constIntCache.lookup (constKey 0 .int64) = some zeroOff
  matchesAvailable : Available q (.instr matchesOff)
  countAvailable : Available q (.instr countOff)
  oneAvailable : Available q (.instr oneOff)

variable (strict) in
lemma probeStart {j : HashJoinTranslator} {keyVals : List SQLValue} {hash : IRValueRef}
    {ctx₁ ctx₂ ctx₃ : CompilationContext} {lookupArgs : List IRValueRef} {n : Nat}
    (hready : Ready ctx.program) (hkeys : ∀ v ∈ keyVals, Available ctx.program v.valueRef)
    (hhash : hashValues keyVals ctx = .ok (hash, ctx₁))
    (hprog₂ : ctx₂.program = (ctx₁.program.addConstInt j.hashTable .ptr).2)
    (hpad : padWithZeros n ([(ctx₁.program.addConstInt j.hashTable .ptr).1, hash] ++
      keyVals.map SQLValue.valueRef) ctx₂ = .ok (lookupArgs, ctx₃)) :
    let p₄ := (ctx₃.program.addCall .ptr .lookupAll lookupArgs).2
    let p₅ := (p₄.addCall .int64 .matchCount [.instr ctx₃.program.dataSize]).2
    let p₆ := (p₅.addConstInt 0 .int64).2
    ProbeStart strict ctx.program (p₆.addConstInt 1 .int64).2 ctx₃.program.dataSize
      (constOffset p₅ 0 .int64) p₄.dataSize (constOffset p₆ 1 .int64) := by
  intro p₄ p₅ p₆
  obtain ⟨a₁, hav⟩ := hashValues_advances strict hready hkeys hhash
  have a₂ : Advances strict ctx₁.program ctx₂.program := by
    rw [hprog₂]
    exact a₁.ready.addConstInt strict j.hashTable .ptr
  obtain ⟨a₃, hargs⟩ := padWithZeros_advances strict a₂.ready (by
    intro r hr
    rcases List.mem_append.mp hr with hr | hr
    · rcases List.mem_pair.mp hr with rfl | rfl
      · rw [hprog₂]
        exact addConstInt_available a₁.ready.valid _ _
      · exact hav.mono a₂.loc
    · obtain ⟨v, hv, rfl⟩ := List.mem_map.mp hr
      exact ((hkeys v hv).mono a₁.loc).mono a₂.loc) hpad
  have a₄ : Advances strict ctx₃.program p₄ := a₃.ready.addCall strict .ptr .lookupAll lookupArgs hargs
  have hm : Available p₄ (.instr ctx₃.program.dataSize) := emit_available rfl
  have a₅ : Advances strict p₄ p₅ := a₄.ready.addCall strict .int64 .matchCount
    [.instr ctx₃.program.dataSize] (fun r hr => List.mem_singleton.mp hr ▸ hm)
  have ht : Available p₅ (.instr p₄.dataSize) := emit_available rfl
  have a₆ : Advances strict p₅ p₆ := a₅.ready.addConstInt strict 0 .int64
  have a₇ := a₆.ready.addConstInt strict 1 .int64
  have hone := addConstInt_available a₆.ready.valid 1 .int64
  rw [addConstInt_ref] at hone
  exact ⟨(((((a₁.trans a₂).trans a₃).trans a₄).trans a₅).trans a₆).trans a₇,
    a₇.loc.cache _ _ (addConstInt_cache 0 .int64), ((hm.mono a₅.loc).mono a₆.loc).mono a₇.loc,
    (ht.mono a₆.loc).mono a₇.loc, hone⟩

lemma probeSide_emits {j : HashJoinTranslator} {parent : Consumer} {scope : ConsumerScope}
    (hp : ConsumerEmits strict parent) (hready : Ready ctx.program)
    (hscope : ScopeOk ctx.program scope)
    (h : j.consumeProbeSide parent scope ctx = .ok ((), ctx')) :
    Emits strict ctx.program ctx'.program := by
  obtain ⟨keyVals, hash, ctx₁, ctx₂, lookupArgs, ctx₃, ctx₄, hk, hhash, hprog₂, -, hpad, hctx₄, hloop⟩ :=
    run_consumeProbeSide h
  have hstart := probeStart strict hready (getAll_available hscope hk) hhash hprog₂ hpad
  have hprog₄ := congrArg CompilationContext.program hctx₄
  rw [program_withProgram] at hprog₄
  dsimp only at hstart
  rw [← hprog₄] at hstart
  refine hstart.advances.emits.trans (loop_emits hstart.advances.ready.valid hstart.zeroCached
    hstart.countAvailable hstart.oneAvailable ?_ hloop)
  intro ctx₅ hctx₅ ctx₆ hrun
  have hv := hstart.advances.ready.valid
  have l₅ : Local ctx₄.program ctx₅.program := by
    rw [hctx₅]
    exact (openLoop_spec hv _ _ _).loc
  refine probeBody_emits hp ?_ ((hscope.mono hstart.advances.loc).mono l₅)
    (hstart.matchesAvailable.mono l₅) ?_ hrun
  · rw [hctx₅]
    exact openLoop_ready hv _ _ _
  · rw [hctx₅]
    exact loopIndex_available hv _ _ _

lemma join_emits {j : HashJoinTranslator} {parent : Consumer} (hp : ConsumerEmits strict parent) :
    ConsumerEmits strict (j.consume parent) := by
  intro ctx ctx' scope child hready hscope h
  unfold HashJoinTranslator.consume at h
  split_ifs at h
  · exact buildSide_emits hready hscope h
  · exact probeSide_emits hp hready hscope h

lemma run_printConsume {self : Word} {outputIUs : List IU} {scope : ConsumerScope} {child : Nat}
    (h : printConsume self outputIUs scope child ctx = .ok ((), ctx')) :
    outputIUs.length ≤ 8 ∧ ∃ vals callArgs ctx₁,
      List.Forall₂ (fun iu v => scope.bindings iu.id = some v) outputIUs vals ∧
      let p₁ := (ctx.program.addConstInt self .ptr).2
      let p₂ := (p₁.addConstInt (BitVec.ofNat 64 outputIUs.length) .int64).2
      padWithZeros (8 - vals.length) ([(ctx.program.addConstInt self .ptr).1,
          (p₁.addConstInt (BitVec.ofNat 64 outputIUs.length) .int64).1] ++
        vals.map SQLValue.valueRef) (ctx.withProgram p₂) = .ok (callArgs, ctx₁) ∧
      ctx' = ctx₁.withProgram (ctx₁.program.addCall .void .printRow callArgs).2 := by
  unfold printConsume at h
  by_cases hwide : 8 < outputIUs.length
  · rw [if_pos hwide] at h
    cases h
  rw [if_neg hwide] at h
  dsimp only at h
  rw [run_bind_of_ok (run_addConstInt _ _), run_bind_of_ok (run_addConstInt _ _)] at h
  obtain ⟨vals, ctx₁, hvals, h₁⟩ := run_bind_ok h
  obtain ⟨callArgs, ctx₂, hpad, h₂⟩ := run_bind_ok h₁
  obtain ⟨rfl, hvals'⟩ := run_getAll hvals
  rw [run_bind_of_ok (run_addCall _ _ _)] at h₂
  cases h₂
  have hlen : 2 + 8 - ([(ctx.program.addConstInt self .ptr).1, ((ctx.program.addConstInt self
      .ptr).2.addConstInt (BitVec.ofNat 64 outputIUs.length) .int64).1] ++
        vals.map SQLValue.valueRef).length = 8 - vals.length := by
    simp only [List.length_append, List.length_cons, List.length_nil, List.length_map]
    omega
  simp only [program_withProgram, hlen] at hpad
  exact ⟨by omega, vals, callArgs, ctx₂, hvals', hpad, rfl⟩

lemma print_emits (self : Word) (outputIUs : List IU) :
    ConsumerEmits strict (printConsume self outputIUs) := by
  intro ctx ctx' scope child hready hscope h
  obtain ⟨-, vals, callArgs, ctx₁, hvals, hpad, rfl⟩ := run_printConsume h
  have a₁ := hready.addConstInt strict self .ptr
  have a₂ := a₁.ready.addConstInt strict (BitVec.ofNat 64 outputIUs.length) .int64
  have l₂ := a₁.loc.trans a₂.loc
  have hav := getAll_available hscope hvals
  obtain ⟨a₃, hargs⟩ := padWithZeros_advances strict a₂.ready (by
    intro r hr
    rcases List.mem_append.mp hr with hr | hr
    · rcases List.mem_pair.mp hr with rfl | rfl
      · exact (addConstInt_available hready.valid _ _).mono a₂.loc
      · exact addConstInt_available a₁.ready.valid _ _
    · obtain ⟨v, hv, rfl⟩ := List.mem_map.mp hr
      exact (hav v hv).mono l₂) hpad
  exact (((a₁.trans a₂).trans a₃).trans (a₃.ready.addCall strict _ _ _ hargs)).emits

end

/-- All conjuncts of the tree's predicates are boolean. -/
def BooleanPredicates : Operator → Prop
  | .scan _ => True
  | .select _ child pred => BooleanPredicates child ∧ ∀ e ∈ pred.conjuncts, e.isBoolean = true
  | .hashJoin _ build probe _ _ _ => BooleanPredicates build ∧ BooleanPredicates probe

/-- The code of an operator tree is structured if its consumer's code is. The first thing it
asks for is the constant 0. -/
theorem produce_emits {strict : Prop} (op : Operator) {parent : Consumer}
    {ctx ctx' : CompilationContext} (hp : ConsumerEmits strict parent)
    (hstrict : strict → BooleanPredicates op) (hv : Valid ctx.program) (ho : Open ctx.program)
    (h : op.produce parent ctx = .ok ((), ctx')) :
    Emits strict (ctx.program.addConstInt 0 .int64).2 ctx'.program := by
  induction op generalizing parent ctx ctx' with
  | scan s => exact scan_emits hp hv h
  | select id child pred ih =>
    exact ih (select_emits hp fun hs => (hstrict hs).2) (fun hs => (hstrict hs).1) hv ho h
  | hashJoin id build probe buildKeys probeKeys ht ihb ihp =>
    obtain ⟨⟨⟩, ctx₁, hb, hprobe⟩ := run_bind_ok h
    have e₁ := ihb (join_emits hp) (fun hs => (hstrict hs).1) hv ho hb
    obtain ⟨-, hv₁, ho₁⟩ := ((Emits.const _ _ _ : Emits strict _ _).trans e₁).grows hv ho
    exact e₁.trans ((Emits.const _ _ _).trans
      (ihp (join_emits hp) (fun hs => (hstrict hs).2) hv₁ ho₁ hprobe))

end Proofs

end TidyTuples
