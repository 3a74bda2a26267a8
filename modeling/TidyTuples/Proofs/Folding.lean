import TidyTuples.Proofs.Deferral
import TidyTuples.Proofs.Generators
import TidyTuples.Sql.Reference

/-!
# Constant folding against the backend

The translator writes the bitwise instructions for `LAnd` and `LOr`, where `tryConstFold` computes
the logical ones. An expression is compiled by itself, with its columns as parameters.
-/

namespace TidyTuples

open Translator IRProgram

/-- What the code that the backend writes for a binary instruction leaves in its result. -/
def backendValue (arch : Arch) (op : Opcode) (t : IRType) (a b : Word) : Option Word :=
  let P : IRProgram := { instrData := [(0, .binary op t (.param 0 0) (.param 0 1))] }
  let fn : IRFunction := ⟨"", .void, [], [], [⟨"", [0]⟩], []⟩
  let code := (translateInstr P fn (canDeferComparison P fn) (findPhis P fn) 0 0).1
  let regs : VReg → Value
    | .requested (.param _ 0) => .word a
    | _ => .word b
  (arch.target.execStraight code ⟨regs, emptyHeap, []⟩).map fun s => (s.regs (.result 0)).toWord

/-- The value of an operand, by the records from the newest to the oldest. -/
def valueIn (arch : Arch) (columns : Nat → Word) : List (Nat × Instr) → IRValueRef → Option Word
  | _, .param _ k => some (columns k)
  | _, .null => none
  | [], .instr _ => none
  | (offset, i) :: older, .instr r =>
    if r = offset then
      match i with
      | .constInt _ value => some value
      | .constBool value => some (if value then 1 else 0)
      | .binary op t a b => do
        backendValue arch op t (← valueIn arch columns older a) (← valueIn arch columns older b)
      | _ => none
    else valueIn arch columns older (.instr r)

/-- The program an expression is compiled in: a function without code. -/
def expressionContext : CompilationContext where
  program := (({} : IRProgram).beginFunction "expression" .void []).2
  heap := emptyHeap
  nextIUId := 0
  numOperators := 0

/-- The column of every IU is a parameter. -/
def columnScope : ConsumerScope where
  bindings id := some (.makeNonNull (.param 0 id) .integer)

section

variable (arch : Arch) (resolve : ColumnRef → Except CppError IU) (columns : Nat → Word)

/-- The value that the compiled code of an expression computes. -/
def compiledValue (e : Expr) : Option Word :=
  match evalExpr resolve columnScope e expressionContext with
  | .error _ => none
  | .ok (v, ctx) => valueIn arch columns ctx.program.instrData v.valueRef

/-- The constant to which an expression is folded. -/
def foldedValue (e : Expr) : Option Word :=
  match evalExpr resolve columnScope e expressionContext with
  | .error _ => none
  | .ok (v, ctx) => ctx.program.constIntValue v.valueRef

end

namespace Expr

/-- Other expressions in place of some columns. -/
def replace (σ : ColumnRef → Option Expr) : Expr → Expr
  | colRef ref => (σ ref).getD (colRef ref)
  | intLit intVal => intLit intVal
  | binOp op left right => binOp op (left.replace σ) (right.replace σ)

/-- The binary operations in an expression, with their sides. -/
def nodes : Expr → List (BinOpKind × Expr × Expr)
  | colRef _ => []
  | intLit _ => []
  | binOp op left right => (op, left, right) :: (left.nodes ++ right.nodes)

end Expr

section

variable (arch : Arch) (resolve : ColumnRef → Except CppError IU) (columns : Nat → Word)

/-- Constant expressions of equal value in place of some columns. -/
def Replaces (σ : ColumnRef → Option Expr) : Prop := ∀ ref e, σ ref = some e → e.columns = [] ∧
  ∀ iu, resolve ref = .ok iu → compiledValue arch resolve columns e = some (columns iu.id)

/-- Replacing columns by constants does not change the truth of an expression, and what an
operation on constants is folded to is what the backend's instruction gives for them. -/
structure FoldingAgrees (e : Expr) : Prop where
  truth : ∀ σ, Replaces arch resolve columns σ →
    (compiledValue arch resolve columns (e.replace σ)).map (· != 0) =
      (compiledValue arch resolve columns e).map (· != 0)
  folds : ∀ σ, Replaces arch resolve columns σ → ∀ op left right, (op, left, right) ∈ e.nodes →
    ∀ a b, foldedValue resolve (left.replace σ) = some a →
      foldedValue resolve (right.replace σ) = some b →
      foldedValue resolve ((Expr.binOp op left right).replace σ) =
        backendValue arch (Proofs.opcodeOf op).1 (Proofs.opcodeOf op).2 a b

/-- The sides of every AND and OR are such that the bitwise operation gives the logical result. -/
def LogicalBits (e : Expr) : Prop := ∀ op left right, (op, left, right) ∈ e.nodes →
  ∀ a b, left.eval resolve (fun id => some (columns id)) = some a →
    right.eval resolve (fun id => some (columns id)) = some b →
    (op = .and → a = 0 ∨ b = 0 ∨ a &&& b = 1) ∧
    (op = .or → (a = 0 ∨ a = 1) ∧ (b = 0 ∨ b = 1))

end

namespace Proofs

section

variable {arch : Arch} {resolve : ColumnRef → Except CppError IU} {columns : Nat → Word}

/-! ### The backend's operations -/

/-- The backend's operation on the operands of a binary expression. -/
def backendOp (op : BinOpKind) (a b : Word) : Word :=
  match op with
  | .and => a &&& b
  | .or => a ||| b
  | op => op.eval a b

lemma backendValue_opcodeOf (op : BinOpKind) (a b : Word) :
    backendValue arch (opcodeOf op).1 (opcodeOf op).2 a b = some (backendOp op a b) := by
  cases op <;> rfl

lemma foldConstants_opcodeOf (op : BinOpKind) (a b : Word) :
    foldConstants (opcodeOf op).1 (opcodeOf op).2 a b = some (op.eval a b, (opcodeOf op).2) := by
  cases op <;> rfl

/-! ### Compiling an expression -/

/-- All constants have been requested as 64-bit integers. -/
structure Plain (p : IRProgram) : Prop where
  offsets : ∀ record ∈ p.instrData, record.1 < p.dataSize
  cache : ∀ key off, p.constIntCache.lookup key = some off →
    ∃ v, key = constKey v .int64 ∧ off < p.dataSize ∧ p.instrAt off = some (.constInt .int64 v)

def Known (p : IRProgram) : IRValueRef → Prop
  | .instr off => off < p.dataSize
  | _ => True

/-- What `p` has stays as it is in `q`. -/
structure Grows (arch : Arch) (columns : Nat → Word) (p q : IRProgram) : Prop where
  size : p.dataSize ≤ q.dataSize
  records : ∀ off < p.dataSize, q.instrAt off = p.instrAt off
  values : ∀ ref, Known p ref →
    valueIn arch columns q.instrData ref = valueIn arch columns p.instrData ref

/-- The operand has the value `w`; `c` says whether it is a constant. -/
structure Leaves (arch : Arch) (columns : Nat → Word) (p : IRProgram) (ref : IRValueRef) (c : Bool)
    (w : Word) : Prop where
  known : Known p ref
  value : valueIn arch columns p.instrData ref = some w
  const : p.constIntValue ref = if c then some w else none

variable {p q : IRProgram} {ref a b : IRValueRef} {c ca cb : Bool} {w wa wb : Word}

lemma Grows.refl (p : IRProgram) : Grows arch columns p p :=
  ⟨Nat.le_refl _, fun _ _ => rfl, fun _ _ => rfl⟩

lemma Known.mono (hsize : p.dataSize ≤ q.dataSize) (h : Known p ref) : Known q ref := by
  cases ref with
  | instr off => exact Nat.lt_of_lt_of_le h hsize
  | null => trivial
  | param f k => trivial

lemma Grows.trans {r : IRProgram} (h : Grows arch columns p q) (h' : Grows arch columns q r) :
    Grows arch columns p r :=
  ⟨h.size.trans h'.size,
    fun off hoff => (h'.records off (Nat.lt_of_lt_of_le hoff h.size)).trans (h.records off hoff),
    fun ref href => (h'.values ref (href.mono h.size)).trans (h.values ref href)⟩

lemma Leaves.grows (h : Leaves arch columns p ref c w) (hg : Grows arch columns p q) :
    Leaves arch columns q ref c w := by
  refine ⟨h.known.mono hg.size, (hg.values ref h.known).trans h.value, ?_⟩
  rw [← h.const]
  cases ref with
  | instr off =>
    have hrecord := hg.records off h.known
    simp only [IRProgram.constIntValue, IRProgram.getInstr, hrecord]
  | null => rfl
  | param f k => rfl

lemma valueIn_older {i : Instr} {offset off : Nat} {older : List (Nat × Instr)} (h : off ≠ offset) :
    valueIn arch columns ((offset, i) :: older) (.instr off) =
      valueIn arch columns older (.instr off) := by
  cases i <;> simp [valueIn, h]

lemma emit_grows (p : IRProgram) (i : Instr) : Grows arch columns p (p.emit i).2 := by
  have hpos := i.byteSize_pos
  have hsize : (p.emit i).2.dataSize = p.dataSize + i.byteSize := rfl
  constructor
  · omega
  · intro off hoff
    change List.lookup off ((p.dataSize, i) :: p.instrData) = _
    rw [List.lookup_cons, beq_false_of_ne (Nat.ne_of_lt hoff)]
    rfl
  · intro ref href
    cases ref with
    | instr off =>
      change valueIn arch columns ((p.dataSize, i) :: p.instrData) _ = _
      exact valueIn_older (Nat.ne_of_lt href)
    | null => cases p.instrData <;> rfl
    | param f k => cases p.instrData <;> rfl

lemma emit_plain (hp : Plain p) (i : Instr) : Plain (p.emit i).2 := by
  have hpos := i.byteSize_pos
  have hsize : (p.emit i).2.dataSize = p.dataSize + i.byteSize := rfl
  have hg : Grows Arch.x86 (fun _ => 0) p (p.emit i).2 := emit_grows p i
  constructor
  · intro record hrecord
    rcases List.mem_cons.mp hrecord with rfl | hrecord
    · dsimp only
      omega
    · have hlt := hp.offsets record hrecord
      omega
  · intro key off hkey
    obtain ⟨v, hv, hoff, hi⟩ := hp.cache key off hkey
    exact ⟨v, hv, by omega, (hg.records off hoff).trans hi⟩

lemma emit_known (i : Instr) : Known (p.emit i).2 (p.emit i).1 := by
  have hpos := i.byteSize_pos
  change p.dataSize < p.dataSize + i.byteSize
  omega

/-- The value of a constant, wherever its record is. -/
lemma valueIn_constInt {v : Word} {t : IRType} {off : Nat} {data : List (Nat × Instr)}
    (h : data.lookup off = some (.constInt t v)) :
    valueIn arch columns data (.instr off) = some v := by
  induction data with
  | nil => cases h
  | cons record older ih =>
    obtain ⟨offset, i⟩ := record
    rw [List.lookup_cons] at h
    by_cases heq : off = offset
    · rw [heq, beq_self_eq_true] at h
      cases h
      rw [valueIn, if_pos heq]
    · rw [beq_false_of_ne heq] at h
      rw [valueIn_older heq]
      exact ih h

lemma constKey_injective (t : IRType) {v v' : Word} (h : constKey v t = constKey v' t) : v = v' := by
  have hxor := congrArg (BitVec.ofNat 64 t.code <<< 56 ^^^ ·) h
  simpa [constKey, ← BitVec.xor_assoc] using hxor

lemma addConstInt_leaves (hp : Plain p) (v : Word) : Plain (p.addConstInt v .int64).2 ∧
    Grows arch columns p (p.addConstInt v .int64).2 ∧
    Leaves arch columns (p.addConstInt v .int64).2 (p.addConstInt v .int64).1 true v := by
  cases hkey : p.constIntCache.lookup (constKey v .int64) with
  | some off =>
    have hhit : p.addConstInt v .int64 =
        (.instr off, { p with constRequests := ⟨.int64, v, off⟩ :: p.constRequests }) := by
      simp only [IRProgram.addConstInt, hkey]
    rw [hhit]
    obtain ⟨v', hv', hoff, hi⟩ := hp.cache _ off hkey
    obtain rfl := constKey_injective .int64 hv'
    refine ⟨⟨hp.offsets, hp.cache⟩, ⟨Nat.le_refl _, fun _ _ => rfl, fun _ _ => rfl⟩,
      hoff, valueIn_constInt hi, IRProgram.constIntValue_constInt hi⟩
  | none =>
    have hmiss : p.addConstInt v .int64 =
        ((p.emit (.constInt .int64 v)).1, { (p.emit (.constInt .int64 v)).2 with
          constIntCache := (constKey v .int64, p.dataSize) :: p.constIntCache
          constRequests := ⟨.int64, v, p.dataSize⟩ :: p.constRequests }) := by
      simp only [IRProgram.addConstInt, hkey]
      rfl
    rw [hmiss]
    have hplain := emit_plain hp (.constInt .int64 v)
    have hi := emit_self (p := p) (.constInt .int64 v)
    have hg : Grows arch columns p (p.emit (.constInt .int64 v)).2 := emit_grows p _
    have hknown := emit_known (p := p) (.constInt .int64 v)
    refine ⟨⟨hplain.offsets, ?_⟩, ⟨hg.size, hg.records, hg.values⟩, hknown, valueIn_constInt hi,
      IRProgram.constIntValue_constInt hi⟩
    intro key off hlookup
    change List.lookup key ((constKey v .int64, p.dataSize) :: p.constIntCache) = some off at hlookup
    rw [List.lookup_cons] at hlookup
    by_cases heq : key = constKey v .int64
    · rw [heq, beq_self_eq_true] at hlookup
      cases hlookup
      exact ⟨v, heq, hknown, hi⟩
    · rw [beq_false_of_ne heq] at hlookup
      exact hplain.cache key off hlookup

lemma addConstBool_leaves (hp : Plain p) (v : Bool) : Plain (p.addConstBool v).2 ∧
    Grows arch columns p (p.addConstBool v).2 ∧
    Leaves arch columns (p.addConstBool v).2 (p.addConstBool v).1 true (wordOfBool v) := by
  refine ⟨emit_plain hp _, emit_grows p _, emit_known _, ?_, ?_⟩
  · change valueIn arch columns ((p.dataSize, .constBool v) :: p.instrData) (.instr p.dataSize) = _
    rw [valueIn, if_pos rfl]
    rfl
  · exact IRProgram.constIntValue_constBool (emit_self _)

/-- A comparison and a logical operation have the values 0 and 1. -/
lemma wordOfBool_eval {op : BinOpKind} (h : (opcodeOf op).2 = .bool) (v v' : Word) :
    wordOfBool (op.eval v v' != 0) = op.eval v v' := by
  have hbit : ∀ x : Bool, wordOfBool (wordOfBool x != 0) = wordOfBool x := by decide
  cases op <;> first | exact hbit _ | cases h

lemma emitBinary_leaves (op : BinOpKind) (ha : Leaves arch columns p a ca wa)
    (hb : Leaves arch columns p b cb wb) :
    Leaves arch columns (p.emit (.binary (opcodeOf op).1 (opcodeOf op).2 a b)).2
      (p.emit (.binary (opcodeOf op).1 (opcodeOf op).2 a b)).1 false (backendOp op wa wb) := by
  refine ⟨emit_known _, ?_, ?_⟩
  · change valueIn arch columns ((p.dataSize, _) :: p.instrData) (.instr p.dataSize) = _
    rw [valueIn, if_pos rfl, ha.value, hb.value]
    exact backendValue_opcodeOf op wa wb
  · exact IRProgram.constIntValue_runTime (emit_self _) rfl

/-- Two constants are folded by the logical meaning; otherwise the backend's operation is left. -/
lemma addBinary_leaves (hp : Plain p) (op : BinOpKind) (ha : Leaves arch columns p a ca wa)
    (hb : Leaves arch columns p b cb wb) :
    Plain (p.addBinary (opcodeOf op).1 (opcodeOf op).2 a b).2 ∧
      Grows arch columns p (p.addBinary (opcodeOf op).1 (opcodeOf op).2 a b).2 ∧
      Leaves arch columns (p.addBinary (opcodeOf op).1 (opcodeOf op).2 a b).2
        (p.addBinary (opcodeOf op).1 (opcodeOf op).2 a b).1 (ca && cb)
        (if ca && cb then op.eval wa wb else backendOp op wa wb) := by
  have hca := ha.const
  have hcb := hb.const
  cases hc : ca && cb with
  | false =>
    have hbinary : p.addBinary (opcodeOf op).1 (opcodeOf op).2 a b =
        p.emit (.binary (opcodeOf op).1 (opcodeOf op).2 a b) := by
      unfold IRProgram.addBinary IRProgram.tryConstFold
      rw [hca, hcb]
      cases ca with
      | false => rfl
      | true =>
        cases cb with
        | false => rfl
        | true => cases hc
    rw [hbinary]
    exact ⟨emit_plain hp _, emit_grows p _, emitBinary_leaves op ha hb⟩
  | true =>
    obtain ⟨rfl, rfl⟩ := Bool.and_eq_true_iff.mp hc
    rw [if_pos rfl] at hca hcb
    have hfold : p.addBinary (opcodeOf op).1 (opcodeOf op).2 a b =
        if (opcodeOf op).2 = .bool then p.addConstBool (op.eval wa wb != 0)
        else p.addConstInt (op.eval wa wb) (opcodeOf op).2 := by
      unfold IRProgram.addBinary IRProgram.tryConstFold
      rw [hca, hcb]
      simp only [Option.bind_eq_bind, Option.bind_some, foldConstants_opcodeOf]
      split_ifs <;> rfl
    rw [hfold]
    by_cases hbool : (opcodeOf op).2 = .bool
    · rw [if_pos hbool]
      have hleaves : Leaves arch columns _ _ true _ :=
        (addConstBool_leaves hp (op.eval wa wb != 0)).2.2
      rw [wordOfBool_eval hbool] at hleaves
      exact ⟨emit_plain hp _, emit_grows p _, hleaves⟩
    · have hint : (opcodeOf op).2 = .int64 := by cases op <;> first | rfl | exact absurd rfl hbool
      rw [if_neg hbool, hint]
      exact addConstInt_leaves hp _

/-- Whether an expression is a constant, and its value. -/
def codeEval (resolve : ColumnRef → Except CppError IU) (columns : Nat → Word) :
    Expr → Option (Bool × Word)
  | .colRef ref =>
    match resolve ref with
    | .ok iu => some (false, columns iu.id)
    | .error _ => none
  | .intLit intVal => some (true, intVal)
  | .binOp op left right => do
    let (cl, wl) ← codeEval resolve columns left
    let (cr, wr) ← codeEval resolve columns right
    return (cl && cr, if cl && cr then op.eval wl wr else backendOp op wl wr)

variable {ctx ctx₁ ctx₂ : CompilationContext} {vl vr : SQLValue} {e l r : Expr}

lemma run_emitOp_ok (op : Opcode) (t : IRType) (rtype : SQLType) (hnl : vl.nullRef = .null)
    (hnr : vr.nullRef = .null) : SQLValue.emitOp op t rtype vl vr ctx =
      .ok (⟨(ctx.program.addBinary op t vl.valueRef vr.valueRef).1, .null, rtype⟩,
        ctx.withProgram (ctx.program.addBinary op t vl.valueRef vr.valueRef).2) := by
  unfold SQLValue.emitOp
  rw [run_bind_of_ok (run_addBinary' _ _ _ _)]
  simp only [SQLValue.propagateNull2, SQLValue.isNullable, hnl, hnr, bne_self_eq_false,
    Bool.not_false, Bool.and_self, if_true]
  rfl

/-- A binary expression adds one binary operation behind the code of its sides. -/
lemma evalExpr_binOp_ok {op : BinOpKind} {scope : ConsumerScope}
    (hl : evalExpr resolve scope l ctx = .ok (vl, ctx₁))
    (hr : evalExpr resolve scope r ctx₁ = .ok (vr, ctx₂)) (hnl : vl.nullRef = .null)
    (hnr : vr.nullRef = .null) : ∃ v, v.nullRef = .null ∧
      v.valueRef = (ctx₂.program.addBinary (opcodeOf op).1 (opcodeOf op).2 vl.valueRef vr.valueRef).1 ∧
      evalExpr resolve scope (.binOp op l r) ctx = .ok (v, ctx₂.withProgram
        (ctx₂.program.addBinary (opcodeOf op).1 (opcodeOf op).2 vl.valueRef vr.valueRef).2) := by
  rw [evalExpr, run_bind_of_ok hl, run_bind_of_ok hr]
  cases op with
  | and | or => exact ⟨_, rfl, rfl, rfl⟩
  | eq | ne | lt | gt | le | ge | add | sub => exact ⟨_, rfl, rfl, run_emitOp_ok _ _ _ hnl hnr⟩

/-- What the code of an expression leaves. -/
theorem evalExpr_leaves (hp : Plain ctx.program) (he : codeEval resolve columns e = some (c, w)) :
    ∃ v ctx', evalExpr resolve columnScope e ctx = .ok (v, ctx') ∧ v.nullRef = .null ∧
      Plain ctx'.program ∧ Grows arch columns ctx.program ctx'.program ∧
      Leaves arch columns ctx'.program v.valueRef c w := by
  induction e generalizing ctx c w with
  | colRef ref =>
    unfold codeEval at he
    cases hres : resolve ref with
    | error err =>
      rw [hres] at he
      cases he
    | ok iu =>
      rw [hres] at he
      cases he
      refine ⟨.makeNonNull (.param 0 iu.id) .integer, ctx, ?_, rfl, hp, .refl _, trivial, ?_, rfl⟩
      · rw [evalExpr, hres]
        rfl
      · cases ctx.program.instrData <;> rfl
  | intLit intVal =>
    cases he
    exact ⟨_, _, rfl, rfl, addConstInt_leaves hp intVal⟩
  | binOp op l r ihl ihr =>
    simp only [codeEval, bind, Option.bind_eq_some_iff] at he
    obtain ⟨⟨cl, wl⟩, hcl, ⟨cr, wr⟩, hcr, hres⟩ := he
    cases hres
    obtain ⟨vl, ctx₁, hl, hnl, hp₁, hg₁, hvl⟩ := ihl hp hcl
    obtain ⟨vr, ctx₂, hr, hnr, hp₂, hg₂, hvr⟩ := ihr hp₁ hcr
    obtain ⟨v, hn, hval, hrun⟩ := @evalExpr_binOp_ok resolve ctx ctx₁ ctx₂ vl vr l r op columnScope hl hr hnl hnr
    obtain ⟨hp₃, hg₃, hv⟩ := addBinary_leaves hp₂ op (hvl.grows hg₂) hvr
    exact ⟨v, _, hrun, hn, hp₃, (hg₁.trans hg₂).trans hg₃, hval ▸ hv⟩

lemma expressionContext_plain : Plain expressionContext.program :=
  ⟨fun _ hno => (List.not_mem_nil hno).elim, fun _ _ h => nomatch h⟩

lemma compiledValue_eq (he : codeEval resolve columns e = some (c, w)) :
    compiledValue arch resolve columns e = some w := by
  obtain ⟨v, ctx', hrun, -, -, -, hv⟩ := @evalExpr_leaves arch _ _ _ _ _ _ expressionContext_plain he
  unfold compiledValue
  rw [hrun]
  exact hv.value

lemma foldedValue_eq (he : codeEval resolve columns e = some (c, w)) :
    foldedValue resolve e = if c then some w else none := by
  obtain ⟨v, ctx', hrun, -, -, -, hv⟩ :=
    @evalExpr_leaves Arch.x86 _ _ _ _ _ _ expressionContext_plain he
  unfold foldedValue
  rw [hrun]
  exact hv.const

/-! ### When folding agrees with the backend -/

lemma and_eq_iff (a b : Word) : BinOpKind.eval .and a b = a &&& b ↔ a = 0 ∨ b = 0 ∨ a &&& b = 1 := by
  change wordOfBool (a != 0 && b != 0) = a &&& b ↔ _
  by_cases ha : a = 0
  · simp [ha, wordOfBool]
  · by_cases hb : b = 0
    · simp [hb, wordOfBool]
    · simp only [bne_iff_ne.mpr ha, bne_iff_ne.mpr hb, Bool.and_self, wordOfBool, if_true, ha, hb,
        false_or]
      exact eq_comm

/-- A word whose other bits are all those of 1 is 0 or 1. -/
lemma eq_zero_or_one_of_and {a : Word} (h : a &&& 1 = a) : a = 0 ∨ a = 1 := by
  have hmod := congrArg BitVec.toNat h
  rw [BitVec.toNat_and] at hmod
  change a.toNat &&& 1 = a.toNat at hmod
  rw [Nat.and_one_is_mod] at hmod
  have hsmall : a.toNat = 0 ∨ a.toNat = 1 := by omega
  exact hsmall.imp BitVec.eq_of_toNat_eq BitVec.eq_of_toNat_eq

lemma or_eq_iff (a b : Word) :
    BinOpKind.eval .or a b = a ||| b ↔ (a = 0 ∨ a = 1) ∧ (b = 0 ∨ b = 1) := by
  change wordOfBool (a != 0 || b != 0) = a ||| b ↔ _
  constructor
  · intro h
    have hor : a ||| b = 0 ∨ a ||| b = 1 := by
      rw [← h]
      cases (a != 0 || b != 0) with
      | false => exact .inl rfl
      | true => exact .inr rfl
    rcases hor with hor | hor
    · have hboth := BitVec.or_eq_zero_iff.mp hor
      exact ⟨.inl hboth.1, .inl hboth.2⟩
    · have habsorb : a &&& (a ||| b) = a ∧ b &&& (a ||| b) = b := by
        constructor <;> (apply BitVec.eq_of_getLsbD_eq; intro i _; simp; tauto)
      rw [hor] at habsorb
      exact ⟨eq_zero_or_one_of_and habsorb.1, eq_zero_or_one_of_and habsorb.2⟩
  · rintro ⟨rfl | rfl, rfl | rfl⟩ <;> rfl

/-- The backend computes the logical meaning. -/
lemma eval_eq_backendOp_iff (op : BinOpKind) (a b : Word) : op.eval a b = backendOp op a b ↔
    (op = .and → a = 0 ∨ b = 0 ∨ a &&& b = 1) ∧ (op = .or → (a = 0 ∨ a = 1) ∧ (b = 0 ∨ b = 1)) := by
  cases op with
  | and =>
    change BinOpKind.eval .and a b = a &&& b ↔ _
    rw [and_eq_iff]
    simp
  | or =>
    change BinOpKind.eval .or a b = a ||| b ↔ _
    rw [or_eq_iff]
    simp
  | _ => simp [backendOp]

variable {σ : ColumnRef → Option Expr}

lemma logicalBits_sides {op : BinOpKind} (h : LogicalBits resolve columns (.binOp op l r)) :
    LogicalBits resolve columns l ∧ LogicalBits resolve columns r := by
  constructor
  · exact fun op' l' r' hmem => h op' l' r' (List.mem_cons_of_mem _ (List.mem_append_left _ hmem))
  · exact fun op' l' r' hmem => h op' l' r' (List.mem_cons_of_mem _ (List.mem_append_right _ hmem))

/-- An expression whose columns resolve is compiled. -/
lemma exists_codeEval (hcols : ∀ ref ∈ e.columns, ∃ iu, resolve ref = .ok iu) :
    ∃ c w, codeEval resolve columns e = some (c, w) := by
  induction e with
  | colRef ref =>
    obtain ⟨iu, hiu⟩ := hcols ref (List.mem_singleton_self ref)
    unfold codeEval
    rw [hiu]
    exact ⟨_, _, rfl⟩
  | intLit intVal => exact ⟨_, _, rfl⟩
  | binOp op l r ihl ihr =>
    obtain ⟨cl, wl, hl⟩ := ihl fun ref href => hcols ref (List.mem_append_left _ href)
    obtain ⟨cr, wr, hr⟩ := ihr fun ref href => hcols ref (List.mem_append_right _ href)
    unfold codeEval
    rw [hl, hr]
    exact ⟨_, _, rfl⟩

/-- Whichever columns are replaced, the code computes the meaning of the expression. -/
lemma codeEval_replace (hσ : Replaces arch resolve columns σ) (h : LogicalBits resolve columns e)
    (hcols : ∀ ref ∈ e.columns, ∃ iu, resolve ref = .ok iu) :
    ∃ c w, codeEval resolve columns (e.replace σ) = some (c, w) ∧
      e.eval resolve (fun id => some (columns id)) = some w := by
  induction e with
  | colRef ref =>
    obtain ⟨iu, hiu⟩ := hcols ref (List.mem_singleton_self ref)
    have heval : (Expr.colRef ref).eval resolve (fun id => some (columns id)) =
        some (columns iu.id) := by
      unfold Expr.eval
      rw [hiu]
    rw [heval]
    unfold Expr.replace
    cases href : σ ref with
    | none =>
      refine ⟨false, _, ?_, rfl⟩
      unfold codeEval
      rw [Option.getD_none]
      dsimp only
      rw [hiu]
    | some e' =>
      obtain ⟨hno, hvalue⟩ := hσ ref e' href
      have hcols' : ∀ ref' ∈ e'.columns, ∃ iu, resolve ref' = .ok iu := by
        intro ref' href'
        rw [hno] at href'
        cases href'
      obtain ⟨c, w, hcode⟩ := @exists_codeEval resolve columns e' hcols'
      have hw := hvalue iu hiu
      rw [compiledValue_eq hcode] at hw
      cases hw
      exact ⟨c, _, hcode, rfl⟩
  | intLit intVal => exact ⟨true, intVal, rfl, rfl⟩
  | binOp op l r ihl ihr =>
    obtain ⟨hbl, hbr⟩ := logicalBits_sides h
    obtain ⟨cl, wl, hl, hel⟩ := ihl hbl fun ref href => hcols ref (List.mem_append_left _ href)
    obtain ⟨cr, wr, hr, her⟩ := ihr hbr fun ref href => hcols ref (List.mem_append_right _ href)
    have hop : op.eval wl wr = backendOp op wl wr :=
      (eval_eq_backendOp_iff op wl wr).mpr (h op l r List.mem_cons_self wl wr hel her)
    refine ⟨cl && cr, op.eval wl wr, ?_, ?_⟩
    · unfold Expr.replace codeEval
      rw [hl, hr]
      simp [← hop]
    · unfold Expr.eval
      rw [hel, her]
      rfl

/-- Every column replaced by its value. -/
def literals (resolve : ColumnRef → Except CppError IU) (columns : Nat → Word) (ref : ColumnRef) :
    Option Expr :=
  match resolve ref with
  | .ok iu => some (.intLit (columns iu.id))
  | .error _ => none

lemma literals_replaces : Replaces arch resolve columns (literals resolve columns) := by
  intro ref e he
  unfold literals at he
  cases hres : resolve ref with
  | error err =>
    rw [hres] at he
    cases he
  | ok iu =>
    rw [hres] at he
    cases he
    refine ⟨rfl, fun iu' hiu' => ?_⟩
    cases hiu'
    exact @compiledValue_eq arch resolve columns true _ _ rfl

/-- With all columns replaced everything is folded, to the meaning. -/
lemma codeEval_literals (h : e.eval resolve (fun id => some (columns id)) = some w) :
    codeEval resolve columns (e.replace (literals resolve columns)) = some (true, w) := by
  induction e generalizing w with
  | colRef ref =>
    unfold Expr.eval at h
    cases hres : resolve ref with
    | error err =>
      rw [hres] at h
      cases h
    | ok iu =>
      rw [hres] at h
      cases h
      unfold Expr.replace literals
      rw [hres]
      rfl
  | intLit intVal =>
    cases h
    rfl
  | binOp op l r ihl ihr =>
    simp only [Expr.eval, bind, Option.bind_eq_some_iff] at h
    obtain ⟨wl, hl, wr, hr, hw⟩ := h
    cases hw
    unfold Expr.replace codeEval
    rw [ihl hl, ihr hr]
    rfl

lemma mem_nodes_columns {op : BinOpKind} (h : (op, l, r) ∈ e.nodes) :
    ∀ ref ∈ l.columns ++ r.columns, ref ∈ e.columns := by
  induction e with
  | colRef ref => cases h
  | intLit intVal => cases h
  | binOp op' l' r' ihl ihr =>
    rcases List.mem_cons.mp h with heq | h
    · cases heq
      exact fun ref href => href
    · rcases List.mem_append.mp h with h | h
      · exact fun ref href => List.mem_append_left _ (ihl h ref href)
      · exact fun ref href => List.mem_append_right _ (ihr h ref href)

lemma logicalBits_node {op : BinOpKind} (h : LogicalBits resolve columns e)
    (hnode : (op, l, r) ∈ e.nodes) : LogicalBits resolve columns (.binOp op l r) := by
  induction e with
  | colRef ref => cases hnode
  | intLit intVal => cases hnode
  | binOp op' l' r' ihl ihr =>
    rcases List.mem_cons.mp hnode with heq | hnode
    · cases heq
      exact h
    · rcases List.mem_append.mp hnode with hnode | hnode
      · exact ihl (logicalBits_sides h).1 hnode
      · exact ihr (logicalBits_sides h).2 hnode

/-- Folding agrees with the backend exactly if the sides of every AND and OR are such that the
bitwise operation gives the logical result. -/
theorem foldingAgrees_iff (arch : Arch) (columns : Nat → Word)
    (hcols : ∀ ref ∈ e.columns, ∃ iu, resolve ref = .ok iu) :
    FoldingAgrees arch resolve columns e ↔ LogicalBits resolve columns e := by
  constructor
  · intro h op l r hnode a b ha hb
    have hl := codeEval_literals ha
    have hr := codeEval_literals hb
    have hfolds := h.folds _ literals_replaces op l r hnode a b (foldedValue_eq hl) (foldedValue_eq hr)
    have hboth : codeEval resolve columns ((Expr.binOp op l r).replace (literals resolve columns)) =
        some (true, op.eval a b) := by
      unfold Expr.replace codeEval
      rw [hl, hr]
      rfl
    rw [foldedValue_eq hboth, backendValue_opcodeOf] at hfolds
    exact (eval_eq_backendOp_iff op a b).mp (Option.some.inj hfolds)
  · intro h
    constructor
    · intro σ hσ
      obtain ⟨c, w, hcode, heval⟩ := codeEval_replace hσ h hcols
      have hnone : Replaces arch resolve columns fun _ => none := fun ref e he => nomatch he
      obtain ⟨c', w', hcode', heval'⟩ := codeEval_replace hnone h hcols
      have hself : e.replace (fun _ => none) = e := by
        clear hcode' heval' hcode heval h hcols
        induction e with
        | binOp op l r ihl ihr => rw [Expr.replace, ihl, ihr]
        | _ => rfl
      rw [hself] at hcode'
      rw [heval] at heval'
      cases heval'
      rw [compiledValue_eq hcode, compiledValue_eq hcode']
    · intro σ hσ op l r hnode a b ha hb
      have hall := mem_nodes_columns hnode
      have hbits := logicalBits_sides (logicalBits_node h hnode)
      obtain ⟨cl, wl, hl, hel⟩ := codeEval_replace hσ hbits.1
        fun ref href => hcols ref (hall ref (List.mem_append_left _ href))
      obtain ⟨cr, wr, hr, her⟩ := codeEval_replace hσ hbits.2
        fun ref href => hcols ref (hall ref (List.mem_append_right _ href))
      rw [foldedValue_eq hl] at ha
      rw [foldedValue_eq hr] at hb
      split_ifs at ha hb with hcl hcr
      cases ha
      cases hb
      have hboth : codeEval resolve columns ((Expr.binOp op l r).replace σ) =
          some (true, op.eval a b) := by
        unfold Expr.replace codeEval
        rw [hl, hr, hcl, hcr]
        rfl
      rw [foldedValue_eq hboth, backendValue_opcodeOf,
        ← (eval_eq_backendOp_iff op a b).mpr (h op l r hnode a b hel her)]
      rfl

end

/-- `a.x + 1 = 4 AND (a.x > 2 OR a.x = 7)` -/
def boundsExpr : Expr := .binOp .and
  (.binOp .eq (.binOp .add (.colRef ⟨"a", "x"⟩) (.intLit 1)) (.intLit 4))
  (.binOp .or (.binOp .gt (.colRef ⟨"a", "x"⟩) (.intLit 2)) (.binOp .eq (.colRef ⟨"a", "x"⟩) (.intLit 7)))

def columnResolve (_ : ColumnRef) : Except CppError IU := .ok ⟨"a.x", .integer, 0⟩

theorem foldingAgrees_iff_bounds : FoldingAgrees Arch.x86 columnResolve (fun _ => 3) boundsExpr := by
  let value := fun e : Expr => e.eval columnResolve fun _ => some 3
  have hnodes : ∀ node ∈ boundsExpr.nodes,
      (node.1 = .and → value node.2.1 = some 1 ∧ value node.2.2 = some 1) ∧
      (node.1 = .or → value node.2.1 = some 1 ∧ value node.2.2 = some 0) := by decide +kernel
  refine (foldingAgrees_iff Arch.x86 (fun _ => 3) fun _ _ => ⟨_, rfl⟩).mpr ?_
  intro op l r hnode a b ha hb
  obtain ⟨hand, hor⟩ := hnodes (op, l, r) hnode
  constructor
  · intro hop
    obtain ⟨hl, hr⟩ := hand hop
    cases ha.symm.trans hl
    cases hb.symm.trans hr
    exact .inr (.inr (by decide))
  · intro hop
    obtain ⟨hl, hr⟩ := hor hop
    cases ha.symm.trans hl
    cases hb.symm.trans hr
    exact ⟨.inr rfl, .inl rfl⟩

/-- `a.x AND 2` -/
def maskExpr : Expr := .binOp .and (.colRef ⟨"a", "x"⟩) (.intLit 2)

/-- At run time `1 AND 2` is `1 & 2`, which is false; folded it is true. -/
theorem folding_changes_mask : ¬ ∀ (resolve : ColumnRef → Except CppError IU)
    (columns : Nat → Word) (e : Expr) (σ : ColumnRef → Option Expr),
    (∀ ref ∈ e.columns, ∃ iu, resolve ref = .ok iu) → Replaces Arch.x86 resolve columns σ →
    (compiledValue Arch.x86 resolve columns (e.replace σ)).map (· != 0) =
      (compiledValue Arch.x86 resolve columns e).map (· != 0) := by
  intro h
  have hsame := h columnResolve (fun _ => 1) maskExpr (literals columnResolve fun _ => 1)
    (fun _ _ => ⟨_, rfl⟩) literals_replaces
  exact absurd hsame (by decide)

end Proofs

end TidyTuples
