import TidyTuples.Proofs.Builders
import TidyTuples.Proofs.Folding
import TidyTuples.Sql.Parser

/-!
# Folding in 64-bit arithmetic

`tryConstFold` computes with the constants in `int64_t`. Which constant an operand is depends on
the columns that are bound to constants and on the cache, which answers a literal with an older
constant under the same key.
-/

namespace TidyTuples

open IRProgram

/-- The values of `int64_t`. -/
def InInt64 (x : Int) : Prop := -2 ^ 63 ≤ x ∧ x < 2 ^ 63

/-- An opcode with the constants that `tryConstFold` applies it to. -/
structure Fold where
  op : Opcode
  a : Word
  b : Word
deriving DecidableEq, Repr

/-- The `int64_t` operation neither overflows nor traps. -/
def Fold.Defined (f : Fold) : Prop :=
  match f.op with
  | .add => InInt64 (f.a.toInt + f.b.toInt)
  | .sub => InInt64 (f.a.toInt - f.b.toInt)
  | .mul => InInt64 (f.a.toInt * f.b.toInt)
  | .div => f.b ≠ 0 ∧ InInt64 (f.a.toInt.tdiv f.b.toInt)
  | _ => True

/-- What `addBinary` folds. -/
def IRProgram.foldOf (p : IRProgram) (op : Opcode) (t : IRType) (a b : IRValueRef) :
    Option Fold := do
  let va ← p.constIntValue a
  let vb ← p.constIntValue b
  let _ ← foldConstants op t va vb
  return ⟨op, va, vb⟩

/-- The constant with which `addConstInt(v, Int64)` answers. -/
def IRProgram.answer (p : IRProgram) (v : Word) : Word :=
  match p.constIntCache.lookup (constKey v .int64) with
  | some offset => (p.constIntValue (.instr offset)).getD v
  | none => v

section

variable (resolve : ColumnRef → Except CppError IU) (scope : ConsumerScope)

/-- The folds of the operations in an expression, in the order in which they are compiled. -/
def foldsOf : Expr → CompilationContext → List Fold
  | .colRef _, _ => []
  | .intLit _, _ => []
  | .binOp op left right, ctx =>
    foldsOf left ctx ++ match evalExpr resolve scope left ctx with
    | .error _ => []
    | .ok (l, ctx) =>
      foldsOf right ctx ++ match evalExpr resolve scope right ctx with
      | .error _ => []
      | .ok (r, ctx) => (ctx.program.foldOf (Proofs.opcodeOf op).1 (Proofs.opcodeOf op).2
          l.valueRef r.valueRef).toList

/-- The value bound to a column. -/
def lookupColumn (ref : ColumnRef) : Option SQLValue :=
  match resolve ref with
  | .ok iu => scope.bindings iu.id
  | .error _ => none

/-- Every column of the expression has a value. -/
def ColumnsBound (e : Expr) : Prop := ∀ ref ∈ e.columns, lookupColumn resolve scope ref ≠ none

variable (p : IRProgram)

/-- The value of an expression without run-time operands. -/
def constantValue : Expr → Option Word
  | .colRef ref => (lookupColumn resolve scope ref).bind fun v => p.constIntValue v.valueRef
  | .intLit intVal => some (p.answer intVal)
  | .binOp op left right => do
    let a ← constantValue left
    let b ← constantValue right
    return if (Proofs.opcodeOf op).2 = .bool then op.eval a b else p.answer (op.eval a b)

/-- Every sum and difference of constants, up to the first column without a value, is a value of
`int64_t`. -/
def SumsFit : Expr → Prop
  | .colRef _ => True
  | .intLit _ => True
  | .binOp op left right => SumsFit left ∧ (ColumnsBound resolve scope left → SumsFit right) ∧
    ∀ a b, constantValue resolve scope p left = some a →
      constantValue resolve scope p right = some b →
      (op = .add → InInt64 (a.toInt + b.toInt)) ∧ (op = .sub → InInt64 (a.toInt - b.toInt))

end

/-- The exact result is a value of `int64_t`. No quotient but `-2^63 / -1` is outside. -/
def PairFits (op : Opcode) (a b : Word) : Prop :=
  match op with
  | .add => InInt64 (a.toInt + b.toInt)
  | .sub => InInt64 (a.toInt - b.toInt)
  | .mul => InInt64 (a.toInt * b.toInt)
  | .div => ¬ (a = BitVec.intMin 64 ∧ b = -1)
  | _ => True

namespace Proofs

section

variable {p q : IRProgram} {ref a b : IRValueRef} {v : Word}

/-! ### What a constant is answered with -/

/-- The cache answers with constants. -/
structure Settled (p : IRProgram) : Prop where
  offsets : ∀ record ∈ p.instrData, record.1 < p.dataSize
  cache : ∀ key off, p.constIntCache.lookup key = some off →
    ∃ t v, p.instrAt off = some (.constInt t v)

/-- Code is added behind that of `p`, and the answers of the cache stay. -/
structure Continues (p q : IRProgram) : Prop where
  settled : Settled q
  size : p.dataSize ≤ q.dataSize
  records : ∀ off < p.dataSize, q.instrAt off = p.instrAt off
  answers : ∀ v, q.answer v = p.answer v

lemma Settled.refl (h : Settled p) : Continues p p :=
  ⟨h, Nat.le_refl _, fun _ _ => rfl, fun _ => rfl⟩

lemma Continues.trans {r : IRProgram} (h : Continues p q) (h' : Continues q r) : Continues p r where
  settled := h'.settled
  size := h.size.trans h'.size
  records off hoff := (h'.records off (Nat.lt_of_lt_of_le hoff h.size)).trans (h.records off hoff)
  answers v := (h'.answers v).trans (h.answers v)

lemma settled_of_build {calls : List BuilderCall} (h : BuilderCall.build calls = some p) :
    Settled p := by
  have hcache := build_cacheFaithful h
  constructor
  · exact hcache.offsets
  · intro key off hkey
    obtain ⟨r, hr, rfl⟩ := Option.map_eq_some_iff.mp ((hcache.lookup key).symm.trans hkey)
    exact ⟨r.type, r.value, hcache.record key r hr⟩

lemma Continues.constIntValue (h : Continues p q) (href : Known p ref) :
    q.constIntValue ref = p.constIntValue ref := by
  cases ref with
  | instr off => simp only [IRProgram.constIntValue, IRProgram.getInstr, h.records off href]
  | null => rfl
  | param f k => rfl

lemma Settled.answer_eq (h : Settled p) {off : Nat}
    (hkey : p.constIntCache.lookup (constKey v .int64) = some off) :
    p.constIntValue (.instr off) = some (p.answer v) := by
  obtain ⟨t, w, hi⟩ := h.cache _ off hkey
  rw [IRProgram.answer, hkey]
  dsimp only
  rw [IRProgram.constIntValue_constInt hi]
  rfl

lemma Settled.emit (h : Settled p) (i : Instr) : Continues p (p.emit i).2 := by
  have hrecords : ∀ off < p.dataSize, (p.emit i).2.instrAt off = p.instrAt off := by
    intro off hoff
    rw [emit_instrAt, if_neg (Nat.ne_of_lt hoff)]
  have hcache : ∀ key off, p.constIntCache.lookup key = some off →
      (p.emit i).2.instrAt off = p.instrAt off := by
    intro key off hkey
    obtain ⟨t, v, hi⟩ := h.cache key off hkey
    exact hrecords off (Proofs.instrAt_lt h.offsets hi)
  constructor
  · constructor
    · exact emit_offsets h.offsets i
    · intro key off hkey
      obtain ⟨t, v, hi⟩ := h.cache key off hkey
      exact ⟨t, v, (hcache key off hkey).trans hi⟩
  · rw [emit_dataSize]
    omega
  · exact hrecords
  · intro v
    simp only [IRProgram.answer, emit_constIntCache]
    cases hkey : p.constIntCache.lookup (constKey v .int64) with
    | none => rfl
    | some off =>
      dsimp only
      simp only [IRProgram.constIntValue, IRProgram.getInstr, hcache _ off hkey]

/-- A request for an integer is answered and does not change later answers. -/
lemma Settled.addConstInt (h : Settled p) (v : Word) :
    Continues p (p.addConstInt v .int64).2 ∧ Known (p.addConstInt v .int64).2 (p.addConstInt v .int64).1 ∧
      (p.addConstInt v .int64).2.constIntValue (p.addConstInt v .int64).1 = some (p.answer v) := by
  cases hkey : p.constIntCache.lookup (constKey v .int64) with
  | some off =>
    obtain ⟨t, w, hi⟩ := h.cache _ off hkey
    rw [addConstInt_hit hkey]
    refine ⟨⟨⟨h.offsets, h.cache⟩, Nat.le_refl _, fun _ _ => rfl, fun _ => rfl⟩,
      Proofs.instrAt_lt h.offsets hi, ?_⟩
    exact h.answer_eq hkey
  | none =>
    have hanswer : p.answer v = v := by rw [IRProgram.answer, hkey]
    have hemit := h.emit (.constInt .int64 v)
    have hnew := emit_self (p := p) (.constInt .int64 v)
    have hvalue := IRProgram.constIntValue_constInt hnew
    rw [addConstInt_miss hkey]
    refine ⟨⟨⟨hemit.settled.offsets, ?_⟩, hemit.size, hemit.records, ?_⟩, emit_known _, ?_⟩
    · intro key off hlookup
      change List.lookup key ((constKey v .int64, p.dataSize) :: p.constIntCache) = some off at hlookup
      rw [List.lookup_cons] at hlookup
      by_cases heq : key = constKey v .int64
      · rw [heq, beq_self_eq_true] at hlookup
        cases hlookup
        exact ⟨.int64, v, hnew⟩
      · rw [beq_false_of_ne heq] at hlookup
        exact hemit.settled.cache key off hlookup
    · intro v'
      rw [← hemit.answers v', IRProgram.answer, IRProgram.answer]
      change (match List.lookup _ ((constKey v .int64, p.dataSize) :: p.constIntCache) with
        | some offset => ((p.emit (.constInt .int64 v)).2.constIntValue (.instr offset)).getD v'
        | none => v') = _
      rw [List.lookup_cons]
      by_cases heq : constKey v' .int64 = constKey v .int64
      · obtain rfl := constKey_injective .int64 heq
        rw [beq_self_eq_true, emit_constIntCache, hkey]
        dsimp only
        rw [hvalue]
        rfl
      · rw [beq_false_of_ne heq]
        rfl
    · rw [hanswer]
      exact hvalue

lemma Settled.addConstBool (h : Settled p) (v : Bool) :
    Continues p (p.addConstBool v).2 ∧ Known (p.addConstBool v).2 (p.addConstBool v).1 ∧
      (p.addConstBool v).2.constIntValue (p.addConstBool v).1 = some (wordOfBool v) := by
  refine ⟨h.emit _, emit_known _, ?_⟩
  exact IRProgram.constIntValue_constBool (emit_self _)

/-! ### One operation -/

/-- The value of an operation on constants. -/
def foldedWord (p : IRProgram) (op : BinOpKind) (a b : Word) : Word :=
  if (opcodeOf op).2 = .bool then op.eval a b else p.answer (op.eval a b)

lemma Settled.addBinary (h : Settled p) (op : BinOpKind) (a b : IRValueRef) :
    Continues p (p.addBinary (opcodeOf op).1 (opcodeOf op).2 a b).2 ∧
      Known (p.addBinary (opcodeOf op).1 (opcodeOf op).2 a b).2
        (p.addBinary (opcodeOf op).1 (opcodeOf op).2 a b).1 ∧
      (p.addBinary (opcodeOf op).1 (opcodeOf op).2 a b).2.constIntValue
        (p.addBinary (opcodeOf op).1 (opcodeOf op).2 a b).1 = (do
          let va ← p.constIntValue a
          let vb ← p.constIntValue b
          return foldedWord p op va vb) := by
  have hemit : p.tryConstFold (opcodeOf op).1 (opcodeOf op).2 a b = none →
      Continues p (p.addBinary (opcodeOf op).1 (opcodeOf op).2 a b).2 ∧
      Known (p.addBinary (opcodeOf op).1 (opcodeOf op).2 a b).2
        (p.addBinary (opcodeOf op).1 (opcodeOf op).2 a b).1 ∧
      (p.addBinary (opcodeOf op).1 (opcodeOf op).2 a b).2.constIntValue
        (p.addBinary (opcodeOf op).1 (opcodeOf op).2 a b).1 = none := by
    intro hnone
    rw [IRProgram.addBinary, hnone]
    refine ⟨h.emit _, emit_known _, ?_⟩
    exact IRProgram.constIntValue_runTime (emit_self _) rfl
  cases ha : p.constIntValue a with
  | none =>
    apply hemit
    rw [IRProgram.tryConstFold, ha]
    rfl
  | some va =>
    cases hb : p.constIntValue b with
    | none =>
      apply hemit
      rw [IRProgram.tryConstFold, ha, hb]
      rfl
    | some vb =>
      have hfold : p.addBinary (opcodeOf op).1 (opcodeOf op).2 a b =
          if (opcodeOf op).2 = .bool then p.addConstBool (op.eval va vb != 0)
          else p.addConstInt (op.eval va vb) (opcodeOf op).2 := by
        unfold IRProgram.addBinary IRProgram.tryConstFold
        rw [ha, hb]
        simp only [Option.bind_eq_bind, Option.bind_some, foldConstants_opcodeOf]
        split_ifs <;> rfl
      rw [hfold]
      simp only [Option.bind_eq_bind, Option.bind_some, foldedWord]
      by_cases hbool : (opcodeOf op).2 = .bool
      · rw [if_pos hbool, if_pos hbool]
        have hconst := h.addConstBool (op.eval va vb != 0)
        rw [wordOfBool_eval hbool] at hconst
        exact hconst
      · have hint : (opcodeOf op).2 = .int64 := by
          cases op <;> first | rfl | exact absurd rfl hbool
        rw [if_neg hbool, if_neg hbool, hint]
        exact h.addConstInt _

/-- The null flags are combined without a request for an integer. -/
lemma Settled.combine (h : Settled p) (n n' : IRValueRef) :
    Continues p (p.addBinary .lOr .bool n n').2 := by
  rw [IRProgram.addBinary]
  cases hfold : p.tryConstFold .lOr .bool n n' with
  | none => exact h.emit _
  | some folded =>
    unfold IRProgram.tryConstFold at hfold
    obtain ⟨va, -, hfold⟩ := Option.bind_eq_some_iff.mp hfold
    obtain ⟨vb, -, hfold⟩ := Option.bind_eq_some_iff.mp hfold
    obtain ⟨⟨result, rtype⟩, hconst, hfold⟩ := Option.bind_eq_some_iff.mp hfold
    cases hconst
    cases hfold
    exact (h.addConstBool _).1

lemma foldOf_opcodeOf (op : BinOpKind) (a b : IRValueRef) :
    p.foldOf (opcodeOf op).1 (opcodeOf op).2 a b = (do
      let va ← p.constIntValue a
      let vb ← p.constIntValue b
      return ⟨(opcodeOf op).1, va, vb⟩) := by
  unfold IRProgram.foldOf
  simp only [foldConstants_opcodeOf]
  rfl

lemma defined_opcodeOf (op : BinOpKind) (a b : Word) : Fold.Defined ⟨(opcodeOf op).1, a, b⟩ ↔
    (op = .add → InInt64 (a.toInt + b.toInt)) ∧ (op = .sub → InInt64 (a.toInt - b.toInt)) := by
  cases op <;> simp [opcodeOf, Fold.Defined]

end

/-! ### A whole expression -/

section

variable {resolve : ColumnRef → Except CppError IU} {scope : ConsumerScope}
  {ctx ctx' ctx₁ ctx₂ : CompilationContext} {v vl vr : SQLValue} {e l r : Expr}

/-- The values of the columns have been computed. -/
def ScopeKnown (scope : ConsumerScope) (p : IRProgram) : Prop :=
  ∀ id v, scope.bindings id = some v → Known p v.valueRef

lemma emitOp_ok (op : Opcode) (t : IRType) (rtype : SQLType) (vl vr : SQLValue) :
    ∃ v ctx', SQLValue.emitOp op t rtype vl vr ctx = .ok (v, ctx') ∧
      v.valueRef = (ctx.program.addBinary op t vl.valueRef vr.valueRef).1 ∧
      (ctx'.program = (ctx.program.addBinary op t vl.valueRef vr.valueRef).2 ∨
        ∃ n n', ctx'.program =
          ((ctx.program.addBinary op t vl.valueRef vr.valueRef).2.addBinary .lOr .bool n n').2) := by
  unfold SQLValue.emitOp
  rw [run_bind_of_ok (run_addBinary' _ _ _ _)]
  unfold SQLValue.propagateNull2
  split_ifs
  · exact ⟨_, _, rfl, rfl, .inl rfl⟩
  · exact ⟨_, _, rfl, rfl, .inl rfl⟩
  · exact ⟨_, _, rfl, rfl, .inl rfl⟩
  · rw [run_bind_of_ok (run_addBinary' _ _ _ _)]
    exact ⟨_, _, rfl, rfl, .inr ⟨_, _, rfl⟩⟩

/-- A binary expression is one operation behind the code of its sides, and at most one more for
the null flags. -/
lemma evalExpr_binOp_exists {op : BinOpKind} (hl : evalExpr resolve scope l ctx = .ok (vl, ctx₁))
    (hr : evalExpr resolve scope r ctx₁ = .ok (vr, ctx₂)) :
    ∃ v ctx', evalExpr resolve scope (.binOp op l r) ctx = .ok (v, ctx') ∧
      v.valueRef = (ctx₂.program.addBinary (opcodeOf op).1 (opcodeOf op).2 vl.valueRef vr.valueRef).1 ∧
      (ctx'.program =
          (ctx₂.program.addBinary (opcodeOf op).1 (opcodeOf op).2 vl.valueRef vr.valueRef).2 ∨
        ∃ n n', ctx'.program = ((ctx₂.program.addBinary (opcodeOf op).1 (opcodeOf op).2 vl.valueRef
          vr.valueRef).2.addBinary .lOr .bool n n').2) := by
  rw [evalExpr, run_bind_of_ok hl, run_bind_of_ok hr]
  cases op with
  | and | or => exact ⟨_, _, rfl, rfl, .inl rfl⟩
  | eq | ne | lt | gt | le | ge | add | sub => exact emitOp_ok _ _ _ _ _

lemma evalExpr_colRef (ref : ColumnRef) : evalExpr resolve scope (.colRef ref) ctx =
    match lookupColumn resolve scope ref with
    | some v => .ok (v, ctx)
    | none => match resolve ref with
      | .ok iu => .error (.runtimeError ("IU not in scope: " ++ iu.name))
      | .error err => .error err := by
  unfold evalExpr lookupColumn
  cases hres : resolve ref with
  | error err => rfl
  | ok iu =>
    dsimp only
    cases hbound : scope.bindings iu.id with
    | none =>
      change Gen.ofExcept (scope.get iu) ctx = _
      rw [ConsumerScope.get, hbound]
      rfl
    | some v =>
      change Gen.ofExcept (scope.get iu) ctx = _
      rw [ConsumerScope.get, hbound]
      rfl

/-- What the code of an expression leaves: its value is a constant exactly if that of the
expression is. -/
structure FoldsTo (resolve : ColumnRef → Except CppError IU) (scope : ConsumerScope) (e : Expr)
    (p q : IRProgram) (v : SQLValue) : Prop where
  continues : Continues p q
  known : Known q v.valueRef
  const : q.constIntValue v.valueRef = constantValue resolve scope p e

variable {p q : IRProgram}

lemma ScopeKnown.continues (h : ScopeKnown scope p) (hpq : Continues p q) : ScopeKnown scope q :=
  fun id v hv => (h id v hv).mono hpq.size

lemma lookupColumn_known (h : ScopeKnown scope p) {ref : ColumnRef}
    (hv : lookupColumn resolve scope ref = some v) : Known p v.valueRef := by
  unfold lookupColumn at hv
  split at hv
  · exact h _ v hv
  · cases hv

lemma constantValue_continues (h : ScopeKnown scope p) (hpq : Continues p q) (e : Expr) :
    constantValue resolve scope q e = constantValue resolve scope p e := by
  induction e with
  | colRef ref =>
    unfold constantValue
    cases hv : lookupColumn resolve scope ref with
    | none => rfl
    | some v => exact hpq.constIntValue (lookupColumn_known h hv)
  | intLit intVal =>
    unfold constantValue
    rw [hpq.answers]
  | binOp op l r ihl ihr =>
    unfold constantValue
    rw [ihl, ihr]
    simp only [hpq.answers]

lemma sumsFit_continues (h : ScopeKnown scope p) (hpq : Continues p q) (e : Expr) :
    SumsFit resolve scope q e ↔ SumsFit resolve scope p e := by
  induction e with
  | colRef ref => rfl
  | intLit intVal => rfl
  | binOp op l r ihl ihr =>
    unfold SumsFit
    rw [ihl, ihr, constantValue_continues h hpq l, constantValue_continues h hpq r]

lemma columnsBound_binOp {op : BinOpKind} : ColumnsBound resolve scope (.binOp op l r) ↔
    ColumnsBound resolve scope l ∧ ColumnsBound resolve scope r := by
  unfold ColumnsBound
  rw [Expr.columns]
  exact List.forall_mem_append

lemma constantValue_unbound (h : ¬ ColumnsBound resolve scope e) :
    constantValue resolve scope p e = none := by
  induction e with
  | colRef ref =>
    have hnone : lookupColumn resolve scope ref = none := by
      by_contra hsome
      apply h
      intro ref' href'
      rw [List.mem_singleton.mp href']
      exact hsome
    rw [constantValue, hnone]
    rfl
  | intLit intVal => exact absurd (fun ref href => (List.not_mem_nil href).elim) h
  | binOp op l r ihl ihr =>
    rw [columnsBound_binOp, not_and_or] at h
    rcases h with hl | hr
    · rw [constantValue, ihl hl]
      rfl
    · rw [constantValue, ihr hr]
      cases constantValue resolve scope p l <;> rfl

/-- The code of an expression: there is some exactly if the columns have values. -/
lemma evalExpr_foldsTo (hp : Settled ctx.program) (hscope : ScopeKnown scope ctx.program)
    (e : Expr) : (ColumnsBound resolve scope e → ∃ v ctx', evalExpr resolve scope e ctx = .ok (v, ctx') ∧
      FoldsTo resolve scope e ctx.program ctx'.program v) ∧
    (¬ ColumnsBound resolve scope e → ∃ err, evalExpr resolve scope e ctx = .error err) := by
  induction e generalizing ctx with
  | colRef ref =>
    rw [evalExpr_colRef]
    cases hv : lookupColumn resolve scope ref with
    | none =>
      constructor
      · intro hbound
        exact absurd hv (hbound ref (List.mem_singleton_self ref))
      · intro _
        dsimp only
        cases resolve ref with
        | ok iu => exact ⟨_, rfl⟩
        | error err => exact ⟨err, rfl⟩
    | some v =>
      constructor
      · intro _
        refine ⟨v, ctx, rfl, hp.refl, lookupColumn_known hscope hv, ?_⟩
        rw [constantValue, hv]
        rfl
      · intro hnot
        apply absurd _ hnot
        intro ref' href'
        rw [List.mem_singleton.mp href', hv]
        exact Option.some_ne_none v
  | intLit intVal =>
    constructor
    · intro _
      obtain ⟨hcontinues, hknown, hconst⟩ := hp.addConstInt intVal
      exact ⟨_, _, rfl, hcontinues, hknown, hconst⟩
    · intro hnot
      exact absurd (fun ref href => (List.not_mem_nil href).elim) hnot
  | binOp op l r ihl ihr =>
    obtain ⟨hl, hlerr⟩ := ihl hp hscope
    by_cases hbl : ColumnsBound resolve scope l
    · obtain ⟨vl, ctx₁, hrunl, hcl, hkl, hvl⟩ := hl hbl
      obtain ⟨hr, hrerr⟩ := ihr hcl.settled (hscope.continues hcl)
      by_cases hbr : ColumnsBound resolve scope r
      · obtain ⟨vr, ctx₂, hrunr, hcr, hkr, hvr⟩ := hr hbr
        refine ⟨fun _ => ?_, fun hnot => absurd (columnsBound_binOp.mpr ⟨hbl, hbr⟩) hnot⟩
        obtain ⟨v, ctx', hrun, hval, hprog⟩ := @evalExpr_binOp_exists resolve scope ctx ctx₁ ctx₂
          vl vr l r op hrunl hrunr
        obtain ⟨hcb, hkb, hvb⟩ := hcr.settled.addBinary op vl.valueRef vr.valueRef
        have hbefore := hcl.trans hcr
        have hafter : Continues (ctx₂.program.addBinary (opcodeOf op).1 (opcodeOf op).2 vl.valueRef
            vr.valueRef).2 ctx'.program := by
          rcases hprog with hprog | ⟨n, n', hprog⟩
          · rw [hprog]
            exact hcb.settled.refl
          · rw [hprog]
            exact hcb.settled.combine n n'
        refine ⟨v, ctx', hrun, (hbefore.trans hcb).trans hafter, ?_, ?_⟩
        · rw [hval]
          exact hkb.mono hafter.size
        · rw [hval, hafter.constIntValue hkb, hvb, hcr.constIntValue hkl, hvl, hvr,
            constantValue_continues hscope hcl r]
          simp only [constantValue, foldedWord, hbefore.answers]
      · obtain ⟨err, herr⟩ := hrerr hbr
        refine ⟨fun h => absurd (columnsBound_binOp.mp h).2 hbr, fun _ => ⟨err, ?_⟩⟩
        rw [evalExpr, run_bind_of_ok hrunl]
        exact run_bind_of_error herr
    · obtain ⟨err, herr⟩ := hlerr hbl
      refine ⟨fun h => absurd (columnsBound_binOp.mp h).1 hbl, fun _ => ⟨err, ?_⟩⟩
      rw [evalExpr]
      exact run_bind_of_error herr

/-- What is folded while an expression is compiled. -/
lemma foldsOf_defined_iff (hp : Settled ctx.program) (hscope : ScopeKnown scope ctx.program)
    (e : Expr) : (∀ f ∈ foldsOf resolve scope e ctx, f.Defined) ↔
      SumsFit resolve scope ctx.program e := by
  induction e generalizing ctx with
  | colRef ref => simp [foldsOf, SumsFit]
  | intLit intVal => simp [foldsOf, SumsFit]
  | binOp op l r ihl ihr =>
    unfold foldsOf SumsFit
    rw [List.forall_mem_append, ihl hp hscope]
    apply and_congr_right'
    by_cases hbl : ColumnsBound resolve scope l
    · obtain ⟨vl, ctx₁, hrunl, hcl, hkl, hvl⟩ := (evalExpr_foldsTo hp hscope l).1 hbl
      have hscope₁ := hscope.continues hcl
      rw [hrunl]
      dsimp only
      rw [List.forall_mem_append, ihr hcl.settled hscope₁, sumsFit_continues hscope hcl]
      apply and_congr (by simp [hbl])
      by_cases hbr : ColumnsBound resolve scope r
      · obtain ⟨vr, ctx₂, hrunr, hcr, hkr, hvr⟩ := (evalExpr_foldsTo hcl.settled hscope₁ r).1 hbr
        rw [hrunr]
        dsimp only
        rw [foldOf_opcodeOf, hcr.constIntValue hkl, hvl, hvr, constantValue_continues hscope hcl r]
        cases constantValue resolve scope ctx.program l with
        | none => simp
        | some a =>
          cases constantValue resolve scope ctx.program r with
          | none => simp
          | some b => simp [defined_opcodeOf]
      · obtain ⟨err, herr⟩ := (evalExpr_foldsTo hcl.settled hscope₁ r).2 hbr
        rw [herr]
        have hnone := constantValue_unbound (p := ctx.program) hbr
        simp [hnone]
    · obtain ⟨err, herr⟩ := (evalExpr_foldsTo hp hscope l).2 hbl
      rw [herr]
      have hnone := constantValue_unbound (p := ctx.program) hbl
      simp [hbl, hnone]

/-! ### One pair of operands -/

/-- The one quotient that is too large. -/
lemma tdiv_inInt64_iff {a b : Word} (hb : b ≠ 0) :
    InInt64 (a.toInt.tdiv b.toInt) ↔ ¬ (a = BitVec.intMin 64 ∧ b = -1) := by
  have hmin : (BitVec.intMin 64).toInt = -2 ^ 63 := by decide
  have hone : (-1 : Word).toInt = -1 := by decide
  have hlow := BitVec.le_toInt a
  have hhigh := BitVec.toInt_lt (x := a)
  constructor
  · rintro ⟨-, hlt⟩ ⟨rfl, rfl⟩
    rw [hmin, hone] at hlt
    exact absurd hlt (by decide)
  · intro hpair
    have hb' : b.toInt ≠ 0 := by
      intro hzero
      exact hb (BitVec.eq_of_toInt_eq (hzero.trans BitVec.toInt_zero.symm))
    have habs := Int.natAbs_tdiv a.toInt b.toInt
    have hle : (a.toInt.tdiv b.toInt).natAbs ≤ a.toInt.natAbs := habs ▸ Nat.div_le_self _ _
    have hne : a.toInt.tdiv b.toInt ≠ 2 ^ 63 := by
      intro heq
      have ha : a.toInt = -2 ^ 63 := by omega
      rw [heq, ha] at habs
      have hbabs : b.toInt.natAbs = 1 := by
        by_contra hb₁
        have htwo : 2 ≤ b.toInt.natAbs := by omega
        have hhalf := Nat.div_le_div_left htwo (by decide) (a := (-2 ^ 63 : Int).natAbs)
        exact absurd (habs.trans_le hhalf) (by decide)
      have hsign : b.toInt = 1 ∨ b.toInt = -1 := by omega
      rcases hsign with hpos | hneg
      · rw [hpos, Int.tdiv_one] at heq
        omega
      · exact hpair ⟨BitVec.eq_of_toInt_eq (ha.trans hmin.symm),
          BitVec.eq_of_toInt_eq (hneg.trans hone.symm)⟩
    constructor <;> omega

lemma foldOf_defined_iff {op : Opcode} {t : IRType} {a b : IRValueRef} {f : Fold}
    (h : p.foldOf op t a b = some f) : f.Defined ↔ PairFits op f.a f.b := by
  unfold IRProgram.foldOf at h
  obtain ⟨va, -, h⟩ := Option.bind_eq_some_iff.mp h
  obtain ⟨vb, -, h⟩ := Option.bind_eq_some_iff.mp h
  obtain ⟨result, hconst, h⟩ := Option.bind_eq_some_iff.mp h
  cases h
  cases op with
  | div =>
    have hb : vb ≠ 0 := by
      rintro rfl
      cases hconst
    change vb ≠ 0 ∧ InInt64 (va.toInt.tdiv vb.toInt) ↔ _
    rw [and_iff_right hb, tdiv_inInt64_iff hb]
    rfl
  | _ => rfl

/-- The folds of an expression stay in `int64_t` exactly if its constant sums and differences do,
and the fold of two operands exactly if their result does. -/
theorem folding_inRange_iff {calls : List BuilderCall} (ctx : CompilationContext)
    (resolve : ColumnRef → Except CppError IU) (scope : ConsumerScope) (e : Expr)
    (hbuild : BuilderCall.build calls = some ctx.program) (hscope : ScopeKnown scope ctx.program)
    (p : IRProgram) (op : Opcode) (t : IRType) (a b : IRValueRef) :
    ((∀ f ∈ foldsOf resolve scope e ctx, f.Defined) ↔ SumsFit resolve scope ctx.program e) ∧
    ∀ f, p.foldOf op t a b = some f → (f.Defined ↔ PairFits op f.a f.b) :=
  ⟨foldsOf_defined_iff (settled_of_build hbuild) hscope e, fun _ hfold => foldOf_defined_iff hfold⟩

/-- A function that asks for two constants. -/
def pairProgram (a b : Word) : Option IRProgram :=
  BuilderCall.build [.beginFunction "f" .void [], .addConstInt a .int64, .addConstInt b .int64]

theorem folding_inRange_iff_small :
    (∀ f ∈ foldsOf (fun _ => throwRuntime "") {} (.binOp .add (.intLit 1) (.intLit 2))
      expressionContext, f.Defined) ∧ Fold.Defined ⟨.div, 7, 2⟩ := by
  have hbuild : BuilderCall.build [.beginFunction "expression" .void []] =
      some expressionContext.program := rfl
  have hscope : ScopeKnown {} expressionContext.program := by
    intro id v hv
    cases hv
  have hiff := folding_inRange_iff expressionContext (fun _ => throwRuntime "") {}
    (.binOp .add (.intLit 1) (.intLit 2)) hbuild hscope ((pairProgram 7 2).get (by decide)) .div
    .int64 (.instr 0) (.instr 16)
  constructor
  · refine hiff.1.mpr ⟨trivial, fun _ => trivial, ?_⟩
    rintro a b ⟨⟩ ⟨⟩
    exact ⟨fun _ => by unfold InInt64; decide, nofun⟩
  · refine (hiff.2 ⟨.div, 7, 2⟩ (by decide)).mpr ?_
    rintro ⟨hmin, -⟩
    exact absurd hmin (by decide)

/-- `9223372036854775807 + 1` overflows, and so does `-9223372036854775808 / -1`. -/
theorem folding_overflows :
    (¬ ∀ sql stmt e calls (ctx : CompilationContext) resolve scope, parseSQL sql = .ok stmt →
      stmt.whereExpr = some e → BuilderCall.build calls = some ctx.program →
      ScopeKnown scope ctx.program → ∀ f ∈ foldsOf resolve scope e ctx, f.Defined) ∧
    ¬ ∀ (p : IRProgram) (op : Opcode) (t : IRType) (a b : IRValueRef) (f : Fold),
      p.foldOf op t a b = some f → f.Defined := by
  constructor
  · intro h
    have hparse : parseSQL "SELECT a FROM t WHERE 9223372036854775807 + 1 > 0" =
        .ok ⟨[.item (.colRef ⟨"", "a"⟩) ""], [⟨"t", "t"⟩], some (.binOp .gt
          (.binOp .add (.intLit 9223372036854775807) (.intLit 1)) (.intLit 0)), noLimit⟩ := by
      decide +kernel
    have hbuild : BuilderCall.build [.beginFunction "expression" .void []] =
        some expressionContext.program := rfl
    have hbad := h _ _ _ _ expressionContext (fun _ => throwRuntime "") {} hparse rfl hbuild
      (by rintro id v ⟨⟩) ⟨.add, 9223372036854775807, 1⟩ (by decide)
    exact absurd hbad.2 (by decide)
  · intro h
    have hbad := h ((pairProgram (BitVec.intMin 64) (-1)).get (by decide)) .div .int64 (.instr 0)
      (.instr 16) ⟨.div, BitVec.intMin 64, -1⟩ (by decide)
    exact absurd hbad.2.2 (by decide)

end

end Proofs

end TidyTuples
