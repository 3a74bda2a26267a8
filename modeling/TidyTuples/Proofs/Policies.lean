import TidyTuples.Proofs.Builders
import TidyTuples.Proofs.ControlFlow
import TidyTuples.Proofs.Execution
import TidyTuples.Proofs.Folding

/-!
# The constants and calls of generated code

A policy allows constants and runtime functions. A generator that asks for these only keeps to the
policy; where no two of the constants share a key of the cache, every request is then answered with
the constant it is for, and what is folded is the value of the expression.
-/

namespace TidyTuples

/-- The constants that may be requested and the functions that may be called. -/
structure Policy where
  constants : IRType → Word → Prop
  calls : RuntimeFn → Prop

namespace Policy

variable (policy : Policy)

/-- No two constants share a key of the cache. -/
def Apart : Prop := ∀ t v t' v', policy.constants t v → policy.constants t' v' →
  IRProgram.constKey v t = IRProgram.constKey v' t' → t = t' ∧ v = v'

/-- The literals of an expression and the values of its operations on constants. -/
def AllowsExpr : Expr → Prop
  | .colRef _ => True
  | .intLit n => policy.constants .int64 n
  | .binOp op l r => AllowsExpr l ∧ AllowsExpr r ∧
      ∀ w, (policy.Apart → (Expr.binOp op l r).evalIn (fun _ => none) = some w) →
        policy.constants .int64 w

structure AllowsScan (s : ScanTranslator) : Prop where
  zero : policy.constants .int64 0
  one : policy.constants .int64 1
  numRows : policy.constants .int64 (BitVec.ofNat 64 s.table.numRows)
  columns : ∀ col ∈ s.table.columns, policy.constants .ptr col.address
  call : policy.calls .loadColumnValue

structure AllowsJoin (j : HashJoinTranslator) : Prop where
  zero : policy.constants .int64 0
  one : policy.constants .int64 1
  hashTable : policy.constants .ptr j.hashTable
  hash : ∀ w ∈ [hashSeed1, hashSeed2, hashMultiplier], policy.constants .uint64 w
  fields : ∀ i, i < j.buildKeys.length ∨ i < j.buildPayloadIUs.length →
    policy.constants .int32 (BitVec.ofNat 64 i)
  calls : ∀ fn ∈ [RuntimeFn.insert, .lookupAll, .matchCount, .matchAt, .getKey, .getPayload],
    policy.calls fn

/-- What the operators of a tree ask for. -/
def AllowsTree : Operator → Prop
  | .scan s => policy.AllowsScan s
  | .select _ child predicate =>
    AllowsTree child ∧ ∀ c ∈ predicate.conjuncts, policy.AllowsExpr c
  | .hashJoin id build probe buildKeys probeKeys ht => AllowsTree build ∧ AllowsTree probe ∧
      policy.AllowsJoin (.of id build buildKeys probeKeys ht)

structure AllowsPrint (printer : Word) (width : Nat) : Prop where
  zero : policy.constants .int64 0
  printer : policy.constants .ptr printer
  width : policy.constants .int64 (BitVec.ofNat 64 width)
  call : policy.calls .printRow

end Policy

namespace Proofs

open IRProgram

/-- The constants and calls of the program are allowed. -/
structure Obeys (policy : Policy) (p : IRProgram) : Prop where
  offsets : ∀ record ∈ p.instrData, record.1 < p.dataSize
  calls : ∀ off t fn args, p.instrAt off = some (.call t fn args) → policy.calls fn
  cache : ∀ key off, p.constIntCache.lookup key = some off → ∃ t v, policy.constants t v ∧
    constKey v t = key ∧ p.instrAt off = some (.constInt t v)
  requests : ∀ r ∈ p.constRequests, policy.constants r.type r.value ∧
    p.constIntCache.lookup (constKey r.value r.type) = some r.offset

section

variable {policy : Policy} {p q : IRProgram} {a b ref : IRValueRef} {t : IRType} {v w : Word}
  {op : Opcode}

/-! ### Builders -/

lemma Obeys.same (h : Obeys policy p) (hdata : q.instrData = p.instrData)
    (hcache : q.constIntCache = p.constIntCache) (hrequests : q.constRequests = p.constRequests) :
    Obeys policy q := by
  have hsize : q.dataSize = p.dataSize := by
    unfold IRProgram.dataSize
    rw [hdata]
  have hat : ∀ off, q.instrAt off = p.instrAt off := fun off => by
    rw [IRProgram.instrAt, IRProgram.instrAt, hdata]
  constructor
  · rw [hdata, hsize]
    exact h.offsets
  · simp only [hat]
    exact h.calls
  · simp only [hat, hcache]
    exact h.cache
  · rw [hrequests, hcache]
    exact h.requests

lemma Obeys.cached_lt (h : Obeys policy p) {key : Word} {off : Nat}
    (hkey : p.constIntCache.lookup key = some off) : off < p.dataSize := by
  obtain ⟨t, v, -, -, hi⟩ := h.cache key off hkey
  exact instrAt_lt h.offsets hi

lemma Obeys.emit (h : Obeys policy p) {i : Instr}
    (hcall : ∀ t fn args, i = .call t fn args → policy.calls fn) : Obeys policy (p.emit i).2 := by
  constructor
  · exact emit_offsets h.offsets i
  · intro off t fn args hi
    rw [emit_instrAt] at hi
    split_ifs at hi
    · exact hcall t fn args (Option.some.inj hi)
    · exact h.calls off t fn args hi
  · intro key off hkey
    rw [emit_constIntCache] at hkey
    rw [emit_instrAt, if_neg (Nat.ne_of_lt (h.cached_lt hkey))]
    exact h.cache key off hkey
  · exact h.requests

/-- Anything but a call may be emitted. -/
lemma Obeys.emit_other (h : Obeys policy p) {i : Instr} (hi : i.op ≠ .call) :
    Obeys policy (p.emit i).2 := by
  apply h.emit
  rintro t fn args rfl
  exact absurd rfl hi

lemma Obeys.addConstInt (h : Obeys policy p) (hv : policy.constants t v) :
    Obeys policy (p.addConstInt v t).2 := by
  cases hkey : p.constIntCache.lookup (constKey v t) with
  | some off =>
    rw [addConstInt_hit hkey]
    refine ⟨h.offsets, h.calls, h.cache, fun r hr => ?_⟩
    rcases List.mem_cons.mp hr with rfl | hr
    · exact ⟨hv, hkey⟩
    · exact h.requests r hr
  | none =>
    have hemit : Obeys policy (p.emit (.constInt t v)).2 := h.emit_other (by simp [Instr.op])
    rw [addConstInt_miss hkey]
    refine ⟨hemit.offsets, hemit.calls, fun key off hlookup => ?_, fun r hr => ?_⟩
    · change List.lookup key ((constKey v t, p.dataSize) :: p.constIntCache) = some off at hlookup
      rw [List.lookup_cons] at hlookup
      by_cases heq : key = constKey v t
      · rw [heq, beq_self_eq_true] at hlookup
        cases hlookup
        exact ⟨t, v, hv, heq.symm, emit_self _⟩
      · rw [beq_false_of_ne heq] at hlookup
        exact hemit.cache key off hlookup
    · change policy.constants r.type r.value ∧
        List.lookup _ ((constKey v t, p.dataSize) :: p.constIntCache) = some r.offset
      rw [List.lookup_cons]
      rcases List.mem_cons.mp hr with rfl | hr
      · exact ⟨hv, by rw [beq_self_eq_true]⟩
      · obtain ⟨hold, hcached⟩ := h.requests r hr
        have hne : constKey r.value r.type ≠ constKey v t := by
          intro heq
          rw [heq, hkey] at hcached
          cases hcached
        rw [beq_false_of_ne hne]
        exact ⟨hold, hcached⟩

lemma Obeys.addBinary (h : Obeys policy p)
    (hfold : ∀ va vb w t', p.constIntValue a = some va → p.constIntValue b = some vb →
      foldConstants op t va vb = some (w, t') → t' ≠ .bool → policy.constants t' w) :
    Obeys policy (p.addBinary op t a b).2 := by
  have hbinary : Obeys policy (p.emit (.binary op t a b)).2 := h.emit (by simp)
  unfold IRProgram.addBinary
  cases hres : p.tryConstFold op t a b with
  | none => exact hbinary
  | some folded =>
    unfold IRProgram.tryConstFold at hres
    obtain ⟨va, ha, hres⟩ := Option.bind_eq_some_iff.mp hres
    obtain ⟨vb, hb, hres⟩ := Option.bind_eq_some_iff.mp hres
    obtain ⟨⟨w, t'⟩, hconst, hres⟩ := Option.bind_eq_some_iff.mp hres
    dsimp only at hres
    split_ifs at hres with hbool
    · cases hres
      exact h.emit_other (by simp [Instr.op])
    · cases hres
      exact h.addConstInt (hfold va vb w t' ha hb hconst hbool)

/-- Comparisons and connectives are folded to booleans. -/
lemma Obeys.addBinary_bool (h : Obeys policy p)
    (hbool : (Instr.binary op t a b).isBoolean = true) : Obeys policy (p.addBinary op t a b).2 :=
  h.addBinary fun _ _ _ _ _ _ hconst hne => absurd (foldConstants_isBool hbool hconst) hne

/-! ### Values at run time -/

/-- The reference is that of an instruction, and of no constant. -/
def RunTime (p : IRProgram) (ref : IRValueRef) : Prop :=
  ∃ off i, ref = .instr off ∧ p.instrAt off = some i ∧ i.isConst = false

lemma RunTime.mono (h : RunTime p ref) (hl : Local p q) : RunTime q ref := by
  obtain ⟨off, i, rfl, hi, hconst⟩ := h
  exact ⟨off, i, rfl, hl.allRecords off i hi, hconst⟩

lemma RunTime.value (h : RunTime p ref) : p.constIntValue ref = none := by
  obtain ⟨off, i, rfl, hi, hconst⟩ := h
  exact constIntValue_runTime hi hconst

lemma RunTime.ofEmit {i : Instr} (hi : i.isConst = false) : RunTime (p.emit i).2 (p.emit i).1 :=
  ⟨p.dataSize, i, rfl, emit_self i, hi⟩

lemma RunTime.addConstInt (hrun : RunTime p ref) (h : Obeys policy p) :
    RunTime (p.addConstInt v t).2 ref := by
  obtain ⟨off, i, rfl, hi, hconst⟩ := hrun
  refine ⟨off, i, rfl, ?_, hconst⟩
  cases hkey : p.constIntCache.lookup (constKey v t) with
  | some old =>
    rw [addConstInt_hit hkey]
    exact hi
  | none =>
    rw [addConstInt_miss hkey]
    change (p.emit (.constInt t v)).2.instrAt off = some i
    rw [emit_instrAt, if_neg (Nat.ne_of_lt (instrAt_lt h.offsets hi))]
    exact hi

/-- The values of the columns are not known when code is generated. -/
def ScopeRunTime (p : IRProgram) (scope : ConsumerScope) : Prop :=
  ∀ id v, scope.bindings id = some v → RunTime p v.valueRef

lemma ScopeRunTime.mono {scope : ConsumerScope} (h : ScopeRunTime p scope) (hl : Local p q) :
    ScopeRunTime q scope := fun id v hv => (h id v hv).mono hl

lemma ScopeRunTime.bind {scope : ConsumerScope} (h : ScopeRunTime p scope) (iu : IU)
    (href : RunTime p ref) (ty : SQLType) : ScopeRunTime p (scope.bind iu (.makeNonNull ref ty)) := by
  intro id v hv
  by_cases hid : id = iu.id
  · simp only [ConsumerScope.bind, hid, Function.update_self, Option.some.injEq] at hv
    subst hv
    exact href
  · simp only [ConsumerScope.bind, Function.update_of_ne hid] at hv
    exact h id v hv

/-- With an operand that is not known, nothing is folded. -/
lemma Obeys.addBinary_runTime (h : Obeys policy p) (hrun : RunTime p a ∨ RunTime p b) :
    Obeys policy (p.addBinary op t a b).2 := by
  apply h.addBinary
  intro va vb w t' ha hb
  rcases hrun with hrun | hrun
  · rw [hrun.value] at ha
    cases ha
  · rw [hrun.value] at hb
    cases hb

lemma RunTime.ofAddBinary (hrun : RunTime p a ∨ RunTime p b) :
    RunTime (p.addBinary op t a b).2 (p.addBinary op t a b).1 := by
  have hnone : p.tryConstFold op t a b = none := by
    unfold IRProgram.tryConstFold
    rcases hrun with hrun | hrun
    · rw [hrun.value]
      rfl
    · rw [hrun.value]
      cases p.constIntValue a with
      | none => rfl
      | some va => rfl
  unfold IRProgram.addBinary
  rw [hnone]
  exact RunTime.ofEmit rfl

/-! ### What a constant is answered with -/

/-- Where no two constants share a key, a request is answered with its constant. -/
lemma Obeys.answer (h : Obeys policy p) (hapart : policy.Apart) (hv : policy.constants t v) :
    (p.addConstInt v t).2.constIntValue (p.addConstInt v t).1 = some v := by
  cases hkey : p.constIntCache.lookup (constKey v t) with
  | some off =>
    obtain ⟨t', v', hv', heq, hi⟩ := h.cache _ off hkey
    obtain ⟨rfl, rfl⟩ := hapart t' v' t v hv' hv heq
    rw [addConstInt_hit hkey]
    exact constIntValue_constInt hi
  | none =>
    rw [addConstInt_miss hkey]
    exact constIntValue_constInt (emit_self _)

lemma Obeys.constsDenote (h : Obeys policy p) (hapart : policy.Apart) : ConstsDenote p := by
  intro r hr
  obtain ⟨hallowed, hcached⟩ := h.requests r hr
  obtain ⟨t, v, hv, heq, hi⟩ := h.cache _ _ hcached
  obtain ⟨rfl, rfl⟩ := hapart t v r.type r.value hv hallowed heq
  exact hi

lemma constIntValue_local (ha : Available p ref) (hl : Local p q) :
    q.constIntValue ref = p.constIntValue ref := by
  obtain ⟨off, i, rfl, hi, -⟩ := ha
  simp only [IRProgram.constIntValue, IRProgram.getInstr, hi, hl.allRecords off i hi]

/-- The constant that an operation comes to is that of its operands. -/
lemma Obeys.addBinary_value (h : Obeys policy p) (hapart : policy.Apart) {op : BinOpKind}
    (hfold : ∀ va vb, p.constIntValue a = some va → p.constIntValue b = some vb →
      policy.constants .int64 (op.eval va vb))
    (hw : (p.addBinary (opcodeOf op).1 (opcodeOf op).2 a b).2.constIntValue
      (p.addBinary (opcodeOf op).1 (opcodeOf op).2 a b).1 = some w) :
    ∃ va vb, p.constIntValue a = some va ∧ p.constIntValue b = some vb ∧ w = op.eval va vb := by
  unfold IRProgram.addBinary IRProgram.tryConstFold at hw
  cases ha : p.constIntValue a with
  | none =>
    rw [ha] at hw
    exact absurd (hw.symm.trans (RunTime.ofEmit rfl).value) (by simp)
  | some va =>
    cases hb : p.constIntValue b with
    | none =>
      rw [ha, hb] at hw
      exact absurd (hw.symm.trans (RunTime.ofEmit rfl).value) (by simp)
    | some vb =>
      refine ⟨va, vb, rfl, rfl, ?_⟩
      rw [ha, hb] at hw
      simp only [Option.bind_eq_bind, Option.bind_some, foldConstants_opcodeOf] at hw
      by_cases hbool : (opcodeOf op).2 = .bool
      · rw [if_pos hbool] at hw
        have hvalue : w = wordOfBool (op.eval va vb != 0) :=
          Option.some.inj (hw.symm.trans (constIntValue_constBool (emit_self _)))
        rw [hvalue, wordOfBool_eval hbool]
      · have hint : (opcodeOf op).2 = .int64 := by
          cases op <;> first | rfl | exact absurd rfl hbool
        rw [if_neg hbool, hint] at hw
        exact Option.some.inj (hw.symm.trans (h.answer hapart (hfold va vb ha hb)))

/-! ### Blocks -/

lemma Obeys.openIf (h : Obeys policy p) (cond : IRValueRef) : Obeys policy (p.openIf cond) := by
  have hblocks : Obeys policy (p.newBlocks "if_true" "if_false" "if_merge") := h.same rfl rfl rfl
  have hbranch := hblocks.emit_other
    (i := .condBranch cond p.blocks.length (p.blocks.length + 1)) (by simp [Instr.op])
  exact hbranch.same rfl rfl rfl

lemma Obeys.closeIf (h : Obeys policy p) (mergeBlock : Nat) : Obeys policy (p.closeIf mergeBlock) := by
  have hbranch : Obeys policy (p.addBranch mergeBlock).2 := h.emit_other (by simp [Instr.op])
  unfold IRProgram.closeIf
  split_ifs
  · exact h.same rfl rfl rfl
  · exact hbranch.same rfl rfl rfl

lemma Obeys.openLoop (h : Obeys policy p) (name : String) (zero bound : IRValueRef) :
    Obeys policy (p.openLoop name zero bound) := by
  have hblocks : Obeys policy
      (p.newBlocks (name ++ "_header") (name ++ "_body") (name ++ "_exit")) := h.same rfl rfl rfl
  have hentry := hblocks.emit_other (i := .branch p.blocks.length) (by simp [Instr.op])
  have hset : Obeys policy ((((p.newBlocks (name ++ "_header") (name ++ "_body")
      (name ++ "_exit")).addBranch p.blocks.length).2).setInsertionPoint p.currentFnIdx
        p.blocks.length) := hentry.same rfl rfl rfl
  have hheader : Obeys policy (p.openHeader name zero) := hset.emit (by simp)
  have hmore : Obeys policy ((p.openHeader name zero).addBinary .cmpLt .bool (.instr p.loopIndex)
      bound).2 := hheader.addBinary_bool rfl
  have hbranch := hmore.emit_other (i := .condBranch ((p.openHeader name zero).addBinary .cmpLt .bool
    (.instr p.loopIndex) bound).1 (p.blocks.length + 1) (p.blocks.length + 2)) (by simp [Instr.op])
  exact hbranch.same rfl rfl rfl

/-- The end of a loop adds the next index and the branch back. -/
lemma Obeys.closeLoop (h : Obeys policy p) (hv : Valid p) {phi header entry : Nat}
    {zero one : IRValueRef}
    (hphi : p.instrAt phi = some (.phi .int64 [(zero, entry), (.null, 0)]))
    (hclose : p.closeLoop header phi one = some q) : Obeys policy q := by
  unfold IRProgram.closeLoop at hclose
  rw [addBinary_phi hphi] at hclose
  have hnext := h.emit_other (i := .binary .add .int64 (.instr phi) one) (by simp [Instr.op])
  have hvalid := emit_valid hv (.binary .add .int64 (.instr phi) one)
  have hphi' := emit_instrAt_of_some hv (.binary .add .int64 (.instr phi) one) hphi
  generalize (p.emit (.binary .add .int64 (.instr phi) one)).2 = p₁ at *
  obtain ⟨p₂, hpatch, hpatched⟩ := patchPhiEntry_spec hvalid hphi'
    (p.emit (.binary .add .int64 (.instr phi) one)).1 p₁.currentBlkIdx
  dsimp only at hclose
  rw [hpatch] at hclose
  cases hclose
  have hobeys : Obeys policy p₂ := by
    refine ⟨hpatched.valid.offsets, fun off t fn args hi => ?_, fun key off hkey => ?_, ?_⟩
    · rw [hpatched.instrAt] at hi
      split_ifs at hi
      · cases hi
      · exact hnext.calls off t fn args hi
    · rw [hpatched.cache] at hkey
      obtain ⟨t, v, hallowed, heq, hi⟩ := hnext.cache key off hkey
      refine ⟨t, v, hallowed, heq, ?_⟩
      rw [hpatched.instrAt, if_neg, hi]
      rintro rfl
      rw [hphi'] at hi
      cases hi
    · rw [hpatched.requests, hpatched.cache]
      exact hnext.requests
  have hback := hobeys.emit_other (i := .branch header) (by simp [Instr.op])
  exact hback.same rfl rfl rfl

end

/-! ### Generators -/

section

variable {policy : Policy} {ctx ctx' : CompilationContext} {scope : ConsumerScope} {parent : Consumer}

lemma hashLoop_obeys {values : List SQLValue} {hash1 hash2 : IRValueRef}
    {res : IRValueRef × IRValueRef} (h : Obeys policy ctx.program)
    (hrun : hashLoop values hash1 hash2 ctx = .ok (res, ctx')) : Obeys policy ctx'.program := by
  induction values generalizing hash1 hash2 ctx with
  | nil =>
    obtain ⟨-, rfl⟩ := run_pure_ok hrun
    exact h
  | cons sv rest ih =>
    rw [hashLoop, run_bind_of_ok (run_addBinary' _ _ _ _), run_bind_of_ok (run_addUnary _ _ _),
      run_bind_of_ok (run_addBinary' _ _ _ _), run_bind_of_ok (run_addBinary' _ _ _ _)] at hrun
    simp only [program_withProgram] at hrun
    -- neither opcode is folded
    have hplain : ∀ {p : IRProgram} {op : Opcode} {a b : IRValueRef}, Obeys policy p →
        op = .zExt ∨ op = .crc32 → Obeys policy (p.addBinary op .uint64 a b).2 := by
      intro p op a b hp hop
      apply hp.addBinary
      rcases hop with rfl | rfl
      · exact fun _ _ _ _ _ _ hconst => by cases hconst
      · exact fun _ _ _ _ _ _ hconst => by cases hconst
    have h₁ := hplain (a := sv.valueRef) (b := sv.valueRef) h (.inl rfl)
    have h₂ := h₁.emit_other (i := .unary .zExt .uint64 sv.valueRef) (by simp [Instr.op])
    exact ih (hplain (hplain h₂ (.inr rfl)) (.inr rfl)) hrun

lemma hashValues_obeys {values : List SQLValue} {ref : IRValueRef}
    (hhash : ∀ w ∈ [hashSeed1, hashSeed2, hashMultiplier], policy.constants .uint64 w)
    (h : Obeys policy ctx.program) (hrun : hashValues values ctx = .ok (ref, ctx')) :
    Obeys policy ctx'.program := by
  rw [hashValues, run_bind_of_ok (run_addConstInt _ _), run_bind_of_ok (run_addConstInt _ _)] at hrun
  simp only [program_withProgram] at hrun
  obtain ⟨⟨hash1, hash2⟩, ctx₁, hloop, hrest⟩ := run_bind_ok hrun
  have h₁ : Obeys policy (ctx.program.addConstInt hashSeed1 .uint64).2 :=
    h.addConstInt (hhash _ (by simp))
  have h₂ := h₁.addConstInt (hhash hashSeed2 (by simp))
  have h₃ : Obeys policy ctx₁.program := hashLoop_obeys (by exact h₂) hloop
  rw [run_bind_of_ok (run_addRotateRight _ _), run_bind_of_ok (run_addBinary' _ _ _ _),
    run_bind_of_ok (run_addConstInt _ _), run_addBinary'] at hrest
  simp only [program_withProgram] at hrest
  cases hrest
  -- the second hash is rotated at run time, so nothing is folded from here on
  have h₄ : Obeys policy (ctx₁.program.addRotateRight hash2 32).2 :=
    h₃.emit_other (i := .rotateRight hash2 32) (by simp [Instr.op])
  have hrot : RunTime (ctx₁.program.addRotateRight hash2 32).2
      (ctx₁.program.addRotateRight hash2 32).1 := RunTime.ofEmit rfl
  have h₅ : Obeys policy ((ctx₁.program.addRotateRight hash2 32).2.addBinary .xor .uint64 hash1
      (ctx₁.program.addRotateRight hash2 32).1).2 := h₄.addBinary_runTime (.inr hrot)
  have hhashed : RunTime ((ctx₁.program.addRotateRight hash2 32).2.addBinary .xor .uint64 hash1
      (ctx₁.program.addRotateRight hash2 32).1).2 _ := RunTime.ofAddBinary (.inr hrot)
  have h₆ := h₅.addConstInt (hhash hashMultiplier (by simp))
  exact h₆.addBinary_runTime (.inl (hhashed.addConstInt h₅))

lemma padWithZeros_obeys {n : Nat} {args res : List IRValueRef} (hzero : policy.constants .int64 0)
    (h : Obeys policy ctx.program) (hrun : padWithZeros n args ctx = .ok (res, ctx')) :
    Obeys policy ctx'.program := by
  induction n generalizing args ctx with
  | zero =>
    obtain ⟨-, rfl⟩ := run_pure_ok hrun
    exact h
  | succ n ih =>
    rw [padWithZeros, run_bind_of_ok (run_addConstInt _ _)] at hrun
    exact ih (h.addConstInt hzero) hrun

/-- One more column is bound to the result of a call. -/
lemma call_bind_obeys {value : Word} {t : IRType} {fn : RuntimeFn}
    (args : IRValueRef → List IRValueRef) (hv : Valid ctx.program)
    (hvalue : policy.constants t value) (hcall : policy.calls fn) (h : Obeys policy ctx.program)
    (hscope : ScopeRunTime ctx.program scope) (iu : IU) (ty : SQLType) :
    let p₁ := (ctx.program.addConstInt value t).2
    let p₂ := (p₁.addCall .int64 fn (args (ctx.program.addConstInt value t).1)).2
    Obeys policy p₂ ∧ ScopeRunTime p₂ (scope.bind iu
      (.makeNonNull (p₁.addCall .int64 fn (args (ctx.program.addConstInt value t).1)).1 ty)) := by
  intro p₁ p₂
  have h₁ : Obeys policy p₁ := h.addConstInt hvalue
  have hl : Local ctx.program p₂ :=
    (addConstInt_local hv value t).trans (emit_local (addConstInt_valid hv value t) rfl)
  refine ⟨h₁.emit ?_, (hscope.mono hl).bind iu (RunTime.ofEmit rfl) ty⟩
  rintro ty' fn' args' ⟨⟩
  exact hcall

lemma bindFields_obeys {fn : RuntimeFn} {entryPtr : IRValueRef} {i : Nat} {ius : List IU}
    {res : ConsumerScope} (hv : Valid ctx.program)
    (hfields : ∀ k < ius.length, policy.constants .int32 (BitVec.ofNat 64 (i + k)))
    (hcall : policy.calls fn) (h : Obeys policy ctx.program) (hscope : ScopeRunTime ctx.program scope)
    (hrun : HashJoinTranslator.bindFields fn entryPtr i ius scope ctx = .ok (res, ctx')) :
    Obeys policy ctx'.program ∧ ScopeRunTime ctx'.program res := by
  induction ius generalizing i scope ctx with
  | nil =>
    obtain ⟨rfl, rfl⟩ := run_pure_ok hrun
    exact ⟨h, hscope⟩
  | cons iu rest ih =>
    rw [HashJoinTranslator.bindFields, run_bind_of_ok (run_addConstInt _ _),
      run_bind_of_ok (run_addCall _ _ _)] at hrun
    simp only [program_withProgram] at hrun
    obtain ⟨h₁, hscope₁⟩ := call_bind_obeys (fun c => [entryPtr, c]) hv
      (hfields 0 (Nat.zero_lt_succ _)) hcall h hscope iu iu.type
    refine ih ?_ (fun k hk => ?_) ?_ ?_ hrun
    · exact emit_valid (addConstInt_valid hv _ _) _
    · rw [Nat.add_assoc, Nat.add_comm 1 k]
      exact hfields (k + 1) (Nat.succ_lt_succ hk)
    · exact h₁
    · exact hscope₁

lemma bindColumns_obeys {iPhi : IRValueRef} {cols : List (IU × Column)} {res : ConsumerScope}
    (hv : Valid ctx.program) (hcols : ∀ c ∈ cols, policy.constants .ptr c.2.address)
    (hcall : policy.calls .loadColumnValue) (h : Obeys policy ctx.program)
    (hscope : ScopeRunTime ctx.program scope)
    (hrun : ScanTranslator.bindColumns iPhi cols scope ctx = .ok (res, ctx')) :
    Obeys policy ctx'.program ∧ ScopeRunTime ctx'.program res := by
  induction cols generalizing scope ctx with
  | nil =>
    obtain ⟨rfl, rfl⟩ := run_pure_ok hrun
    exact ⟨h, hscope⟩
  | cons c rest ih =>
    obtain ⟨iu, col⟩ := c
    rw [ScanTranslator.bindColumns, run_bind_of_ok (run_addConstInt _ _),
      run_bind_of_ok (run_addCall _ _ _)] at hrun
    simp only [program_withProgram] at hrun
    obtain ⟨hcol, hrest⟩ := List.forall_mem_cons.mp hcols
    obtain ⟨h₁, hscope₁⟩ := call_bind_obeys (fun c => [c, iPhi]) hv hcol hcall h hscope iu col.type
    refine ih ?_ hrest ?_ ?_ hrun
    · exact emit_valid (addConstInt_valid hv _ _) _
    · exact h₁
    · exact hscope₁

/-- What is folded in an expression is allowed, and is the value of the expression. -/
lemma evalExpr_obeys {resolve : ColumnRef → Except CppError IU} {e : Expr} {v : SQLValue}
    (hready : Ready ctx.program) (hok : ScopeOk ctx.program scope)
    (hscope : ScopeRunTime ctx.program scope) (hallows : policy.AllowsExpr e)
    (h : Obeys policy ctx.program) (hrun : evalExpr resolve scope e ctx = .ok (v, ctx')) :
    Obeys policy ctx'.program ∧ (policy.Apart → ∀ w,
      ctx'.program.constIntValue v.valueRef = some w → e.evalIn (fun _ => none) = some w) := by
  induction e generalizing v ctx ctx' with
  | colRef ref =>
    rw [evalExpr] at hrun
    obtain ⟨iu, ctx₁, hiu, hget⟩ := run_bind_ok hrun
    obtain ⟨-, rfl⟩ := run_ofExcept_ok hiu
    obtain ⟨hval, rfl⟩ := run_ofExcept_ok hget
    refine ⟨h, fun _ w hw => ?_⟩
    rw [(hscope _ _ (get_ok hval)).value] at hw
    cases hw
  | intLit n =>
    rw [evalExpr] at hrun
    have hrun' : Except.ok (⟨(ctx.program.addConstInt n .int64).1, .null, .integer⟩,
        ctx.withProgram (ctx.program.addConstInt n .int64).2) = Except.ok (v, ctx') := hrun
    cases hrun'
    refine ⟨h.addConstInt hallows, fun hapart w hw => ?_⟩
    rw [program_withProgram, h.answer hapart hallows] at hw
    exact hw
  | binOp op l r ihl ihr =>
    obtain ⟨hallowsL, hallowsR, hfold⟩ := hallows
    obtain ⟨vl, ctx₁, vr, ctx₂, hl, hr, hv⟩ := run_evalExpr_binOp hrun
    obtain ⟨a₁, hnl, hal, -⟩ := evalExpr_advances False hready hok False.elim hl
    obtain ⟨a₂, hnr, har, -⟩ := evalExpr_advances False a₁.ready (hok.mono a₁.loc) False.elim hr
    obtain ⟨h₁, hvalue₁⟩ := ihl hready hok hscope hallowsL h hl
    obtain ⟨h₂, hvalue₂⟩ := ihr a₁.ready (hok.mono a₁.loc) (hscope.mono a₁.loc) hallowsR h₁ hr
    obtain ⟨-, hval, rfl⟩ := hv hnl hnr
    -- the constants of the operands are the values of the sides
    have heval : policy.Apart → ∀ va vb, ctx₂.program.constIntValue vl.valueRef = some va →
        ctx₂.program.constIntValue vr.valueRef = some vb →
        (Expr.binOp op l r).evalIn (fun _ => none) = some (op.eval va vb) := by
      intro hapart va vb hva hvb
      rw [constIntValue_local hal a₂.loc] at hva
      rw [Expr.evalIn, hvalue₁ hapart va hva, hvalue₂ hapart vb hvb]
      rfl
    have hconst : ∀ va vb, ctx₂.program.constIntValue vl.valueRef = some va →
        ctx₂.program.constIntValue vr.valueRef = some vb → policy.constants .int64 (op.eval va vb) :=
      fun va vb hva hvb => hfold _ fun hapart => heval hapart va vb hva hvb
    constructor
    · apply h₂.addBinary
      intro va vb w t' hva hvb hfolded hbool
      rw [foldConstants_opcodeOf] at hfolded
      cases hfolded
      have hint : (opcodeOf op).2 = .int64 := by
        cases op <;> first | rfl | exact absurd rfl hbool
      rw [hint]
      exact hconst va vb hva hvb
    · intro hapart w hw
      rw [program_withProgram, hval] at hw
      obtain ⟨va, vb, hva, hvb, rfl⟩ := h₂.addBinary_value hapart hconst hw
      exact heval hapart va vb hva hvb

lemma evalRest_obeys {pred : Predicate} {es : List Expr} {v res : SQLValue}
    (hready : Ready ctx.program) (hok : ScopeOk ctx.program scope)
    (hscope : ScopeRunTime ctx.program scope)
    (hv : v.nullRef = .null ∧ Available ctx.program v.valueRef)
    (hallows : ∀ e ∈ es, policy.AllowsExpr e) (h : Obeys policy ctx.program)
    (hrun : pred.evalRest scope es v ctx = .ok (res, ctx')) : Obeys policy ctx'.program := by
  induction es generalizing v ctx with
  | nil =>
    obtain ⟨-, rfl⟩ := run_pure_ok hrun
    exact h
  | cons e rest ih =>
    rw [Predicate.evalRest] at hrun
    obtain ⟨next, ctx₁, hnext, hrun⟩ := run_bind_ok hrun
    obtain ⟨both, ctx₂, hand, hrun⟩ := run_bind_ok hrun
    obtain ⟨hand, hctx₂⟩ := run_logic hand
    obtain ⟨hallow, hrest⟩ := List.forall_mem_cons.mp hallows
    obtain ⟨a₁, -, hav, -⟩ := evalExpr_advances False hready hok False.elim hnext
    have h₁ := (evalExpr_obeys hready hok hscope hallow h hnext).1
    have a₂ := a₁.ready.addBinary False .lAnd .bool (hv.2.mono a₁.loc) hav False.elim
    have h₂ : Obeys policy (ctx₁.program.addBinary .lAnd .bool v.valueRef next.valueRef).2 :=
      h₁.addBinary_bool rfl
    have hl := a₁.loc.trans a₂.loc
    subst hand hctx₂
    exact ih (v := ⟨_, .null, .bool⟩) a₂.ready (hok.mono hl) (hscope.mono hl)
      ⟨rfl, addBinary_available a₁.ready.valid (show Opcode.lAnd ≠ .store by simp) .bool _ _⟩
      hrest h₂ hrun

lemma eval_obeys {pred : Predicate} {res : SQLValue} (hready : Ready ctx.program)
    (hok : ScopeOk ctx.program scope) (hscope : ScopeRunTime ctx.program scope)
    (hallows : ∀ e ∈ pred.conjuncts, policy.AllowsExpr e) (h : Obeys policy ctx.program)
    (hrun : pred.eval scope ctx = .ok (res, ctx')) : Obeys policy ctx'.program := by
  unfold Predicate.eval at hrun
  cases hc : pred.conjuncts with
  | nil =>
    rw [hc] at hrun
    cases hrun
  | cons e rest =>
    rw [hc] at hrun hallows
    obtain ⟨v, ctx₁, hv, hrun⟩ := run_bind_ok hrun
    obtain ⟨hallow, hrest⟩ := List.forall_mem_cons.mp hallows
    obtain ⟨a₁, hnull, hav, -⟩ := evalExpr_advances False hready hok False.elim hv
    have h₁ := (evalExpr_obeys hready hok hscope hallow h hv).1
    exact evalRest_obeys a₁.ready (hok.mono a₁.loc) (hscope.mono a₁.loc) ⟨hnull, hav⟩ hrest h₁ hrun

/-! ### Consumers -/

/-- A consumer keeps to the policy when `child` hands it a tuple. -/
def ConsumerObeys (policy : Policy) (consume : Consumer) (child : Nat) : Prop :=
  ∀ (ctx ctx' : CompilationContext) scope, Ready ctx.program → ScopeOk ctx.program scope →
    ScopeRunTime ctx.program scope → Obeys policy ctx.program →
    consume scope child ctx = .ok ((), ctx') → Obeys policy ctx'.program

/-- A loop whose body is structured and keeps to the policy. -/
lemma loop_obeys {name : String} {zero bound one : IRValueRef} {body : IRValueRef → Gen Unit}
    (hv : Valid ctx.program)
    (hbody : ∀ ctx₁ ctx₂ : CompilationContext, ctx₁.program = ctx.program.openLoop name zero bound →
      body (.instr ctx.program.loopIndex) ctx₁ = .ok ((), ctx₂) →
        Emits False ctx₁.program ctx₂.program ∧ Obeys policy ctx₂.program)
    (hrun : Gen.countedLoop name zero bound one body ctx = .ok ((), ctx')) :
    Obeys policy ctx'.program := by
  obtain ⟨ctx₁, q, hinner, hclose, rfl⟩ := (run_countedLoop_iff hv _ _ _ _ _).mp hrun
  have hopen := openLoop_spec hv name zero bound
  obtain ⟨hemits, hobeys⟩ := hbody (ctx.withProgram _) ctx₁ rfl hinner
  obtain ⟨hl, hvalid, -⟩ := hemits.grows hopen.valid hopen.isOpen
  exact hobeys.closeLoop hvalid (hl.allRecords _ _ hopen.phi) hclose

lemma scan_obeys {scan : ScanTranslator} (hallows : policy.AllowsScan scan)
    (hemits : ConsumerEmits False parent) (hp : ConsumerObeys policy parent scan.id)
    (hv : Valid ctx.program) (h : Obeys policy ctx.program)
    (hrun : scan.produce parent ctx = .ok ((), ctx')) : Obeys policy ctx'.program := by
  rw [ScanTranslator.produce, run_bind_of_ok (run_addConstInt _ _),
    run_bind_of_ok (run_addConstInt _ _), run_bind_of_ok (run_addConstInt _ _)] at hrun
  simp only [program_withProgram] at hrun
  have hv₁ := addConstInt_valid hv 0 .int64
  have hv₂ := addConstInt_valid hv₁ (BitVec.ofNat 64 scan.table.numRows) .int64
  have hv₃ := addConstInt_valid hv₂ 1 .int64
  have h₃ := ((h.addConstInt hallows.zero).addConstInt hallows.numRows).addConstInt hallows.one
  refine loop_obeys (by exact hv₃)
    (fun ctx₁ ctx₂ hctx₁ hbody => ?_) hrun
  obtain ⟨scope, ctx₃, hcols, hparent⟩ := run_bind_ok hbody
  have hready : Ready ctx₁.program := hctx₁ ▸ openLoop_ready hv₃ _ _ _
  obtain ⟨adv, hscope⟩ := bindColumns_advances False hready
    (hctx₁ ▸ loopIndex_available hv₃ _ _ _) (fun _ _ hv => by cases hv) hcols
  obtain ⟨hobeys, hrt⟩ := bindColumns_obeys hready.valid
    (fun c hc => hallows.columns c.2 (List.of_mem_zip hc).2) hallows.call
    (hctx₁ ▸ h₃.openLoop _ _ _) (fun _ _ hv => by cases hv) hcols
  exact ⟨adv.emits.trans (hemits ctx₃ ctx₂ scope scan.id adv.ready hscope hparent),
    hp ctx₃ ctx₂ scope adv.ready hscope hrt hobeys hparent⟩

lemma select_obeys {id child : Nat} {pred : Predicate}
    (hallows : ∀ e ∈ pred.conjuncts, policy.AllowsExpr e) (hp : ConsumerObeys policy parent id) :
    ConsumerObeys policy (selectConsume id pred parent) child := by
  intro ctx ctx' scope hready hok hscope h hrun
  simp only [selectConsume] at hrun
  obtain ⟨cond, ctx₁, hcond, hrun⟩ := run_bind_ok hrun
  obtain ⟨adv, -⟩ := Predicate.eval_advances False hready hok False.elim hcond
  have h₁ := eval_obeys hready hok hscope hallows h hcond
  rw [run_bind_of_ok (show Gen.program ctx₁ = .ok (ctx₁.program, ctx₁) from rfl)] at hrun
  split_ifs at hrun
  · exact hp _ _ _ adv.ready (hok.mono adv.loc) (hscope.mono adv.loc) h₁ hrun
  · obtain ⟨ctx₂, hbody, rfl⟩ := (run_ifStmt_iff adv.ready.valid _ _).mp hrun
    have hl := adv.loc.trans (openIf_spec adv.ready.valid cond.valueRef).loc
    have hobeys := hp _ _ _ (openIf_ready adv.ready.valid cond.valueRef) (hok.mono hl)
      (hscope.mono hl) (h₁.openIf cond.valueRef) hbody
    exact hobeys.closeIf _

lemma buildSide_obeys {j : HashJoinTranslator} (hallows : policy.AllowsJoin j)
    (h : Obeys policy ctx.program) (hrun : j.consumeBuildSide scope ctx = .ok ((), ctx')) :
    Obeys policy ctx'.program := by
  obtain ⟨keyVals, payloadVals, hash, ctx₁, -, -, hhash, hprog, -⟩ := run_consumeBuildSide hrun
  have h₁ := hashValues_obeys hallows.hash h hhash
  have h₃ := (h₁.addConstInt hallows.hashTable).addConstInt hallows.zero
  rw [hprog]
  apply h₃.emit
  rintro t fn args ⟨⟩
  exact hallows.calls _ (by simp)

/-- The body of the loop over the matches. -/
lemma probeBody_obeys {j : HashJoinTranslator} {matchesPtr idxPhi : IRValueRef}
    (hallows : policy.AllowsJoin j) (hp : ConsumerObeys policy parent j.id)
    (hready : Ready ctx.program) (hok : ScopeOk ctx.program scope)
    (hscope : ScopeRunTime ctx.program scope) (hm : Available ctx.program matchesPtr)
    (hidx : Available ctx.program idxPhi) (h : Obeys policy ctx.program)
    (hrun : probeBody j parent scope matchesPtr idxPhi ctx = .ok ((), ctx')) :
    Obeys policy ctx'.program := by
  rw [probeBody, run_bind_of_ok (run_addCall _ _ _)] at hrun
  obtain ⟨scope₁, ctx₁, hkeys, hrun⟩ := run_bind_ok hrun
  obtain ⟨scope₂, ctx₂, hpayload, hparent⟩ := run_bind_ok hrun
  have b₁ := hready.addCall False .ptr .matchAt [matchesPtr, idxPhi] (by
    intro r hr
    rcases List.mem_pair.mp hr with rfl | rfl
    · exact hm
    · exact hidx)
  have he := emit_available (p := ctx.program) (i := .call .ptr .matchAt [matchesPtr, idxPhi]) rfl
  obtain ⟨b₂, hs₁⟩ := bindFields_advances False b₁.ready he (hok.mono b₁.loc) hkeys
  obtain ⟨b₃, hs₂⟩ := bindFields_advances False b₂.ready (he.mono b₂.loc) hs₁ hpayload
  have h₁ : Obeys policy (ctx.program.addCall .ptr .matchAt [matchesPtr, idxPhi]).2 := by
    apply h.emit
    rintro t fn args ⟨⟩
    exact hallows.calls _ (by simp)
  obtain ⟨h₂, hrt₂⟩ := bindFields_obeys (by exact b₁.ready.valid)
    (fun k hk => by rw [Nat.zero_add]; exact hallows.fields k (.inl hk))
    (hallows.calls .getKey (by simp)) h₁ (hscope.mono b₁.loc) hkeys
  obtain ⟨h₃, hrt₃⟩ := bindFields_obeys b₂.ready.valid
    (fun k hk => by rw [Nat.zero_add]; exact hallows.fields k (.inr hk))
    (hallows.calls .getPayload (by simp)) h₂ hrt₂ hpayload
  exact hp _ _ _ b₃.ready hs₂ hrt₃ h₃ hparent

lemma probeSide_obeys {j : HashJoinTranslator} (hallows : policy.AllowsJoin j)
    (hemits : ConsumerEmits False parent) (hp : ConsumerObeys policy parent j.id)
    (hready : Ready ctx.program) (hok : ScopeOk ctx.program scope)
    (hscope : ScopeRunTime ctx.program scope) (h : Obeys policy ctx.program)
    (hrun : j.consumeProbeSide parent scope ctx = .ok ((), ctx')) : Obeys policy ctx'.program := by
  obtain ⟨keyVals, hash, ctx₁, ctx₂, lookupArgs, ctx₃, ctx₄, hk, hhash, hprog₂, -, hpad, hctx₄,
    hloop⟩ := run_consumeProbeSide hrun
  have hstart := probeStart False hready (getAll_available hok hk) hhash hprog₂ hpad
  have hprog₄ := congrArg CompilationContext.program hctx₄
  rw [program_withProgram] at hprog₄
  dsimp only at hstart
  rw [← hprog₄] at hstart
  have h₂ : Obeys policy ctx₂.program := by
    rw [hprog₂]
    exact (hashValues_obeys hallows.hash h hhash).addConstInt hallows.hashTable
  have h₃ := padWithZeros_obeys hallows.zero h₂ hpad
  have hcall : ∀ {p : IRProgram} {t : IRType} {fn : RuntimeFn} {args : List IRValueRef},
      Obeys policy p → fn ∈ [RuntimeFn.lookupAll, .matchCount] →
      Obeys policy (p.addCall t fn args).2 := by
    intro p t fn args hobeys hfn
    apply hobeys.emit
    rintro t' fn' args' ⟨⟩
    apply hallows.calls
    rcases List.mem_pair.mp hfn with rfl | rfl
    · simp
    · simp
  have h₄ : Obeys policy ctx₄.program := by
    rw [hprog₄]
    exact ((hcall (hcall h₃ (by simp)) (by simp)).addConstInt hallows.zero).addConstInt hallows.one
  refine loop_obeys hstart.advances.ready.valid (fun ctx₅ ctx₆ hctx₅ hbody => ?_) hloop
  have hv := hstart.advances.ready.valid
  have l₅ : Local ctx₄.program ctx₅.program := by
    rw [hctx₅]
    exact (openLoop_spec hv _ _ _).loc
  have hready₅ : Ready ctx₅.program := by
    rw [hctx₅]
    exact openLoop_ready hv _ _ _
  have hidx : Available ctx₅.program (.instr ctx₄.program.loopIndex) := by
    rw [hctx₅]
    exact loopIndex_available hv _ _ _
  have h₅ : Obeys policy ctx₅.program := by
    rw [hctx₅]
    exact h₄.openLoop _ _ _
  have hok₅ := (hok.mono hstart.advances.loc).mono l₅
  have hm := hstart.matchesAvailable.mono l₅
  exact ⟨probeBody_emits hemits hready₅ hok₅ hm hidx hbody, probeBody_obeys hallows hp hready₅ hok₅
    ((hscope.mono hstart.advances.loc).mono l₅) hm hidx h₅ hbody⟩

/-- The parent of a join gets tuples from the probe side only. -/
lemma join_obeys {j : HashJoinTranslator} {child : Nat} (hallows : policy.AllowsJoin j)
    (hemits : ConsumerEmits False parent) (hp : child ≠ j.buildId → ConsumerObeys policy parent j.id) :
    ConsumerObeys policy (j.consume parent) child := by
  intro ctx ctx' scope hready hok hscope h hrun
  unfold HashJoinTranslator.consume at hrun
  split_ifs at hrun with hbuild
  · exact buildSide_obeys hallows h hrun
  · exact probeSide_obeys hallows hemits (hp hbuild) hready hok hscope h hrun

lemma print_obeys {self : Word} {outputIUs : List IU} {child : Nat}
    (hallows : policy.AllowsPrint self outputIUs.length) :
    ConsumerObeys policy (printConsume self outputIUs) child := by
  intro ctx ctx' scope _ _ _ h hrun
  obtain ⟨-, vals, callArgs, ctx₁, -, hpad, rfl⟩ := run_printConsume hrun
  have h₂ := (h.addConstInt hallows.printer).addConstInt hallows.width
  have h₃ := padWithZeros_obeys hallows.zero (by exact h₂) hpad
  apply h₃.emit
  rintro t fn args ⟨⟩
  exact hallows.call

lemma queryProgram_obeys : Obeys policy queryProgram where
  offsets := queryProgram_valid.offsets
  calls := fun _ _ _ _ h => by cases h
  cache := fun _ _ h => by cases h
  requests := fun _ h => by cases h

/-- The code of an operator tree keeps to a policy that allows what its operators ask for. -/
theorem produce_obeys (op : Operator) (hallows : policy.AllowsTree op)
    (hemits : ConsumerEmits False parent) (hp : ConsumerObeys policy parent op.id)
    (hv : Valid ctx.program) (ho : Open ctx.program) (h : Obeys policy ctx.program)
    (hrun : op.produce parent ctx = .ok ((), ctx')) : Obeys policy ctx'.program := by
  induction op generalizing parent ctx ctx' with
  | scan s => exact scan_obeys hallows hemits hp hv h hrun
  | select id child pred ih =>
    exact ih hallows.1 (select_emits hemits False.elim) (select_obeys hallows.2 hp) hv ho h hrun
  | hashJoin id build probe buildKeys probeKeys ht ihb ihp =>
    obtain ⟨hallowsB, hallowsP, hallowsJ⟩ := hallows
    obtain ⟨⟨⟩, ctx₁, hb, hprobe⟩ := run_bind_ok hrun
    have e₁ : Emits False _ _ := produce_emits build (join_emits hemits) False.elim hv ho hb
    obtain ⟨-, hv₁, ho₁⟩ := ((Emits.const _ _ _).trans e₁).grows hv ho
    have h₁ := ihb hallowsB (join_emits hemits)
      (join_obeys hallowsJ hemits fun hne => absurd rfl hne) hv ho h hb
    exact ihp hallowsP (join_emits hemits) (join_obeys hallowsJ hemits fun _ => hp) hv₁ ho₁ h₁ hprobe

end

end Proofs

end TidyTuples
