import TidyTuples.Operators.Push
import TidyTuples.Proofs.LineBuilding

/-!
# The same values on both hosts

The helpers for x86-64 and for arm64 differ in `ZExt`: `movzx` drops the upper half of the operand,
the copy on arm64 keeps it.
-/

namespace TidyTuples

open Translator

/-! ### The hash -/

namespace Arch

/-- The step of the polynomial division is linear. -/
lemma feedback_xor (x y : Bool) (u v poly : BitVec 32) :
    (if (x ^^ y) = true then u ^^^ v ^^^ poly else u ^^^ v) =
      (if x = true then u ^^^ poly else u) ^^^ (if y = true then v ^^^ poly else v) := by
  cases x <;> cases y
  · rfl
  · exact BitVec.xor_assoc u v poly
  · exact (BitVec.xor_assoc u v poly).trans
      ((congrArg (u ^^^ ·) (BitVec.xor_comm v poly)).trans (BitVec.xor_assoc u poly v).symm)
  · change u ^^^ v = u ^^^ poly ^^^ (v ^^^ poly)
    rw [BitVec.xor_comm v poly, BitVec.xor_assoc, ← BitVec.xor_assoc poly, BitVec.xor_self,
      BitVec.zero_xor]

lemma crc32c_xor (n : Nat) (c c' : BitVec 32) (b b' : Word) :
    crc32c n (c ^^^ c') (b ^^^ b') = crc32c n c b ^^^ crc32c n c' b' := by
  induction n generalizing c c' b b' with
  | zero => rfl
  | succ n ih =>
    rw [crc32c, crc32c, crc32c, ← ih, ← BitVec.ushiftRight_xor_distrib, ← feedback_xor,
      BitVec.getLsbD_xor, BitVec.getLsbD_xor, BitVec.ushiftRight_xor_distrib]
    congr 2
    cases c.getLsbD 0 <;> cases c'.getLsbD 0 <;> cases b.getLsbD 0 <;> cases b'.getLsbD 0 <;> rfl

/-- The half of a key that `movzx` drops. -/
def upperHalf (w : Word) : Word := (w >>> 32) <<< 32

lemma zExt_xor_upperHalf (w : Word) : x86.zExt w ^^^ upperHalf w = w := by
  apply BitVec.eq_of_getLsbD_eq
  intro i hi
  simp only [x86, upperHalf, BitVec.truncate_eq_setWidth, BitVec.getLsbD_xor, BitVec.getLsbD_setWidth, BitVec.getLsbD_shiftLeft, BitVec.getLsbD_ushiftRight]
  by_cases hlow : i < 32
  · simp [hlow, hi]
  · simp [hlow, hi, Nat.add_sub_cancel' (Nat.le_of_not_lt hlow)]

lemma rotateRight_xor (x y : Word) (n : Nat) :
    (x ^^^ y).rotateRight n = x.rotateRight n ^^^ y.rotateRight n := by
  apply BitVec.eq_of_getLsbD_eq
  intro i hi
  rw [BitVec.getLsbD_xor, BitVec.getLsbD_rotateRight, BitVec.getLsbD_rotateRight,
    BitVec.getLsbD_rotateRight, BitVec.getLsbD_xor, BitVec.getLsbD_xor]
  cases decide (i < 64 - n % 64) <;> simp [hi]

/-- A number of 32 bits and its rotation differ unless it is zero. -/
lemma xor_rotateRight_eq_zero {d : BitVec 32} :
    d.zeroExtend 64 ^^^ (d.zeroExtend 64).rotateRight 32 = 0 ↔ d = 0 := by
  constructor
  · intro h
    apply BitVec.eq_of_getLsbD_eq
    intro i hi
    have hbit := congrArg (fun w : Word => w.getLsbD i) h
    simp only [BitVec.getLsbD_xor, BitVec.getLsbD_rotateRight] at hbit
    simpa [hi, show i < 64 by omega] using hbit
  · rintro rfl
    decide

/-- The multiplier is odd. -/
lemma mul_hashMultiplier_injective {a b : Word} (h : a * hashMultiplier = b * hashMultiplier) :
    a = b := by
  have hinv : hashMultiplier * 17428512612931826493#64 = 1 := by decide
  have hmul := congrArg (· * 17428512612931826493#64) h
  simp only [BitVec.mul_assoc, hinv] at hmul
  exact (BitVec.mul_one a).symm.trans (hmul.trans (BitVec.mul_one b))

/-- What the upper halves of the keys add to a CRC. -/
def upperCrc (crc : BitVec 32) (values : List Word) : BitVec 32 :=
  values.foldl (fun crc w => crc32c 64 crc (upperHalf w)) crc

/-- The hashes on the two hosts differ by what the upper halves add. -/
lemma hashPair_arm64 (values : List Word) (h1 h2 : Word) (d : BitVec 32) :
    arm64.hashPair values (h1 ^^^ d.zeroExtend 64, h2 ^^^ d.zeroExtend 64) =
      ((x86.hashPair values (h1, h2)).1 ^^^ (upperCrc d values).zeroExtend 64,
        (x86.hashPair values (h1, h2)).2 ^^^ (upperCrc d values).zeroExtend 64) := by
  induction values generalizing h1 h2 d with
  | nil => rfl
  | cons w rest ih =>
    have hstep : ∀ h : Word, arm64.crc32 (h ^^^ d.zeroExtend 64) (arm64.zExt w) =
        x86.crc32 h (x86.zExt w) ^^^ (crc32c 64 d (upperHalf w)).zeroExtend 64 := by
      intro h
      change (crc32c 64 ((h ^^^ d.zeroExtend 64).truncate 32) w).zeroExtend 64 =
        (crc32c 64 (h.truncate 32) (x86.zExt w)).zeroExtend 64 ^^^ _
      have hd : (h ^^^ d.zeroExtend 64).truncate 32 = h.truncate 32 ^^^ d := by
        simp
      rw [hd]
      conv_lhs => rw [← zExt_xor_upperHalf w]
      rw [crc32c_xor]
      simp
    rw [hashPair, hashPair, hstep, hstep]
    exact ih _ _ _

/-- The hashes are combined in a way that keeps every difference. -/
lemma combine_eq_iff (h1 h2 : Word) (d : BitVec 32) :
    (h1 ^^^ h2.rotateRight 32) * hashMultiplier =
      (h1 ^^^ d.zeroExtend 64 ^^^ (h2 ^^^ d.zeroExtend 64).rotateRight 32) * hashMultiplier ↔
    d = 0 := by
  have hdiff : h1 ^^^ d.zeroExtend 64 ^^^ (h2 ^^^ d.zeroExtend 64).rotateRight 32 =
      h1 ^^^ h2.rotateRight 32 ^^^ (d.zeroExtend 64 ^^^ (d.zeroExtend 64).rotateRight 32) := by
    rw [rotateRight_xor]
    ac_rfl
  rw [hdiff, ← xor_rotateRight_eq_zero]
  constructor
  · intro h
    have hcancel := congrArg ((h1 ^^^ h2.rotateRight 32) ^^^ ·) (mul_hashMultiplier_injective h)
    simpa [← BitVec.xor_assoc] using hcancel.symm
  · intro h
    rw [h]
    exact congrArg (· * hashMultiplier) BitVec.xor_zero.symm

theorem hashWords_eq_iff (values : List Word) :
    x86.hashWords values = arm64.hashWords values ↔ upperCrc 0 values = 0 := by
  have hpair := hashPair_arm64 values hashSeed1 hashSeed2 0
  have hzero : ∀ h : Word, h ^^^ (0 : BitVec 32).zeroExtend 64 = h := fun h => BitVec.xor_zero
  rw [hzero, hzero] at hpair
  unfold hashWords
  rw [hpair]
  exact combine_eq_iff _ _ _

end Arch

/-- A function whose parameters are the keys. -/
def hashContext (params : List (String × IRType)) : CompilationContext where
  program := (({} : IRProgram).beginFunction "hash" .uint64 params).2
  heap := emptyHeap
  nextIUId := 0
  numOperators := 0

/-- The code for the keys leaves the same hash on both hosts. -/
def SameHash (params : List (String × IRType)) (keys : List SQLValue) (s : HostState) : Prop :=
  let p := (hashContext params).program
  ∃ ref ctx s₁ s₂, hashValues keys (hashContext params) = .ok (ref, ctx) ∧
    Host.x86.run (p.codeSince ctx.program) s = some s₁ ∧
    Host.arm64.run (p.codeSince ctx.program) s = some s₂ ∧
    s₁.values ctx.program.translatorNow ref = s₂.values ctx.program.translatorNow ref

/-! ### Straight-line code -/

def Instr.zExtOperand : Instr → Option IRValueRef
  | .binary .zExt _ a _ => some a
  | .unary .zExt _ a => some a
  | _ => none

section

variable (P : IRProgram) (fn : IRFunction)

/-- The function consists of one block, with the records `refs` and maybe a return. -/
def IRFunction.IsLine (refs : List Nat) : Prop := ∃ name returns,
  fn.blocks = [⟨name, refs ++ returns⟩] ∧ ∀ r ∈ returns, ∃ x, P.instrAt r = some (.ret x)

/-- The code of the records and the translator behind it. -/
def lineCode (refs : List Nat) : List VInstr × Translator :=
  translateInstrs P fn (canDeferComparison P fn) 0 refs (findPhis P fn)

/-- Every record has the same value on both hosts. -/
def SameValues (refs : List Nat) (s : HostState) : Prop :=
  ∃ s₁ s₂, Host.x86.run (lineCode P fn refs).1 s = some s₁ ∧
    Host.arm64.run (lineCode P fn refs).1 s = some s₂ ∧
    ∀ r ∈ refs, s₁.values (lineCode P fn refs).2 (.instr r) =
      s₂.values (lineCode P fn refs).2 (.instr r)

/-- What is extended with zeros has no bits in its upper half. -/
def ZExtsFit : List Nat → ExecState Word (Memory 64) → Prop
  | [], _ => True
  | r :: rest, e => ∀ i, P.instrAt r = some i →
    (∀ a, i.zExtOperand = some a → (e.regs a).toNat < 2 ^ 32) ∧
    ∀ e', execInstr Arch.x86.emitted r i e = some e' → ZExtsFit rest e'

end

namespace Proofs

section

variable {p q : IRProgram} {ctx : CompilationContext} {x a b : IRValueRef} {i : Instr} {r : Nat}

lemma addBinary_emit {op : Opcode} (hop : ∀ t va vb, IRProgram.foldConstants op t va vb = none)
    (t : IRType) (a b : IRValueRef) : p.addBinary op t a b = p.emit (.binary op t a b) := by
  rw [IRProgram.addBinary, IRProgram.tryConstFold]
  cases p.constIntValue a <;> cases p.constIntValue b <;> simp [hop]

/-- The code for one key. -/
lemma hashKey_does (hp : BlockOpen p) {key h1 h2 : IRValueRef} (hkey : Known p key)
    (hh1 : Known p h1) (hh2 : Known p h2) :
    let p₁ := (p.emit (.binary .zExt .uint64 key key)).2
    let p₂ := (p₁.emit (.unary .zExt .uint64 key)).2
    let p₃ := (p₂.emit (.binary .crc32 .uint64 h1 (.instr p₁.dataSize))).2
    let p₄ := (p₃.emit (.binary .crc32 .uint64 h2 (.instr p₁.dataSize))).2
    Does (fun i => i.isLine = true) (fun _ => True) (fun host e e' =>
      e'.regs (.instr p₂.dataSize) = host.arch.crc32 (e.regs h1) (host.arch.zExt (e.regs key)) ∧
      e'.regs (.instr p₃.dataSize) = host.arch.crc32 (e.regs h2) (host.arch.zExt (e.regs key)))
      p p₄ [p.dataSize, p₁.dataSize, p₂.dataSize, p₃.dataSize] := by
  intro p₁ p₂ p₃ p₄
  have huses : ∀ {p : IRProgram} {a b : IRValueRef}, Known p a → Known p b →
      ∀ x ∈ [a, b], Known p x := by
    intro p a b ha hb x hx
    rcases List.mem_cons.mp hx with rfl | hx
    · exact ha
    · exact List.mem_singleton.mp hx ▸ hb
  have d₁ := hp.result (G := fun i => i.isLine = true) (.binary .zExt .uint64 key key) rfl
    (fun x hx => List.mem_singleton.mp hx ▸ hkey) (fun host e => host.arch.zExt (e.regs key))
    fun host e => rfl
  have hkey₁ := d₁.appends.known hkey
  have d₂ := d₁.appends.blockOpen.result (G := fun i => i.isLine = true) (.unary .zExt .uint64 key) rfl
    (fun x hx => List.mem_singleton.mp hx ▸ hkey₁)
    (fun host e => host.arch.zExt (e.regs key)) fun host e => rfl
  have hv : Known p₂ (.instr p₁.dataSize) := (d₂.appends.range _ List.mem_cons_self).2
  have d₁₂ := d₁.trans d₂ (fun host e e' =>
    e'.regs (.instr p₁.dataSize) = host.arch.zExt (e.regs key)) fun host e e' e'' hkept _ _ hval => by
      rw [hval.1, hkept key hkey]
  have d₃ := d₁₂.appends.blockOpen.result (G := fun i => i.isLine = true) (.binary .crc32 .uint64 h1 (.instr p₁.dataSize)) rfl
    (huses (d₁₂.appends.known hh1) hv)
    (fun host e => host.arch.crc32 (e.regs h1) (e.regs (.instr p₁.dataSize))) fun host e => rfl
  have d₁₃ := d₁₂.trans d₃ (fun host e e' =>
    e'.regs (.instr p₂.dataSize) = host.arch.crc32 (e.regs h1) (host.arch.zExt (e.regs key)) ∧
    e'.regs (.instr p₁.dataSize) = host.arch.zExt (e.regs key))
    fun host e e' e'' hkept hkept' hval hcrc =>
      ⟨by rw [hcrc.1, hval, hkept h1 hh1], by rw [hkept' _ hv, hval]⟩
  have d₄ := d₁₃.appends.blockOpen.result (G := fun i => i.isLine = true) (.binary .crc32 .uint64 h2 (.instr p₁.dataSize)) rfl
    (huses (d₁₃.appends.known hh2) (d₃.appends.known hv))
    (fun host e => host.arch.crc32 (e.regs h2) (e.regs (.instr p₁.dataSize))) fun host e => rfl
  have hc : Known p₃ (.instr p₂.dataSize) := (d₃.appends.range _ List.mem_cons_self).2
  refine (d₁₃.trans d₄ _ fun host e e' e'' hkept hkept' hval hcrc => ⟨?_, ?_⟩).congr
    fun host => ⟨fun _ => trivial, fun _ => ⟨⟨⟨rfl, rfl⟩, rfl⟩, rfl⟩⟩
  · rw [hkept' _ hc, hval.1]
  · rw [hcrc.1, hval.2, hkept h2 hh2]

/-- The loop over the keys hashes them. -/
lemma hashLoop_does {keys : List SQLValue} {h1 h2 : IRValueRef} (hp : BlockOpen ctx.program)
    (hkeys : ∀ v ∈ keys, Known ctx.program v.valueRef) (hh1 : Known ctx.program h1)
    (hh2 : Known ctx.program h2) : ∃ r1 r2 q refs,
    hashLoop keys h1 h2 ctx = .ok ((r1, r2), ctx.withProgram q) ∧
    q.constIntCache = ctx.program.constIntCache ∧ Known q r1 ∧ Known q r2 ∧
    Does (fun i => i.isLine = true) (fun _ => True) (fun host e e' => (e'.regs r1, e'.regs r2) =
      host.arch.hashPair (keys.map fun v => e.regs v.valueRef) (e.regs h1, e.regs h2))
      ctx.program q refs := by
  induction keys generalizing ctx h1 h2 with
  | nil =>
    refine ⟨h1, h2, ctx.program, [], rfl, rfl, hh1, hh2, ?_⟩
    refine hp.does.mono fun host e e' _ heq => ?_
    rw [heq]
    rfl
  | cons sv rest ih =>
    have hcode := hashKey_does hp (hkeys sv List.mem_cons_self) hh1 hh2
    extract_lets p₁ p₂ p₃ p₄ at hcode
    have hstep : hashLoop (sv :: rest) h1 h2 ctx =
        hashLoop rest (.instr p₂.dataSize) (.instr p₃.dataSize) (ctx.withProgram p₄) := by
      rw [hashLoop, run_bind_of_ok (run_addBinary' _ _ _ _), run_bind_of_ok (run_addUnary _ _ _),
        run_bind_of_ok (run_addBinary' _ _ _ _), run_bind_of_ok (run_addBinary' _ _ _ _)]
      simp only [program_withProgram, @addBinary_emit _ .zExt fun _ _ _ => rfl,
        @addBinary_emit _ .crc32 fun _ _ _ => rfl]
      rfl
    have h1' : Known p₄ (.instr p₂.dataSize) := (hcode.appends.range _ (by simp)).2
    have h2' : Known p₄ (.instr p₃.dataSize) := (hcode.appends.range _ (by simp)).2
    obtain ⟨r1, r2, q, refs, hrun, hcache, hr1, hr2, hdoes⟩ := @ih (ctx.withProgram p₄) _ _
      hcode.appends.blockOpen
      (fun v hv => hcode.appends.known (hkeys v (List.mem_cons_of_mem sv hv))) h1' h2'
    refine ⟨r1, r2, q, _, hstep.trans hrun, hcache, hr1, hr2,
      (hcode.trans hdoes _ fun host e e' e'' hkept hkept' hhash hrest => ?_).congr
        fun _ => and_self_iff⟩
    rw [hrest, hhash.1, hhash.2, List.map_cons, Arch.hashPair]
    congr 1
    apply List.map_congr_left
    intro v hv
    exact hkept _ (hkeys v (List.mem_cons_of_mem sv hv))

/-- The cache of constants is not part of the code. -/
lemma Does.requested {G : Instr → Prop} {enc : Host → Prop} {refs : List Nat}
    {post : Host → ExecState Word (Memory 64) → ExecState Word (Memory 64) → Prop}
    (h : Does G enc post p q refs) (cache : List (Word × Nat)) (requests : List ConstRequest) :
    Does G enc post p { q with constIntCache := cache, constRequests := requests } refs where
  appends :=
    { point := h.appends.point
      offsets := h.appends.offsets
      size := h.appends.size
      kept := h.appends.kept
      currentFn := h.appends.currentFn
      currentBlk := h.appends.currentBlk
      block := h.appends.block
      sorted := h.appends.sorted
      range := h.appends.range
      records := h.appends.records }
  encodes := h.encodes
  exec := h.exec

/-- A constant that has not been requested before. -/
lemma constant_does (hp : BlockOpen p) {v : Word} {t : IRType}
    (hmiss : p.constIntCache.lookup (IRProgram.constKey v t) = none) :
    (p.addConstInt v t).1 = .instr p.dataSize ∧
    (p.addConstInt v t).2.constIntCache = (IRProgram.constKey v t, p.dataSize) :: p.constIntCache ∧
    Does (fun i => i.isLine = true) (fun _ => True)
      (fun _ _ e' => e'.regs (.instr p.dataSize) = v) p (p.addConstInt v t).2 [p.dataSize] := by
  rw [addConstInt_miss hmiss]
  have hdoes := (hp.result (G := fun i => i.isLine = true) (.constInt t v) rfl
    (fun x hx => (List.not_mem_nil hx).elim) (fun _ _ => v) fun _ _ => rfl).congr
    fun _ => ⟨fun _ => trivial, fun _ => rfl⟩
  exact ⟨rfl, rfl, (hdoes.requested _ _).mono fun _ _ _ _ h => h.1⟩

/-- How the two hashes are combined. -/
lemma combineHashes_does {r1 r2 : IRValueRef} (hp : BlockOpen ctx.program)
    (hr1 : Known ctx.program r1) (hr2 : Known ctx.program r2)
    (hmiss : ctx.program.constIntCache.lookup (IRProgram.constKey hashMultiplier .uint64) = none) :
    ∃ ref q refs, (do
      let rotated ← Gen.addRotateRight r2 32
      let hash ← Gen.addBinary .xor .uint64 r1 rotated
      let multiplier ← Gen.addConstInt hashMultiplier .uint64
      Gen.addBinary .mul .uint64 hash multiplier) ctx = .ok (ref, ctx.withProgram q) ∧
    Does (fun i => i.isLine = true) (fun _ => True) (fun host e e' =>
      e'.regs ref = (e.regs r1 ^^^ host.arch.rotateRight 32 (e.regs r2)) * hashMultiplier)
      ctx.program q refs := by
  let p := ctx.program
  let p₁ := (p.emit (.rotateRight r2 32)).2
  let p₂ := (p₁.emit (.binary .xor .uint64 r1 (.instr p.dataSize))).2
  have d₁ := hp.result (G := fun i => i.isLine = true) (.rotateRight r2 32) rfl
    (fun x hx => List.mem_singleton.mp hx ▸ hr2) (fun host e => host.arch.rotateRight 32 (e.regs r2))
    fun host e => rfl
  have hrotated : Known p₁ (.instr p.dataSize) := (d₁.appends.range _ List.mem_cons_self).2
  have d₂ := d₁.appends.blockOpen.result (G := fun i => i.isLine = true)
    (.binary .xor .uint64 r1 (.instr p.dataSize)) rfl
    (List.forall_mem_cons.mpr ⟨d₁.appends.known hr1, List.forall_mem_singleton.mpr hrotated⟩)
    (fun host e => e.regs r1 ^^^ e.regs (.instr p.dataSize)) fun host e => rfl
  have hhash : Known p₂ (.instr p₁.dataSize) := (d₂.appends.range _ List.mem_cons_self).2
  obtain ⟨href, -, d₃⟩ := @constant_does p₂ d₂.appends.blockOpen hashMultiplier .uint64 hmiss
  have hconst := (d₃.appends.range _ List.mem_cons_self).2
  have hrun : (p₂.addConstInt hashMultiplier .uint64).2.constIntValue (.instr p₁.dataSize) = none :=
    (d₃.appends.constIntValue hhash).trans (emit_runTime rfl)
  have d₄ := d₃.appends.blockOpen.result (G := fun i => i.isLine = true)
    (.binary .mul .uint64 (.instr p₁.dataSize) (.instr p₂.dataSize)) rfl
    (List.forall_mem_cons.mpr ⟨d₃.appends.known hhash, List.forall_mem_singleton.mpr hconst⟩)
    (fun host e => e.regs (.instr p₁.dataSize) * e.regs (.instr p₂.dataSize)) fun host e => rfl
  have d₁₂ := d₁.trans d₂ (fun host e e' => e'.regs (.instr p₁.dataSize) =
    e.regs r1 ^^^ host.arch.rotateRight 32 (e.regs r2)) fun host e e' e'' hkept _ hrot hxor => by
      rw [hxor.1, hkept r1 hr1, hrot.1]
  have d₁₃ := d₁₂.trans d₃ (fun host e e' => e'.regs (.instr p₁.dataSize) =
    e.regs r1 ^^^ host.arch.rotateRight 32 (e.regs r2) ∧ e'.regs (.instr p₂.dataSize) = hashMultiplier)
    fun host e e' e'' _ hkept hxor hmul => ⟨(hkept (.instr _) hhash).trans hxor, hmul⟩
  have d₁₄ := d₁₃.trans d₄ (fun host e e' => e'.regs (.instr
    (p₂.addConstInt hashMultiplier .uint64).2.dataSize) =
    (e.regs r1 ^^^ host.arch.rotateRight 32 (e.regs r2)) * hashMultiplier)
    fun host e e' e'' _ _ hboth hmul => by rw [hmul.1, hboth.1, hboth.2]
  have hgen : (do
      let rotated ← Gen.addRotateRight r2 32
      let hash ← Gen.addBinary .xor .uint64 r1 rotated
      let multiplier ← Gen.addConstInt hashMultiplier .uint64
      Gen.addBinary .mul .uint64 hash multiplier) ctx =
      .ok (.instr (p₂.addConstInt hashMultiplier .uint64).2.dataSize, ctx.withProgram
        ((p₂.addConstInt hashMultiplier .uint64).2.emit
          (.binary .mul .uint64 (.instr p₁.dataSize) (.instr p₂.dataSize))).2) := by
    rw [run_bind_of_ok (run_addRotateRight _ _), run_bind_of_ok (run_addBinary' _ _ _ _)]
    have hxor : (ctx.withProgram (p.addRotateRight r2 32).2).program.addBinary .xor .uint64 r1
        (p.addRotateRight r2 32).1 = p₁.emit (.binary .xor .uint64 r1 (.instr p.dataSize)) :=
      addBinary_runTime (.inr (emit_runTime rfl))
    rw [hxor, run_bind_of_ok (run_addConstInt _ _), run_addBinary']
    simp only [program_withProgram]
    change Except.ok (((p₂.addConstInt hashMultiplier .uint64).2.addBinary .mul .uint64
      (.instr p₁.dataSize) (p₂.addConstInt hashMultiplier .uint64).1).1, ctx.withProgram
      ((p₂.addConstInt hashMultiplier .uint64).2.addBinary .mul .uint64
      (.instr p₁.dataSize) (p₂.addConstInt hashMultiplier .uint64).1).2) = _
    rw [href, addBinary_runTime (.inl hrun)]
    rfl
  refine ⟨_, _, _, hgen, d₁₄.congr fun host => ⟨fun _ => trivial, fun _ => ⟨⟨⟨?_, rfl⟩, trivial⟩, rfl⟩⟩⟩
  cases host <;> rfl

/-- In a program without constants, the code of `hashValues` hashes the keys. -/
lemma hashValues_does {keys : List SQLValue} (hp : BlockOpen ctx.program)
    (hcache : ctx.program.constIntCache = [])
    (hkeys : ∀ v ∈ keys, Known ctx.program v.valueRef) : ∃ ref q refs,
    hashValues keys ctx = .ok (ref, ctx.withProgram q) ∧
    Does (fun i => i.isLine = true) (fun _ => True) (fun host e e' =>
      e'.regs ref = host.arch.hashWords (keys.map fun v => e.regs v.valueRef))
      ctx.program q refs := by
  let hashes := fun (host : Host) (e : ExecState Word (Memory 64)) =>
    host.arch.hashPair (keys.map fun v => e.regs v.valueRef) (hashSeed1, hashSeed2)
  -- the seeds
  obtain ⟨href₁, hcache₁, d₁⟩ := @constant_does ctx.program hp hashSeed1 .uint64 (by rw [hcache]; rfl)
  obtain ⟨href₂, hcache₂, d₂⟩ := @constant_does _ d₁.appends.blockOpen hashSeed2 .uint64
    (by rw [hcache₁, hcache]; rfl)
  have hc₁ := (d₁.appends.range _ List.mem_cons_self).2
  have hc₂ := (d₂.appends.range _ List.mem_cons_self).2
  have d₁₂ := d₁.trans d₂ (fun _ _ e' => e'.regs (.instr ctx.program.dataSize) = hashSeed1 ∧
    e'.regs (.instr (ctx.program.addConstInt hashSeed1 .uint64).2.dataSize) = hashSeed2)
    fun _ _ _ _ _ hkept hone htwo => ⟨(hkept (.instr _) hc₁).trans hone, htwo⟩
  generalize hq₂ : ((ctx.program.addConstInt hashSeed1 .uint64).2.addConstInt hashSeed2 .uint64).2 = q₂
    at *
  -- the loop
  obtain ⟨r1, r2, q₃, refs₃, hloop, hcache₃, hr1, hr2, d₃⟩ := @hashLoop_does (ctx.withProgram q₂) keys
    (.instr ctx.program.dataSize) (.instr (ctx.program.addConstInt hashSeed1 .uint64).2.dataSize)
    d₂.appends.blockOpen (fun v hv => d₁₂.appends.known (hkeys v hv))
    (d₂.appends.known hc₁) hc₂
  have d₁₃ := d₁₂.trans d₃ (fun host e e' => (e'.regs r1, e'.regs r2) = hashes host e)
    fun host e e' e'' hkept _ hseeds hpair => by
      rw [hpair, hseeds.1, hseeds.2]
      exact congrArg (host.arch.hashPair · _) (List.map_congr_left fun v hv => hkept _ (hkeys v hv))
  -- the result
  obtain ⟨ref, q, refs₄, hcombine, d₄⟩ := @combineHashes_does (ctx.withProgram q₃) r1 r2
    d₃.appends.blockOpen hr1 hr2 (by
      rw [program_withProgram, hcache₃, program_withProgram, hcache₂, hcache₁, hcache]
      rfl)
  have d₁₄ := d₁₃.trans d₄ (fun host e e' =>
    e'.regs ref = host.arch.hashWords (keys.map fun v => e.regs v.valueRef))
    fun host e e' e'' _ _ hpair hhash => by
      rw [hhash]
      unfold Arch.hashWords
      rw [show host.arch.hashPair (keys.map fun v => e.regs v.valueRef) (hashSeed1, hashSeed2) =
        (e'.regs r1, e'.regs r2) from hpair.symm]
  refine ⟨ref, q, _, ?_, d₁₄.congr fun _ => ⟨fun _ => trivial, fun _ => ⟨⟨⟨trivial, trivial⟩, trivial⟩, trivial⟩⟩⟩
  rw [hashValues, run_bind_of_ok (run_addConstInt _ _), run_bind_of_ok (run_addConstInt _ _)]
  simp only [program_withProgram, href₁, href₂, hq₂]
  exact (run_bind_of_ok hloop).trans hcombine

/-- At the beginning of a function no register has been given to an instruction. -/
lemma findPhis_regMap {P : IRProgram} {fn : IRFunction} (hi : P.instrAt r = some i)
    (hphi : i.isPhi = false) : (findPhis P fn).regMap (.instr r) = none := by
  cases hreg : (findPhis P fn).regMap (.instr r) with
  | none => rfl
  | some reg =>
    obtain ⟨r', i', hr, -, hi', hphi'⟩ := @phiRegs_eq_some (.instr r) P fn reg hreg
    cases hr
    rw [hi] at hi'
    cases hi'
    rw [hphi] at hphi'
    cases hphi'

lemma translatorSince_hashContext {G : Instr → Prop} {params : List (String × IRType)}
    {refs : List Nat} (h : Appends G (hashContext params).program q refs) :
    (hashContext params).program.translatorSince q = findPhis q q.currentFn := by
  rw [IRProgram.translatorSince, h.currentBlk]
  rfl

/-- The hash is the same on both hosts exactly if the CRC of the upper halves of the keys is 0. -/
lemma sameHash_iff (params : List (String × IRType)) {keys : List SQLValue}
    (hkeys : ∀ v ∈ keys, ∃ k, v.valueRef = .param 0 k) (s : HostState) :
    SameHash params keys s ↔
      Arch.upperCrc 0 (keys.map fun v => s.regs (.requested v.valueRef)) = 0 := by
  have hp : BlockOpen (hashContext params).program := ⟨⟨Nat.zero_lt_one, Nat.zero_lt_one⟩, by rintro _ ⟨⟩⟩
  have hknown : ∀ v ∈ keys, Known (hashContext params).program v.valueRef := by
    intro v hv
    obtain ⟨k, hk⟩ := hkeys v hv
    rw [hk]
    trivial
  obtain ⟨ref, q, refs, hgen, hdoes⟩ := hashValues_does hp rfl hknown
  have htranslator := translatorSince_hashContext hdoes.appends
  have hstart : (keys.map fun v => s.values ((hashContext params).program.translatorSince q) v.valueRef) =
      keys.map fun v => s.regs (.requested v.valueRef) := by
    apply List.map_congr_left
    intro v hv
    obtain ⟨k, hk⟩ := hkeys v hv
    rw [hk, htranslator]
    rfl
  have hrun : ∀ host : Host, ∃ s', host.run ((hashContext params).program.codeSince q) s = some s' ∧
      s'.values q.translatorNow ref =
        host.arch.hashWords (keys.map fun v => s.regs (.requested v.valueRef)) := by
    intro host
    obtain ⟨s', e', hs', hhash, hregs, -⟩ := (hdoes.run (fun _ h => h) (fun r hr i hi hc => by
      rw [htranslator]
      exact findPhis_regMap hi (by cases i <;> first | rfl | cases hc)) host s).1 trivial
    rw [hstart] at hhash
    exact ⟨s', hs', (hregs ref).trans hhash⟩
  obtain ⟨s₁, hs₁, hhash₁⟩ := hrun .x86
  obtain ⟨s₂, hs₂, hhash₂⟩ := hrun .arm64
  rw [← Arch.hashWords_eq_iff]
  constructor
  · rintro ⟨ref', ctx', s₁', s₂', hgen', hs₁', hs₂', hsame⟩
    rw [hgen] at hgen'
    cases hgen'
    rw [program_withProgram] at hs₁' hs₂' hsame
    rw [hs₁] at hs₁'
    cases hs₁'
    rw [hs₂] at hs₂'
    cases hs₂'
    rwa [hhash₁, hhash₂] at hsame
  · intro hsame
    exact ⟨ref, _, s₁, s₂, hgen, hs₁, hs₂, hhash₁.trans (hsame.trans hhash₂.symm)⟩

/-! ### Straight-line code -/

section

variable {P : IRProgram} {fn : IRFunction} {refs : List Nat} {e e' e₁ e₂ : ExecState Word (Memory 64)}

lemma zExt_eq_self {w : Word} : Arch.x86.zExt w = w ↔ w.toNat < 2 ^ 32 := by
  have hvalue : (Arch.x86.zExt w).toNat = w.toNat % 2 ^ 32 := by
    simp only [Arch.x86, BitVec.truncate_eq_setWidth, BitVec.toNat_setWidth]
    omega
  rw [← BitVec.toNat_inj, hvalue]
  omega

lemma execInstr_zExt (arch : Arch) (h : i.zExtOperand = some a) :
    execInstr arch.emitted r i e = some (e.setReg r (arch.zExt (e.regs a))) := by
  cases i with
  | binary op t a' b =>
    cases op <;> first | cases h; rfl | cases h
  | unary op t a' =>
    cases op <;> first | cases h; rfl | cases h
  | _ => cases h

lemma execInstr_hosts (hline : i.isLine = true) (h : i.zExtOperand = none) :
    execInstr Arch.arm64.emitted r i e = execInstr Arch.x86.emitted r i e := by
  cases i with
  | binary op t a' b => cases op <;> first | rfl | cases h
  | unary op t a' => cases op <;> first | rfl | cases h
  | call t f args => cases hline
  | _ => rfl

lemma execLine_cons {M : Machine Word (Memory 64)} (hi : P.instrAt r = some i) :
    P.execLine M (r :: refs) e = (execInstr M r i e).bind (P.execLine M refs) := by
  unfold IRProgram.execLine
  rw [List.foldlM_cons, hi]
  rfl

lemma zExtsFit_cons (hi : P.instrAt r = some i) : ZExtsFit P (r :: refs) e ↔
    (∀ a, i.zExtOperand = some a → (e.regs a).toNat < 2 ^ 32) ∧
    ∀ e', execInstr Arch.x86.emitted r i e = some e' → ZExtsFit P refs e' := by
  constructor
  · exact fun h => h i hi
  · intro h j hj
    rw [hi] at hj
    cases hj
    exact h

/-- A record that fits does the same on both hosts. -/
lemma execInstr_fits (hline : i.isLine = true)
    (h : ∀ a, i.zExtOperand = some a → (e.regs a).toNat < 2 ^ 32) :
    execInstr Arch.arm64.emitted r i e = execInstr Arch.x86.emitted r i e := by
  cases hz : i.zExtOperand with
  | none => exact execInstr_hosts hline hz
  | some a =>
    rw [execInstr_zExt .arm64 hz, execInstr_zExt .x86 hz, zExt_eq_self.mpr (h a hz)]
    rfl

lemma execLine_fits (hline : P.StraightLine refs) (h : ZExtsFit P refs e) :
    P.execLine Arch.arm64.emitted refs e = P.execLine Arch.x86.emitted refs e := by
  induction refs generalizing e with
  | nil => rfl
  | cons r rest ih =>
    obtain ⟨i, hi, hlinei⟩ := hline.records r List.mem_cons_self
    obtain ⟨hfits, hrest⟩ := (zExtsFit_cons hi).mp h
    rw [execLine_cons hi, execLine_cons hi, execInstr_fits hlinei hfits]
    cases he : execInstr Arch.x86.emitted r i e with
    | none => rfl
    | some e' => exact ih (straightLine_tail hline) (hrest e' he)

/-- The first record that does not fit has different values. -/
lemma execLine_differs (hline : P.StraightLine refs) (h : ¬ ZExtsFit P refs e)
    (h₁ : P.execLine Arch.x86.emitted refs e = some e₁)
    (h₂ : P.execLine Arch.arm64.emitted refs e = some e₂) :
    ∃ r ∈ refs, e₁.regs (.instr r) ≠ e₂.regs (.instr r) := by
  induction refs generalizing e with
  | nil => exact absurd trivial h
  | cons r rest ih =>
    obtain ⟨i, hi, hlinei⟩ := hline.records r List.mem_cons_self
    rw [execLine_cons hi] at h₁ h₂
    by_cases hfits : ∀ a, i.zExtOperand = some a → (e.regs a).toNat < 2 ^ 32
    · rw [execInstr_fits hlinei hfits] at h₂
      cases he : execInstr Arch.x86.emitted r i e with
      | none =>
        rw [he] at h₁
        cases h₁
      | some e' =>
        rw [he, Option.bind_some] at h₁ h₂
        have hrest : ¬ ZExtsFit P rest e' := by
          intro hrest
          apply h
          rw [zExtsFit_cons hi]
          refine ⟨hfits, fun e'' he'' => ?_⟩
          rw [he] at he''
          cases he''
          exact hrest
        obtain ⟨r', hr', hne⟩ := ih (straightLine_tail hline) hrest h₁ h₂
        exact ⟨r', List.mem_cons_of_mem r hr', hne⟩
    · obtain ⟨a, ha⟩ := not_forall.mp hfits
      obtain ⟨hz, hbig⟩ := Classical.not_imp.mp ha
      rw [execInstr_zExt .x86 hz, Option.bind_some] at h₁
      rw [execInstr_zExt .arm64 hz, Option.bind_some] at h₂
      -- the rest of the line does not write the register again
      have hlater : ∀ r' ∈ rest, IRValueRef.instr r ≠ .instr r' := by
        rintro r' hr' ⟨⟩
        exact absurd ((List.pairwise_cons.mp hline.sorted).1 r hr') (Nat.lt_irrefl r)
      refine ⟨r, List.mem_cons_self, ?_⟩
      rw [execLine_kept h₁ hlater, execLine_kept h₂ hlater]
      intro hsame
      have hvalues : Function.update e.regs (.instr r) (Arch.x86.zExt (e.regs a)) (.instr r) =
        Function.update e.regs (.instr r) (Arch.arm64.zExt (e.regs a)) (.instr r) := hsame
      rw [Function.update_self, Function.update_self] at hvalues
      exact hbig (zExt_eq_self.mp hvalues)

/-- The values are the same on both hosts exactly if arm64 has instructions for all records and
nothing that is extended with zeros has bits in its upper half. -/
lemma sameValues_iff (hfn : fn.IsLine P refs) (hline : P.StraightLine refs) (s : HostState) :
    SameValues P fn refs s ↔ Host.arm64.EncodesLine P refs ∧
      ZExtsFit P refs ⟨s.values (findPhis P fn), s.mem, []⟩ := by
  obtain ⟨name, returns, hblocks, hreturns⟩ := hfn
  have hblock : fn.instructionsAt 0 = [] ++ (refs ++ returns) := by
    rw [IRFunction.instructionsAt, hblocks]
    rfl
  have hbranch : ∀ r ∈ refs ++ returns, ∀ x b b', P.instrAt r ≠ some (.condBranch x b b') := by
    intro r hr x b b' hi
    rcases List.mem_append.mp hr with hr | hr
    · obtain ⟨i, hi', hlinei⟩ := hline.records r hr
      rw [hi] at hi'
      cases hi'
      cases hlinei
    · obtain ⟨y, hret⟩ := hreturns r hr
      rw [hi] at hret
      cases hret
  have hrun := fun host : Host => @run_line host s ⟨s.values (findPhis P fn), s.mem, []⟩ P fn
    (findPhis P fn) _ (canDeferComparison P fn) 0 refs hline
    (fun r _ i hi hc => findPhis_regMap hi (by cases i <;> first | rfl | cases hc))
    (fun r hr i _ _ => canDeferComparison_false hblock (List.mem_append_left _ hr) hbranch r)
    findPhis_tracks ⟨fun _ => rfl, rfl⟩
  obtain ⟨s₁, e₁, hs₁, he₁, hagrees₁⟩ := (hrun .x86).1 fun r hr i hi => by cases i <;> rfl
  by_cases henc : Host.arm64.EncodesLine P refs
  · obtain ⟨s₂, e₂, hs₂, he₂, hagrees₂⟩ := (hrun .arm64).1 henc
    constructor
    · rintro ⟨s₁', s₂', hs₁', hs₂', hsame⟩
      cases hs₁.symm.trans hs₁'
      cases hs₂.symm.trans hs₂'
      refine ⟨henc, ?_⟩
      by_contra hfits
      obtain ⟨r, hr, hne⟩ := execLine_differs hline hfits he₁ he₂
      rw [← hagrees₁.regs, ← hagrees₂.regs] at hne
      exact hne (hsame r hr)
    · rintro ⟨-, hfits⟩
      have heq := (execLine_fits hline hfits).symm.trans he₂
      cases he₁.symm.trans heq
      exact ⟨s₁, s₂, hs₁, hs₂, fun r _ => (hagrees₁.regs _).trans (hagrees₂.regs _).symm⟩
  · refine ⟨?_, fun h => absurd h.1 henc⟩
    rintro ⟨s₁', s₂', -, hs₂', -⟩
    cases ((hrun .arm64).2 henc).symm.trans hs₂'

/-- The two hosts compute the same exactly if no bits are lost by `movzx`: those of the keys of a
hash have the CRC 0, and nothing in straight-line code that is extended with zeros has any. Besides,
arm64 has instructions for all counts and offsets. -/
theorem twoHosts_agree_iff (params : List (String × IRType)) {keys : List SQLValue}
    (hkeys : ∀ v ∈ keys, ∃ k, v.valueRef = .param 0 k) {P : IRProgram} {fn : IRFunction}
    {refs : List Nat} (hfn : fn.IsLine P refs) (hline : P.StraightLine refs) (s : HostState) :
    (SameHash params keys s ↔
      Arch.upperCrc 0 (keys.map fun v => s.regs (.requested v.valueRef)) = 0) ∧
    (SameValues P fn refs s ↔ Host.arm64.EncodesLine P refs ∧
      ZExtsFit P refs ⟨s.values (findPhis P fn), s.mem, []⟩) :=
  ⟨sameHash_iff params hkeys s, sameValues_iff hfn hline s⟩

/-- Every register holds `w`. -/
def uniformState (w : Word) : HostState := ⟨fun _ => w, fun _ => 0, (0, 0)⟩

/-- `zext` of a parameter. -/
def extendProgram : IRProgram := { instrData := [(0, .unary .zExt .uint64 (.param 0 0))] }

def extendFunction : IRFunction := ⟨"f", .uint64, ["a"], [.int64], [⟨"entry", [0]⟩], [.param 0 0]⟩

theorem twoHosts_agree_iff_seven :
    SameHash [("a", .int64)] [⟨.param 0 0, .null, .integer⟩] (uniformState 7) ∧
    SameValues extendProgram extendFunction [0] (uniformState 7) := by
  have hkeys : ∀ v ∈ [(⟨.param 0 0, .null, .integer⟩ : SQLValue)], ∃ k, v.valueRef = .param 0 k :=
    fun v hv => ⟨0, by rw [List.mem_singleton.mp hv]⟩
  have hfn : extendFunction.IsLine extendProgram [0] :=
    ⟨"entry", [], rfl, fun r hr => (List.not_mem_nil hr).elim⟩
  have hline : extendProgram.StraightLine [0] := by
    refine ⟨fun r hr => ?_, List.pairwise_singleton _ _, fun r hr o ho => ?_⟩
    · rw [List.mem_singleton.mp hr]
      exact ⟨_, rfl, rfl⟩
    · rw [List.mem_singleton.mp hr] at ho
      cases List.mem_singleton.mp ho
  have hiff := twoHosts_agree_iff [("a", .int64)] hkeys hfn hline (uniformState 7)
  refine ⟨hiff.1.mpr (by decide +kernel), hiff.2.mpr ⟨fun r hr i hi => ?_, fun i hi => ?_⟩⟩
  · rw [List.mem_singleton.mp hr] at hi
    cases hi
    rfl
  · cases hi
    refine ⟨fun a ha => ?_, fun e' _ => trivial⟩
    cases ha
    decide

/-- The key -1 has another hash on arm64. -/
theorem twoHosts_disagree : ¬ ((∀ params keys, (∀ v ∈ keys, ∃ k, v.valueRef = .param 0 k) →
      ∀ s : HostState, SameHash params keys s) ∧
    ∀ P fn refs, IRFunction.IsLine P fn refs → P.StraightLine refs → ∀ s : HostState,
      SameValues P fn refs s) := by
  rintro ⟨hhash, -⟩
  have hkeys : ∀ v ∈ [(⟨.param 0 0, .null, .integer⟩ : SQLValue)], ∃ k, v.valueRef = .param 0 k :=
    fun v hv => ⟨0, by rw [List.mem_singleton.mp hv]⟩
  have hbad := (sameHash_iff [("a", .int64)] hkeys (uniformState (-1))).mp (hhash _ _ hkeys _)
  revert hbad
  decide +kernel

end

end

end Proofs

end TidyTuples
