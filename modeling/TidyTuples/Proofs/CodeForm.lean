import TidyTuples.Proofs.ControlFlow
import TidyTuples.Proofs.Mirroring

/-!
# The form of generated code

Offsets grow within a block, operands are computed before they are used, and the back end has code
for every instruction that is emitted under boolean predicates.
-/

namespace TidyTuples

open IRProgram

namespace Proofs

/-- The back end has code for the instruction, and its operands are results. Those of a PHI are
results of instructions within a block. -/
structure Emittable (p : IRProgram) (i : Instr) : Prop where
  code : p.HasCode i
  uses : ∀ c, .instr c ∈ i.uses → ∃ j, p.instrAt c = some j ∧ j.definesReg = true ∧
    (i.isPhi = true → j.isPhi = false)

structure CodeForm (p : IRProgram) : Prop where
  records : ∀ off i, p.instrAt off = some i → p.HasCode i
  sorted : ∀ b, (p.blockAt b).Pairwise (· < ·)
  unique : ∀ b b' off, off ∈ p.blockAt b → off ∈ p.blockAt b' → b = b'
  uses : ∀ off i, p.instrAt off = some i → i.isPhi = false → ∀ c, .instr c ∈ i.uses → c < off
  operands : ∀ off ty entries, p.instrAt off = some (.phi ty entries) →
    ∀ c, .instr c ∈ entries.map Prod.fst →
      ∃ j, p.instrAt c = some j ∧ j.definesReg = true ∧ j.isPhi = false

section

variable {p q r : IRProgram} {i : Instr} {x : IRValueRef}

lemma isBooleanRef_mono (h : ∀ off i, p.instrAt off = some i → i.isPhi = false →
    q.instrAt off = some i) (hx : p.isBooleanRef x = true) : q.isBooleanRef x = true := by
  unfold IRProgram.isBooleanRef IRProgram.getInstr at hx ⊢
  cases x with
  | instr off =>
    dsimp only at hx ⊢
    cases hi : p.instrAt off with
    | none =>
      rw [hi] at hx
      cases hx
    | some i =>
      rw [hi] at hx
      have hphi : i.isPhi = false := by
        cases i <;> first | rfl | cases hx
      rw [h off i hi hphi]
      exact hx
  | null => cases hx
  | param f k => cases hx

lemma HasCode.mono (h : ∀ x, p.isBooleanRef x = true → q.isBooleanRef x = true)
    (hi : p.HasCode i) : q.HasCode i := by
  cases i with
  | binary op ty a b =>
    cases op with
    | lAnd | lOr => exact ⟨h a hi.1, h b hi.2⟩
    | lNot => exact h a hi
    | _ => exact hi
  | unary op ty a =>
    cases op with
    | lNot => exact h a hi
    | _ => exact hi
  | _ => exact hi

lemma isBooleanRef_of_isBoolRef (h : IsBoolRef p x) : p.isBooleanRef x = true := by
  obtain ⟨off, i, rfl, hi, hbool⟩ := h
  unfold IRProgram.isBooleanRef IRProgram.getInstr
  dsimp only
  rw [hi]
  exact hbool

lemma hasCode_of_lowerable (h : Lowerable p i) : p.HasCode i := by
  cases i with
  | binary op ty a b =>
    cases op with
    | lAnd | lOr => exact ⟨isBooleanRef_of_isBoolRef h.1, isBooleanRef_of_isBoolRef h.2⟩
    | add | sub | mul | xor | crc32 | zExt | cmpEq | cmpNe | cmpLt | cmpGt | cmpLe | cmpGe =>
      exact trivial
    | _ => exact h.elim
  | unary op ty a =>
    cases h
    exact trivial
  | constInt ty value => exact trivial
  | constBool value => exact trivial
  | rotateRight a shift => exact trivial
  | call ty callee args => exact trivial
  | _ => exact h.elim

/-- What has been computed can be an operand. -/
lemma Available.operand (h : Available p x) {c : Nat} (hc : x = .instr c) :
    ∃ j, p.instrAt c = some j ∧ j.definesReg = true := by
  obtain ⟨off, j, rfl, hj, hd⟩ := h
  cases hc
  exact ⟨j, hj, hd⟩

/-! ### Single steps -/

/-- Names of blocks, the insertion point and the cache do not matter. -/
lemma CodeForm.congr (h : CodeForm p) (hat : ∀ b, q.blockAt b = p.blockAt b)
    (hi : ∀ off, q.instrAt off = p.instrAt off) : CodeForm q := by
  have hbool : ∀ x, p.isBooleanRef x = true → q.isBooleanRef x = true := fun x =>
    isBooleanRef_mono fun off i hoff _ => (hi off).trans hoff
  constructor
  · intro off i hoff
    exact HasCode.mono hbool (h.records off i ((hi off).symm.trans hoff))
  · intro b
    rw [hat]
    exact h.sorted b
  · intro b b' off hb hb'
    rw [hat] at hb hb'
    exact h.unique b b' off hb hb'
  · intro off i hoff
    exact h.uses off i ((hi off).symm.trans hoff)
  · intro off ty entries hoff c hc
    rw [hi] at hoff ⊢
    exact h.operands off ty entries hoff c hc

lemma CodeForm.emit (h : CodeForm p) (hv : Valid p) (hi : Emittable p i) :
    CodeForm (p.emit i).2 := by
  have happ := emit_appended hv i
  have hold : ∀ off j, p.instrAt off = some j → (p.emit i).2.instrAt off = some j :=
    fun off j hj => emit_instrAt_of_some hv i hj
  generalize (p.emit i).2 = q at happ hold ⊢
  have hbool : ∀ x, p.isBooleanRef x = true → q.isBooleanRef x = true := fun x =>
    isBooleanRef_mono fun off j hj _ => hold off j hj
  constructor
  · intro off j hj
    rw [happ.instrAt] at hj
    split_ifs at hj
    · cases hj
      exact HasCode.mono hbool hi.code
    · exact HasCode.mono hbool (h.records off j hj)
  · intro b
    rw [happ.blockAt]
    split_ifs
    · rw [List.pairwise_append]
      refine ⟨h.sorted b, List.pairwise_singleton _ _, fun off hoff off' hoff' => ?_⟩
      rw [List.mem_singleton.mp hoff']
      exact hv.offset_lt hoff
    · exact h.sorted b
  · -- only the new offset is in two lists that were apart
    have hcases : ∀ b off, off ∈ q.blockAt b →
        off ∈ p.blockAt b ∨ (b = p.currentBlkIdx ∧ off = p.dataSize) := by
      intro b off hoff
      rw [happ.blockAt] at hoff
      split_ifs at hoff with hb
      · rcases List.mem_append.mp hoff with hoff | hoff
        · exact .inl hoff
        · exact .inr ⟨hb, List.mem_singleton.mp hoff⟩
      · exact .inl hoff
    intro b b' off hb hb'
    rcases hcases b off hb with hb | ⟨rfl, hoff⟩
    · rcases hcases b' off hb' with hb' | ⟨-, rfl⟩
      · exact h.unique b b' off hb hb'
      · exact absurd (hv.offset_lt hb) (Nat.lt_irrefl _)
    · rcases hcases b' off hb' with hb' | ⟨rfl, -⟩
      · exact absurd (hoff ▸ hv.offset_lt hb') (Nat.lt_irrefl _)
      · rfl
  · intro off j hj hphi c hc
    rw [happ.instrAt] at hj
    split_ifs at hj with hoff
    · cases hj
      obtain ⟨k, hk, -⟩ := hi.uses c hc
      rw [hoff]
      exact hv.instrAt_lt hk
    · exact h.uses off j hj hphi c hc
  · intro off ty entries hj c hc
    rw [happ.instrAt] at hj
    split_ifs at hj
    · cases hj
      obtain ⟨k, hk, hd, hphi⟩ := hi.uses c hc
      exact ⟨k, hold c k hk, hd, hphi rfl⟩
    · obtain ⟨k, hk, hd⟩ := h.operands off ty entries hj c hc
      exact ⟨k, hold c k hk, hd⟩

lemma CodeForm.addConstInt (h : CodeForm p) (hv : Valid p) (v : Word) (t : IRType) :
    CodeForm (p.addConstInt v t).2 := by
  have hemit : CodeForm (p.emit (.constInt t v)).2 :=
    h.emit hv ⟨trivial, fun c hc => nomatch hc⟩
  simp only [IRProgram.addConstInt]
  split
  · exact h.congr (fun _ => rfl) fun _ => rfl
  · exact hemit.congr (fun _ => rfl) fun _ => rfl

/-- A PHI with other operands. -/
lemma CodeForm.patched (h : CodeForm p) {phi : Nat} {ty ty' : IRType}
    {entries entries' : List (IRValueRef × Nat)} (hp : Patched phi (.phi ty' entries') p q)
    (hphi : p.instrAt phi = some (.phi ty entries))
    (hentries : ∀ c, .instr c ∈ entries'.map Prod.fst →
      ∃ j, p.instrAt c = some j ∧ j.definesReg = true ∧ j.isPhi = false) : CodeForm q := by
  have hold : ∀ off j, p.instrAt off = some j → j.isPhi = false → q.instrAt off = some j := by
    intro off j hj hnot
    rw [hp.instrAt, if_neg, hj]
    rintro rfl
    rw [hphi] at hj
    cases hj
    cases hnot
  have hat : ∀ b, q.blockAt b = p.blockAt b := fun b => by
    rw [IRProgram.blockAt, hp.blocks, IRProgram.blockAt]
  have hbool : ∀ x, p.isBooleanRef x = true → q.isBooleanRef x = true := fun x =>
    isBooleanRef_mono hold
  constructor
  · intro off j hj
    rw [hp.instrAt] at hj
    split_ifs at hj
    · cases hj
      exact trivial
    · exact HasCode.mono hbool (h.records off j hj)
  · intro b
    rw [hat]
    exact h.sorted b
  · intro b b' off hb hb'
    rw [hat] at hb hb'
    exact h.unique b b' off hb hb'
  · intro off j hj hnot
    rw [hp.instrAt] at hj
    split_ifs at hj
    · cases hj
      cases hnot
    · exact h.uses off j hj hnot
  · intro off ty₁ entries₁ hj c hc
    rw [hp.instrAt] at hj
    split_ifs at hj
    · cases hj
      obtain ⟨k, hk, hd, hnot⟩ := hentries c hc
      exact ⟨k, hold c k hk hnot, hd, hnot⟩
    · obtain ⟨k, hk, hd, hnot⟩ := h.operands off ty₁ entries₁ hj c hc
      exact ⟨k, hold c k hk hnot, hd, hnot⟩

/-! ### Moves of a derivation -/

lemma CodeForm.newBlocks (h : CodeForm p) (hv : Valid p) (n₁ n₂ n₃ : String) :
    CodeForm (p.newBlocks n₁ n₂ n₃) :=
  have hnew := newBlocks_spec hv n₁ n₂ n₃
  h.congr hnew.blockAt hnew.instrAt

lemma emittable_branch (target : Nat) : Emittable p (.branch target) :=
  ⟨trivial, fun _ hc => nomatch hc⟩

lemma CodeForm.openIf (h : CodeForm p) (hv : Valid p) (hx : Available p x) :
    CodeForm (p.openIf x) := by
  have hnew := newBlocks_spec hv "if_true" "if_false" "if_merge"
  have h₃ := h.newBlocks hv "if_true" "if_false" "if_merge"
  unfold IRProgram.openIf
  generalize p.newBlocks "if_true" "if_false" "if_merge" = p₃ at hnew h₃ ⊢
  refine (h₃.emit hnew.valid (i := .condBranch x p.blocks.length (p.blocks.length + 1))
    ⟨trivial, fun c hc => ?_⟩).congr (fun _ => rfl) fun _ => rfl
  obtain ⟨j, hj, hd⟩ := hx.operand (List.mem_singleton.mp hc).symm
  exact ⟨j, (hnew.instrAt c).trans hj, hd, fun hphi => nomatch hphi⟩

lemma CodeForm.closeIf (h : CodeForm q) (hv : Valid q) (m : Nat) : CodeForm (q.closeIf m) := by
  unfold IRProgram.closeIf
  split_ifs
  · exact h.congr (fun _ => rfl) fun _ => rfl
  · exact (h.emit hv (emittable_branch m)).congr (fun _ => rfl) fun _ => rfl

/-- An instruction of which all operands have been computed. -/
lemma emittable_of_available (hcode : p.HasCode i) (hphi : i.isPhi = false)
    (huses : ∀ x ∈ i.uses, Available p x) : Emittable p i := by
  refine ⟨hcode, fun c hc => ?_⟩
  obtain ⟨j, hj, hd⟩ := (huses _ hc).operand rfl
  exact ⟨j, hj, hd, fun h => absurd (hphi.symm.trans h) Bool.false_ne_true⟩

lemma CodeForm.openHeader (h : CodeForm p) (hv : Valid p) (name : String) {zeroOff : Nat}
    (hz : p.constIntCache.lookup (constKey 0 .int64) = some zeroOff) :
    CodeForm (p.openHeader name (.instr zeroOff)) := by
  have hnew := newBlocks_spec hv (name ++ "_header") (name ++ "_body") (name ++ "_exit")
  have h₃ := h.newBlocks hv (name ++ "_header") (name ++ "_body") (name ++ "_exit")
  obtain ⟨t, value, hzero⟩ := hv.cache _ _ hz
  unfold IRProgram.openHeader
  generalize p.newBlocks (name ++ "_header") (name ++ "_body") (name ++ "_exit") = p₃ at hnew h₃ ⊢
  have hzero₃ : p₃.instrAt zeroOff = some (.constInt t value) := (hnew.instrAt zeroOff).trans hzero
  have h₄ := h₃.emit hnew.valid (emittable_branch p.blocks.length)
  have happ := emit_appended hnew.valid (.branch p.blocks.length)
  have hzero₄ := emit_instrAt_of_some hnew.valid (.branch p.blocks.length) hzero₃
  have hlen : p.blocks.length < (p₃.emit (.branch p.blocks.length)).2.blocks.length := by
    rw [happ.length, hnew.length]
    omega
  have h₅ : CodeForm ((p₃.emit (.branch p.blocks.length)).2.setInsertionPoint
      (p₃.emit (.branch p.blocks.length)).2.currentFnIdx p.blocks.length) :=
    h₄.congr (fun _ => rfl) fun _ => rfl
  refine h₅.emit (setBlock_valid happ.valid hlen) ⟨trivial, fun c hc => ?_⟩
  have hentries : c = zeroOff := by simpa [Instr.uses] using hc
  rw [hentries]
  exact ⟨_, hzero₄, rfl, fun _ => rfl⟩

lemma CodeForm.openLoop (h : CodeForm p) (hv : Valid p) (name : String) {zeroOff : Nat}
    {bound : IRValueRef} (hz : p.constIntCache.lookup (constKey 0 .int64) = some zeroOff)
    (hbound : Available p bound) : CodeForm (p.openLoop name (.instr zeroOff) bound) := by
  have h₆ := h.openHeader hv name hz
  have hopen := openHeader_spec hv name (.instr zeroOff)
  have hbound₆ := hbound.mono hopen.loc
  unfold IRProgram.openLoop
  generalize p.openHeader name (.instr zeroOff) = p₆ at h₆ hopen hbound₆ ⊢
  have hphi : p₆.instrAt p.loopIndex =
      some (.phi .int64 [(.instr zeroOff, p.currentBlkIdx), (.null, 0)]) := by
    rw [hopen.instrAt, if_pos rfl]
  simp only [addBinary_phi hphi, emit_ref]
  have h₇ := h₆.emit hopen.valid (i := .binary .cmpLt .bool (.instr p.loopIndex) bound)
    (emittable_of_available trivial rfl fun x hx => by
      rcases List.mem_pair.mp hx with rfl | rfl
      · exact ⟨_, _, rfl, hphi, rfl⟩
      · exact hbound₆)
  have hv₇ := emit_valid hopen.valid (.binary .cmpLt .bool (.instr p.loopIndex) bound)
  have hmore := emit_self (p := p₆) (.binary .cmpLt .bool (.instr p.loopIndex) bound)
  generalize (p₆.emit (.binary .cmpLt .bool (.instr p.loopIndex) bound)).2 = p₇ at h₇ hv₇ hmore ⊢
  refine (h₇.emit hv₇ (i := .condBranch (.instr p₆.dataSize) (p.blocks.length + 1)
    (p.blocks.length + 2)) (emittable_of_available trivial rfl fun x hx => ?_)).congr
      (fun _ => rfl) fun _ => rfl
  exact ⟨_, _, List.mem_singleton.mp hx, hmore, rfl⟩

lemma CodeForm.closeLoop (h : CodeForm q) (hv : Valid q) {header phi zeroOff entry : Nat}
    {one : IRValueRef} {t : IRType} {value : Word}
    (hphi : q.instrAt phi = some (.phi .int64 [(.instr zeroOff, entry), (.null, 0)]))
    (hzero : q.instrAt zeroOff = some (.constInt t value)) (hone : Available q one)
    (hclose : q.closeLoop header phi one = some r) : CodeForm r := by
  unfold IRProgram.closeLoop at hclose
  simp only [addBinary_phi hphi, emit_ref] at hclose
  have h₁ := h.emit hv (i := .binary .add .int64 (.instr phi) one)
    (emittable_of_available trivial rfl fun x hx => by
      rcases List.mem_pair.mp hx with rfl | rfl
      · exact ⟨_, _, rfl, hphi, rfl⟩
      · exact hone)
  have hv₁ := emit_valid hv (.binary .add .int64 (.instr phi) one)
  have hnext := emit_self (p := q) (.binary .add .int64 (.instr phi) one)
  have hphi₁ := emit_instrAt_of_some hv (.binary .add .int64 (.instr phi) one) hphi
  have hzero₁ := emit_instrAt_of_some hv (.binary .add .int64 (.instr phi) one) hzero
  generalize (q.emit (.binary .add .int64 (.instr phi) one)).2 = q₁ at h₁ hv₁ hnext hphi₁ hzero₁ hclose
  obtain ⟨q₂, hq₂, hpatched⟩ := patchPhiEntry_spec hv₁ hphi₁ (.instr q.dataSize) q₁.currentBlkIdx
  rw [hq₂] at hclose
  cases hclose
  have h₂ := h₁.patched hpatched hphi₁ fun c hc => by
    have hentries : c = zeroOff ∨ c = q.dataSize := by simpa using hc
    rcases hentries with rfl | rfl
    · exact ⟨_, hzero₁, rfl, rfl⟩
    · exact ⟨_, hnext, rfl, rfl⟩
  exact (h₂.emit hpatched.valid (emittable_branch header)).congr (fun _ => rfl) fun _ => rfl

/-- What a derivation emits under boolean predicates. -/
theorem Emits.codeForm {strict : Prop} (h : Emits strict p q) (hs : strict) (hv : Valid p)
    (ho : Open p) (hp : CodeForm p) : CodeForm q := by
  induction h with
  | refl p => exact hp
  | trans e e' ih ih' =>
    obtain ⟨-, hv', ho'⟩ := e.grows hv ho
    exact ih' hv' ho' (ih hv ho hp)
  | const p v t => exact hp.addConstInt hv v t
  | plain hphi hterm _ huses hlow =>
    exact hp.emit hv (emittable_of_available (hasCode_of_lowerable (hlow hs)) hphi huses)
  | @ifThen p q cond _ hcond e ih =>
    have hopen := openIf_spec hv cond
    obtain ⟨-, hvq, -⟩ := e.grows hopen.valid hopen.isOpen
    exact (ih hopen.valid hopen.isOpen (hp.openIf hv hcond)).closeIf hvq _
  | @loop p q r name zeroOff bound one hz hbound hone e hclose ih =>
    have hopen := openLoop_spec hv name (.instr zeroOff) bound
    obtain ⟨hl, hvq, -⟩ := e.grows hopen.valid hopen.isOpen
    obtain ⟨t, value, hzero⟩ := hv.cache _ _ hz
    have hlq := hopen.loc.trans hl
    exact (ih hopen.valid hopen.isOpen (hp.openLoop hv name hz hbound)).closeLoop hvq
      (hl.allRecords _ _ hopen.phi) (hlq.allRecords _ _ hzero) (hone.mono hlq) hclose

end

end Proofs

end TidyTuples
