import TidyTuples.Codegen.LoopStmt
import TidyTuples.Proofs.Builders

/-!
# The variables of a loop

A loop variable is its initial value in the first iteration and the next value of the iteration
before in every later one if its PHI has an entry for each of the two edges. The PHIs are made with
one entry and no builder call changes how many entries a PHI has.
-/

namespace TidyTuples

namespace LoopStmt

section

variable (loop : LoopStmt) (p : IRProgram) (backEdgeBlock : Nat)

/-- The registers in the `k`-th iteration. `regs k` are those with which control goes to the
header, the first time from the block before the loop. -/
def iteration {V : Type} (regs : Nat → IRValueRef → V) (k : Nat) : IRValueRef → V :=
  p.applyPhis (if k = 0 then loop.entryBlock else backEdgeBlock) (regs k)
    (p.phisOf (p.blockAt loop.headerBlock)) (regs k)

/-- Variable `i` starts as `initVal` and goes on as `nextVal`. -/
structure CarriesVar (i : Nat) (initVal nextVal : IRValueRef) : Prop where
  entries : ∃ phi t, loop.getVar i = some phi ∧
    p.getInstr phi = some (.phi t [(initVal, loop.entryBlock), (nextVal, backEdgeBlock)])
  first : ∀ {V : Type} (regs : Nat → IRValueRef → V), ∀ phi, loop.getVar i = some phi →
    loop.iteration p backEdgeBlock regs 0 phi = regs 0 initVal
  later : ∀ {V : Type} (regs : Nat → IRValueRef → V), ∀ phi, loop.getVar i = some phi →
    ∀ k, loop.iteration p backEdgeBlock regs (k + 1) phi = regs (k + 1) nextVal

/-- Every loop variable is carried. -/
def Carries (nextVals : List IRValueRef) : Prop :=
  ∀ i initVal nextVal, loop.initVals[i]? = some initVal → nextVals[i]? = some nextVal →
    loop.CarriesVar p backEdgeBlock i initVal nextVal

end

end LoopStmt

namespace Proofs

section

variable {p q : IRProgram}

/-- The reference is a PHI with one entry. -/
def OnePhi (p : IRProgram) (phi : IRValueRef) : Prop := ∃ offset t entry, phi = .instr offset ∧
  offset < p.dataSize ∧ p.instrAt offset = some (.phi t [entry])

lemma OnePhi.of_instrData {phi : IRValueRef} (h : OnePhi p phi) (hdata : q.instrData = p.instrData) :
    OnePhi q phi := by
  unfold OnePhi IRProgram.dataSize IRProgram.instrAt at *
  rwa [hdata]

lemma OnePhi.emit {phi : IRValueRef} (h : OnePhi p phi) (i : Instr) : OnePhi (p.emit i).2 phi := by
  obtain ⟨offset, t, entry, hphi, hlt, hi⟩ := h
  refine ⟨offset, t, entry, hphi, ?_, ?_⟩
  · rw [emit_dataSize]
    omega
  · rw [emit_instrAt, if_neg (Nat.ne_of_lt hlt), hi]

lemma OnePhi.addConstInt {phi : IRValueRef} (h : OnePhi p phi) (v : Word) (t : IRType) :
    OnePhi (p.addConstInt v t).2 phi := by
  cases hl : p.constIntCache.lookup (IRProgram.constKey v t) with
  | some offset =>
    rw [addConstInt_hit hl]
    exact h.of_instrData rfl
  | none =>
    rw [addConstInt_miss hl]
    exact (h.emit (.constInt t v)).of_instrData rfl

/-- A patch replaces the entry, if it is one of this PHI. -/
lemma OnePhi.patch {phi r : IRValueRef} {idx : Nat} {v : IRValueRef} {b : Nat} (h : OnePhi p phi)
    (hpatch : p.patchPhiEntry r idx v b = some q) : OnePhi q phi := by
  obtain ⟨offset, t, entry, hphi, hlt, hi⟩ := h
  obtain ⟨offset', ty, entries, -, hi', hidx, rfl⟩ := patchPhiEntry_cases hpatch
  have hsize := @patch_dataSize p offset' ty entries (entries.set idx (v, b)) hi' (List.length_set ..)
  by_cases heq : offset = offset'
  · subst heq
    rw [hi] at hi'
    obtain ⟨rfl, rfl⟩ : t = ty ∧ [entry] = entries := by simpa using hi'
    have hzero : idx = 0 := by
      rw [List.length_singleton] at hidx
      omega
    refine ⟨offset, t, (v, b), hphi, ?_, ?_⟩
    · rw [hsize]
      exact hlt
    · rw [patch_instrAt hi, if_pos rfl, hzero]
      rfl
  · refine ⟨offset, t, entry, hphi, ?_, ?_⟩
    · rw [hsize]
      exact hlt
    · rw [patch_instrAt hi', if_neg heq, hi]

lemma OnePhi.apply {phi : IRValueRef} (h : OnePhi p phi) {c : BuilderCall} (hc : c.apply p = some q) :
    OnePhi q phi := by
  rcases apply_cases hc with hkeep | ⟨i, ⟨rfl, -⟩, -, -⟩ | ⟨v, t, rfl, -⟩ |
    ⟨r, idx, v, b, -, hpatch⟩
  · exact h.of_instrData hkeep.instrData
  · exact h.emit i
  · exact h.addConstInt v t
  · exact h.patch hpatch

/-- The body of a loop can move the insertion point and open other loops. -/
lemma OnePhi.body {phi : IRValueRef} {calls : List BuilderCall} (h : OnePhi p phi)
    (hcalls : calls.foldlM BuilderCall.apply p = some q) : OnePhi q phi := by
  induction calls generalizing p with
  | nil =>
    cases hcalls
    exact h
  | cons c rest ih =>
    rw [List.foldlM_cons] at hcalls
    obtain ⟨p', hc, hrest⟩ := Option.bind_eq_some_iff.mp hcalls
    exact ih (h.apply hc) hrest

lemma addPhis_onePhi {varTy : IRType} {entryBlock : Nat} {initialVals phiRefs : List IRValueRef}
    (h : LoopStmt.addPhis varTy entryBlock initialVals p = some (phiRefs, q)) :
    phiRefs.length = initialVals.length ∧ (∀ phi ∈ phiRefs, OnePhi q phi) ∧
      ∀ phi, OnePhi p phi → OnePhi q phi := by
  induction initialVals generalizing p phiRefs with
  | nil =>
    cases h
    exact ⟨rfl, by simp, fun _ hphi => hphi⟩
  | cons initVal rest ih =>
    unfold LoopStmt.addPhis at h
    obtain ⟨t, -, h⟩ := Option.bind_eq_some_iff.mp h
    obtain ⟨⟨phiRefs', q'⟩, hrest, h⟩ := Option.bind_eq_some_iff.mp h
    cases h
    obtain ⟨hlen, hall, hkeep⟩ := ih hrest
    have hnew : OnePhi (p.addPhi t [(initVal, entryBlock)]).2 (p.addPhi t [(initVal, entryBlock)]).1 := by
      refine ⟨p.dataSize, t, (initVal, entryBlock), rfl, ?_, ?_⟩
      · exact Nat.lt_add_of_pos_right (Instr.byteSize_pos _)
      · exact emit_self _
    refine ⟨by rw [List.length_cons, List.length_cons, hlen], ?_, ?_⟩
    · intro phi hphi
      rcases List.mem_cons.mp hphi with rfl | hphi
      · exact hkeep _ hnew
      · exact hall phi hphi
    · intro phi hphi
      exact hkeep phi (hphi.emit _)

lemma init_onePhi {name : String} {cond : IRValueRef} {initialVals : List IRValueRef}
    {varTy : IRType} {loop : LoopStmt}
    (h : LoopStmt.init p name cond initialVals varTy = some (loop, q)) :
    loop.initVals = initialVals ∧ loop.phiRefs.length = initialVals.length ∧
      ∀ phi ∈ loop.phiRefs, OnePhi q phi := by
  unfold LoopStmt.init at h
  split_ifs at h
  obtain ⟨⟨phiRefs, q'⟩, hphis, h⟩ := Option.bind_eq_some_iff.mp h
  cases h
  obtain ⟨hlen, hall, -⟩ := addPhis_onePhi hphis
  refine ⟨rfl, hlen, ?_⟩
  intro phi hphi
  exact ((hall phi hphi).emit _).of_instrData rfl

lemma done_onePhi {loop loop' : LoopStmt} {cond : IRValueRef} {nextVals : List IRValueRef}
    (h : loop.done p cond nextVals = some (loop', q)) : loop'.initVals = loop.initVals ∧
      loop'.phiRefs = loop.phiRefs ∧ ∀ phi, OnePhi p phi → OnePhi q phi := by
  unfold LoopStmt.done at h
  split_ifs at h
  cases h
  exact ⟨rfl, rfl, fun phi hphi => (hphi.emit _).of_instrData rfl⟩

/-- The loop variables are carried exactly if there are none. -/
theorem loopStmt_carries_iff (p₀ p₁ p₂ p₃ : IRProgram) (name : String)
    (cond contCond : IRValueRef) (inits nexts : List IRValueRef) (varTy : IRType)
    (body : List BuilderCall) (loop loop' : LoopStmt) (hlen : nexts.length = inits.length)
    (hinit : LoopStmt.init p₀ name cond inits varTy = some (loop, p₁))
    (hbody : body.foldlM BuilderCall.apply p₁ = some p₂)
    (hdone : loop.done p₂ contCond nexts = some (loop', p₃)) :
    loop'.Carries p₃ p₂.currentBlkIdx nexts ↔ inits = [] := by
  obtain ⟨hinits, hphis, hone⟩ := init_onePhi hinit
  obtain ⟨hinits', hphis', hkeep⟩ := done_onePhi hdone
  constructor
  · intro hcarries
    cases inits with
    | nil => rfl
    | cons initVal inits =>
      cases nexts with
      | nil => cases hlen
      | cons nextVal nexts =>
        have hget : loop'.initVals[0]? = some initVal := by rw [hinits', hinits]; rfl
        obtain ⟨phi, t, hvar, hentries⟩ := (hcarries 0 initVal nextVal hget rfl).entries
        rw [LoopStmt.getVar, hphis'] at hvar
        obtain ⟨offset, t', entry, rfl, -, hi⟩ :=
          hkeep phi ((hone phi (List.mem_of_getElem? hvar)).body hbody)
        have hboth := hi.symm.trans hentries
        cases hboth
  · rintro rfl i initVal nextVal hget
    rw [hinits', hinits] at hget
    cases hget

/-- A function with one argument, which is the number of iterations. -/
def countdown : IRProgram := (IRProgram.beginFunction {} "f" .void [("n", .int64)]).2

theorem loopStmt_carries_iff_none : ∃ loop p₁ p₃ loop',
    LoopStmt.init countdown "loop" (.param 0 0) [] .int64 = some (loop, p₁) ∧
    loop.done p₁ (.param 0 0) [] = some (loop', p₃) ∧ loop'.Carries p₃ p₁.currentBlkIdx [] := by
  obtain ⟨⟨loop, p₁⟩, hinit⟩ := Option.isSome_iff_exists.mp
    (show (LoopStmt.init countdown "loop" (.param 0 0) [] .int64).isSome = true by decide)
  obtain ⟨⟨loop', p₃⟩, hdone⟩ := Option.isSome_iff_exists.mp (show
    ((LoopStmt.init countdown "loop" (.param 0 0) [] .int64).bind
      fun r => r.1.done r.2 (.param 0 0) []).isSome = true by decide)
  rw [hinit] at hdone
  exact ⟨loop, p₁, p₃, loop', hinit, hdone,
    (loopStmt_carries_iff countdown p₁ p₁ p₃ "loop" _ _ [] [] .int64 [] loop loop' rfl hinit rfl
      hdone).mpr rfl⟩

/-- A loop that counts down from its argument. The PHI has no entry for the back edge. -/
theorem loopStmt_loses_next : ¬ ∀ p₀ name cond contCond inits nexts varTy (body : List BuilderCall)
    loop p₁ p₂ p₃ loop', nexts.length = inits.length → LoopStmt.init p₀ name cond inits varTy = some (loop, p₁) →
    body.foldlM BuilderCall.apply p₁ = some p₂ →
    loop.done p₂ contCond nexts = some (loop', p₃) →
    loop'.Carries p₃ p₂.currentBlkIdx nexts := by
  intro h
  have hrun : ∃ loop p₁ p₂ p₃ loop',
      LoopStmt.init countdown "loop" (.param 0 0) [.param 0 0] .int64 = some (loop, p₁) ∧
      [.addConstInt 1 .int64, .addBinary .sub .int64 (.instr 8) (.instr 40)].foldlM
        BuilderCall.apply p₁ = some p₂ ∧
      loop.done p₂ (.instr 56) [.instr 56] = some (loop', p₃) ∧
      loop'.initVals[0]? = some (.param 0 0) ∧ loop'.getVar 0 = some (.instr 8) ∧
      p₃.getInstr (.instr 8) = some (.phi .int64 [(.param 0 0, 0)]) := by
    refine ⟨_, _, _, _, _, rfl, rfl, rfl, ?_⟩
    decide
  obtain ⟨loop, p₁, p₂, p₃, loop', hinit, hbody, hdone, hinits, hvar, hphi⟩ := hrun
  have hcarries := h _ _ _ _ [.param 0 0] [.instr 56] _ _ _ _ _ _ _ rfl hinit hbody hdone
  obtain ⟨phi, t, hvar', hentries⟩ := (hcarries 0 _ _ hinits rfl).entries
  rw [hvar] at hvar'
  cases hvar'
  have hboth := hphi.symm.trans hentries
  simp at hboth

end

end Proofs

end TidyTuples
