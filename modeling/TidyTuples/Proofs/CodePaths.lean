import TidyTuples.Proofs.ControlFlow
import TidyTuples.Proofs.DeadCode

/-!
# The paths of generated code

Every block of generated code is reached along branches, and a block that does not end in a branch is
empty and stands before a block without PHIs.
-/

namespace TidyTuples

open IRProgram

namespace Proofs

section

variable {p q r : IRProgram} {a b c : Nat}

/-- The blocks that the last instruction of block `b` branches to. -/
def branchTargets (p : IRProgram) (b : Nat) : List Nat :=
  (((p.blockAt b).getLast?.bind p.instrAt).map Instr.successors).getD []

/-- Branches lead from `a` to a block. -/
inductive Leads (p : IRProgram) (a : Nat) : Nat → Prop
  | refl : Leads p a a
  | step {b c : Nat} : Leads p a b → c ∈ branchTargets p b → Leads p a c

/-- An empty block before one without PHIs. -/
structure FallsThrough (p : IRProgram) (b : Nat) : Prop where
  empty : p.blockAt b = []
  lt : b + 1 < p.blocks.length
  phiFree : PhiFree p (p.blockAt (b + 1))

/-- What a derivation adds is reached from where it starts, and its closed blocks end in a branch or
are empty. -/
structure Paths (p q : IRProgram) : Prop where
  ended : ∀ b, ClosedIn p q b → EndsInTerminator q (q.blockAt b) ∨ FallsThrough q b
  reached : ∀ b, InRegion p q b → Leads q p.currentBlkIdx b

/-! ### Branches -/

lemma Leads.trans (h : Leads p a b) (h' : Leads p b c) : Leads p a c := by
  induction h' with
  | refl => exact h
  | step _ hc ih => exact .step ih hc

lemma Leads.mono (h : Leads p a b) (hsub : ∀ b, ∀ c ∈ branchTargets p b, c ∈ branchTargets q b) :
    Leads q a b := by
  induction h with
  | refl => exact .refl
  | step _ hc ih => exact .step ih (hsub _ _ hc)

lemma branchTargets_append {xs : List Nat} {off : Nat} {i : Instr} (hb : q.blockAt b = xs ++ [off])
    (hi : q.instrAt off = some i) : branchTargets q b = i.successors := by
  unfold branchTargets
  rw [hb, List.getLast?_append, List.getLast?_singleton, Option.some_or, Option.bind_some, hi]
  rfl

/-- A block with targets ends in a terminator. -/
lemma exists_of_mem_branchTargets (h : c ∈ branchTargets q b) : ∃ off i,
    (q.blockAt b).getLast? = some off ∧ q.instrAt off = some i ∧ i.isTerminator = true := by
  unfold branchTargets at h
  cases hlast : (q.blockAt b).getLast? with
  | none =>
    rw [hlast] at h
    cases h
  | some off =>
    rw [hlast, Option.bind_some] at h
    cases hi : q.instrAt off with
    | none =>
      rw [hi] at h
      cases h
    | some i =>
      rw [hi] at h
      exact ⟨off, i, rfl, hi, by cases i <;> first | rfl | cases h⟩

lemma branchTargets_current (ho : Open q) : branchTargets q q.currentBlkIdx = [] := by
  rw [List.eq_nil_iff_forall_not_mem]
  intro c hc
  obtain ⟨off, i, hlast, hi, hterm⟩ := exists_of_mem_branchTargets hc
  rw [ho off (List.mem_of_getLast? hlast) i hi] at hterm
  cases hterm

lemma SameBlock.branchTargets (h : SameBlock q r b) : branchTargets r b = branchTargets q b := by
  unfold Proofs.branchTargets
  rw [h.offsets]
  cases hlast : (q.blockAt b).getLast? with
  | none => rfl
  | some off => rw [Option.bind_some, Option.bind_some, h.records off (List.mem_of_getLast? hlast)]

lemma SameBlock.endsInTerminator (h : SameBlock q r b) (hq : EndsInTerminator q (q.blockAt b)) :
    EndsInTerminator r (r.blockAt b) := by
  obtain ⟨init, last, i, hblk, hi, hterm, hinit⟩ := hq
  refine ⟨init, last, i, h.offsets.trans hblk, ?_, hterm, fun off hoff j hj => ?_⟩
  · rw [h.records last (hblk ▸ List.mem_append_right init (List.mem_singleton_self last)), hi]
  · rw [h.records off (hblk ▸ List.mem_append_left _ hoff)] at hj
    exact hinit off hoff j hj

/-- A block that an instruction was put behind which ends it. -/
lemma endsInTerminator_append {xs : List Nat} {off : Nat} {i : Instr}
    (hb : q.blockAt b = xs ++ [off]) (hi : q.instrAt off = some i) (hterm : i.isTerminator = true)
    (hxs : ∀ o ∈ xs, ∀ j, q.instrAt o = some j → j.isTerminator = false) :
    EndsInTerminator q (q.blockAt b) := ⟨xs, off, i, hb, hi, hterm, hxs⟩

/-! ### Straight-line code and sequences -/

lemma Paths.straight (hv : Valid p) (hlen : q.blocks.length = p.blocks.length)
    (hcur : q.currentBlkIdx = p.currentBlkIdx) : Paths p q := by
  have hb := hv.blkIdx
  constructor
  · rintro b ⟨hin | hin, hne⟩ <;> omega
  · rintro b (rfl | hin)
    · exact .refl
    · omega

/-- Growth leaves the branches of closed blocks. -/
lemma Local.branchTargets (hl : Local q r) (hv : Valid q) (ho : Open q) :
    ∀ b, ∀ c ∈ branchTargets q b, c ∈ branchTargets r b := by
  intro b c hc
  have hne : b ≠ q.currentBlkIdx := by
    rintro rfl
    rw [branchTargets_current ho] at hc
    cases hc
  have hlt : b < q.blocks.length := by
    by_contra hle
    unfold Proofs.branchTargets at hc
    rw [blockAt_of_length_le (Nat.le_of_not_lt hle)] at hc
    cases hc
  rw [(hl.sameBlock hv hlt hne).branchTargets]
  exact hc

theorem Paths.trans (h : Paths p q) (h' : Paths q r) (hv : Valid p) (hvq : Valid q)
    (hoq : Open q) (hl : Local p q) (hl' : Local q r) : Paths p r := by
  have hb := hv.blkIdx
  have hbq := hvq.blkIdx
  have hlen := hl.blocks
  have hlen' := hl'.blocks
  have hcur := hl.current
  have hcur' := hl'.current
  have hmono := hl'.branchTargets hvq hoq
  constructor
  · intro b hc
    by_cases hcq : ClosedIn p q b
    · have hb : b < q.blocks.length := by
        rcases hcq.1 with rfl | hin
        · omega
        · exact hin.2
      have hsame := hl'.sameBlock hvq hb hcq.2
      rcases h.ended b hcq with hend | ⟨hempty, hlt, hfree⟩
      · exact .inl (hsame.endsInTerminator hend)
      · exact .inr ⟨hsame.offsets.trans hempty, by omega, hl'.phiFree hlt hfree⟩
    · refine h'.ended b ?_
      simp only [ClosedIn, InRegion] at hc hcq ⊢
      omega
  · intro b hb
    by_cases hbq' : InRegion p q b
    · exact (h.reached b hbq').mono hmono
    · have hin : InRegion q r b := by
        simp only [InRegion] at hb hbq' ⊢
        omega
      have hmid : InRegion p q q.currentBlkIdx := by
        simp only [InRegion]
        omega
      exact ((h.reached _ hmid).mono hmono).trans (h'.reached b hin)

/-! ### Ifs and loops -/

/-- A block that keeps its offsets and its last record keeps its targets. -/
lemma branchTargets_congr (hat : r.blockAt b = q.blockAt b)
    (hlast : ∀ off, (q.blockAt b).getLast? = some off → r.instrAt off = q.instrAt off) :
    branchTargets r b = branchTargets q b := by
  unfold Proofs.branchTargets
  rw [hat]
  cases hoff : (q.blockAt b).getLast? with
  | none => rfl
  | some off => rw [Option.bind_some, Option.bind_some, hlast off hoff]

theorem paths_ifThen {cond : IRValueRef} (hv : Valid p) (ho : Open p)
    (h : Paths (p.openIf cond) q) (hl : Local (p.openIf cond) q) (hvq : Valid q) (hoq : Open q) :
    Paths p (q.closeIf (p.blocks.length + 2)) := by
  have hopen := openIf_spec hv cond
  have hb := hv.blkIdx
  have hlen := hopen.length
  have hlb := hl.blocks
  have hcl := closeIf_spec hvq hoq (m := p.blocks.length + 2) (by omega)
  have hcur := hl.current
  have hoc := hopen.current
  have hbq := hvq.blkIdx
  generalize q.closeIf (p.blocks.length + 2) = r at hcl
  generalize p.openIf cond = o at *
  have hrc := hcl.current
  have hrlen := hcl.length
  have hsame : ∀ b, b ≠ q.currentBlkIdx → SameBlock q r b := by
    intro b hne
    refine ⟨by rw [hcl.blockAt, if_neg hne], fun off hoff => ?_⟩
    rw [hcl.instrAt, if_neg (hvq.offset_lt hoff).ne]
  have hold : ∀ b, b < p.blocks.length + 3 → b ≠ p.blocks.length → SameBlock o r b := by
    intro b hlt hne
    have h₁ := hl.sameBlock hopen.valid (b := b) (by omega) (by omega)
    have h₂ := hsame b (by omega)
    exact ⟨h₂.offsets.trans h₁.offsets, fun off hoff =>
      (h₂.records off (h₁.offsets ▸ hoff)).trans (h₁.records off hoff)⟩
  have hempty : ∀ b, p.blocks.length < b → b < p.blocks.length + 3 → r.blockAt b = [] := by
    intro b hlt hlt'
    rw [(hold b hlt' (by omega)).offsets, hopen.blockAt, if_neg (by omega),
      blockAt_of_length_le (by omega)]
  have hentry : r.blockAt p.currentBlkIdx = p.blockAt p.currentBlkIdx ++ [p.dataSize] := by
    rw [(hold _ (by omega) (by omega)).offsets, hopen.blockAt, if_pos rfl]
  have hentryAt : ∀ off ∈ p.blockAt p.currentBlkIdx ++ [p.dataSize], r.instrAt off = o.instrAt off :=
    fun off hoff => (hold p.currentBlkIdx (by omega) (by omega)).records off
      (by rw [hopen.blockAt, if_pos rfl]; exact hoff)
  have hbranch : r.instrAt p.dataSize =
      some (.condBranch cond p.blocks.length (p.blocks.length + 1)) := by
    rw [hentryAt _ (by simp), hopen.instrAt, if_pos rfl]
  have hlast : r.blockAt q.currentBlkIdx = q.blockAt q.currentBlkIdx ++ [q.dataSize] := by
    rw [hcl.blockAt, if_pos rfl]
  have hjump : r.instrAt q.dataSize = some (.branch (p.blocks.length + 2)) := by
    rw [hcl.instrAt, if_pos rfl]
  have hmono : ∀ b, ∀ c ∈ branchTargets q b, c ∈ branchTargets r b := by
    intro b c hc
    have hne : b ≠ q.currentBlkIdx := by
      rintro rfl
      rw [branchTargets_current hoq] at hc
      cases hc
    rw [(hsame b hne).branchTargets]
    exact hc
  -- the branch into the body and around it, and the one behind the body
  have hinto : ∀ b, b = p.blocks.length ∨ b = p.blocks.length + 1 → Leads r p.currentBlkIdx b := by
    intro b hb
    refine .step .refl ?_
    rw [branchTargets_append hentry hbranch]
    simp only [Instr.successors, List.mem_cons, List.not_mem_nil, or_false]
    omega
  have hbody : ∀ b, InRegion o q b → Leads r p.currentBlkIdx b := fun b hb =>
    (hinto _ (.inl rfl)).trans (hoc ▸ (h.reached b hb).mono hmono)
  have hmerge : Leads r p.currentBlkIdx (p.blocks.length + 2) := by
    refine .step (hbody q.currentBlkIdx ?_) ?_
    · simp only [InRegion]
      omega
    · rw [branchTargets_append hlast hjump]
      exact List.mem_singleton_self _
  constructor
  · intro b hc
    have hcases : b = p.currentBlkIdx ∨ b = p.blocks.length + 1 ∨ b = q.currentBlkIdx ∨
        ClosedIn o q b := by
      simp only [ClosedIn, InRegion] at hc ⊢
      omega
    rcases hcases with rfl | rfl | rfl | hc'
    · refine .inl (endsInTerminator_append hentry hbranch rfl fun off hoff i hi => ?_)
      rw [hentryAt off (by simp [hoff]), hopen.instrAt, if_neg (hv.offset_lt hoff).ne] at hi
      exact ho off hoff i hi
    · refine .inr ⟨hempty _ (by omega) (by omega), by omega, ?_⟩
      rw [hempty _ (by omega) (by omega)]
      exact phiFree_nil _
    · refine .inl (endsInTerminator_append hlast hjump rfl fun off hoff i hi => ?_)
      rw [hcl.instrAt, if_neg (hvq.offset_lt hoff).ne] at hi
      exact hoq off hoff i hi
    · rcases h.ended b hc' with hend | ⟨hnil, hlt, hfree⟩
      · exact .inl ((hsame b hc'.2).endsInTerminator hend)
      · exact .inr ⟨(hsame b hc'.2).offsets.trans hnil, by omega, hcl.weak.phiFree hlt hfree⟩
  · intro b hin
    have hcases : b = p.currentBlkIdx ∨ b = p.blocks.length + 1 ∨ b = p.blocks.length + 2 ∨
        InRegion o q b := by
      simp only [InRegion] at hin ⊢
      omega
    rcases hcases with rfl | rfl | rfl | hin'
    · exact .refl
    · exact hinto _ (.inr rfl)
    · exact hmerge
    · exact hbody b hin'

theorem paths_loop {name : String} {zeroOff : Nat} {bound one : IRValueRef} (hv : Valid p)
    (ho : Open p) (h : Paths (p.openLoop name (.instr zeroOff) bound) q)
    (hl : Local (p.openLoop name (.instr zeroOff) bound) q) (hvq : Valid q) (hoq : Open q)
    (hclose : q.closeLoop p.blocks.length p.loopIndex one = some r) : Paths p r := by
  have hopen := openLoop_spec hv name (.instr zeroOff) bound
  have hphi := fun b => loopIndex_not_mem (b := b) hv hl
  have hb := hv.blkIdx
  have hlen := hopen.length
  have hlb := hl.blocks
  have hosize := hopen.size
  have hcl := loopBuilt_of_close hv hl hvq hclose
  have hcur := hcl.latch
  have hqsize := hcl.opened
  have hqlen := hcl.behind
  have hoc := hopen.current
  have hbq := hvq.blkIdx
  generalize p.openLoop name (.instr zeroOff) bound = o at *
  have hrc := hcl.current
  have hrlen := hcl.length
  have hidx : p.loopIndex = p.dataSize + 8 := rfl
  have hsame : ∀ b, b ≠ q.currentBlkIdx → b ≠ p.blocks.length → SameBlock q r b := by
    intro b hne hneB
    refine ⟨by rw [hcl.blockAt, if_neg hne], fun off hoff => ?_⟩
    exact hcl.old off (hvq.offset_lt hoff) fun heq => hphi b hneB (heq ▸ hoff)
  have hheader : r.blockAt p.blocks.length =
      [p.loopIndex, p.dataSize + 32] ++ [p.dataSize + 44] := hcl.headerAt
  have hrec : ∀ off < p.dataSize + 60, off ≠ p.loopIndex → ∀ i, o.instrAt off = some i →
      r.instrAt off = some i := by
    intro off hlt hne i hi
    rw [hcl.old off (by omega) hne, hl.allRecords off i hi]
  have hbranch := hrec _ (by omega) (by omega) _ hopen.entry
  have hmore := hrec _ (by omega) (by omega) _ hopen.hasMore
  have hout := hrec _ (by omega) (by omega) _ hopen.exit
  have hlast : r.blockAt q.currentBlkIdx =
      q.blockAt q.currentBlkIdx ++ [q.dataSize] ++ [q.dataSize + 12] := by
    rw [hcl.blockAt, if_pos rfl, List.append_assoc]
    rfl
  have hmono : ∀ b, ∀ c ∈ branchTargets q b, c ∈ branchTargets r b := by
    intro b c hc
    have hne : b ≠ q.currentBlkIdx := by
      rintro rfl
      rw [branchTargets_current hoq] at hc
      cases hc
    by_cases hneB : b = p.blocks.length
    · -- the PHI of the header has been patched, its branch has not
      have hat : r.blockAt b = q.blockAt b := by rw [hcl.blockAt, if_neg hne]
      rw [branchTargets_congr hat fun off hoff => ?_]
      · exact hc
      · rw [← hat, hneB, hheader, List.getLast?_append, List.getLast?_singleton, Option.some_or] at hoff
        cases hoff
        exact hcl.old _ (by omega) (by omega)
    · rw [(hsame b hne hneB).branchTargets]
      exact hc
  have hheaderReached : Leads r p.currentBlkIdx p.blocks.length := by
    refine .step .refl ?_
    rw [branchTargets_append hcl.entryAt hbranch]
    exact List.mem_singleton_self _
  have hinto : ∀ b, b = p.blocks.length + 1 ∨ b = p.blocks.length + 2 →
      Leads r p.currentBlkIdx b := by
    intro b hb
    refine .step hheaderReached ?_
    rw [branchTargets_append hheader hout]
    simp only [Instr.successors, List.mem_cons, List.not_mem_nil, or_false]
    omega
  constructor
  · intro b hc
    have hcases : b = p.currentBlkIdx ∨ b = p.blocks.length ∨ b = q.currentBlkIdx ∨
        ClosedIn o q b := by
      simp only [ClosedIn, InRegion] at hc ⊢
      omega
    rcases hcases with rfl | rfl | rfl | hc'
    · refine .inl (endsInTerminator_append hcl.entryAt hbranch rfl fun off hoff i hi => ?_)
      obtain ⟨j, hj⟩ := hv.blockOffsets _ off hoff
      have hlt := hv.instrAt_lt hj
      rw [hrec off (by omega) (by omega) j (by rw [hopen.old off hlt, hj])] at hi
      exact ho off hoff i (hj.trans hi)
    · refine .inl (endsInTerminator_append hheader hout rfl fun off hoff i hi => ?_)
      rcases List.mem_pair.mp hoff with rfl | rfl
      · rw [hcl.patched] at hi
        cases hi
        rfl
      · rw [hmore] at hi
        cases hi
        rfl
    · refine .inl (endsInTerminator_append hlast hcl.back rfl fun off hoff i hi => ?_)
      rcases List.mem_append.mp hoff with hoff | hoff
      · rw [hcl.old off (hvq.offset_lt hoff) fun heq => hphi _ (by omega) (heq ▸ hoff)] at hi
        exact hoq off hoff i hi
      · rw [List.mem_singleton.mp hoff, hcl.next] at hi
        cases hi
        rfl
    · have hneB : b ≠ p.blocks.length := by
        simp only [ClosedIn, InRegion] at hc'
        omega
      rcases h.ended b hc' with hend | ⟨hnil, hlt, hfree⟩
      · exact .inl ((hsame b hc'.2 hneB).endsInTerminator hend)
      · exact .inr ⟨(hsame b hc'.2 hneB).offsets.trans hnil, by omega, hcl.weak.phiFree hlt hfree⟩
  · intro b hin
    have hcases : b = p.currentBlkIdx ∨ b = p.blocks.length ∨ b = p.blocks.length + 2 ∨
        InRegion o q b := by
      simp only [InRegion] at hin ⊢
      omega
    rcases hcases with rfl | rfl | rfl | hin'
    · exact .refl
    · exact hheaderReached
    · exact hinto _ (.inr rfl)
    · exact (hinto _ (.inl rfl)).trans (hoc ▸ (h.reached b hin').mono hmono)

/-- The paths of a derivation. -/
theorem Emits.paths {strict : Prop} (h : Emits strict p q) (hv : Valid p) (ho : Open p) :
    Paths p q := by
  induction h with
  | refl p => exact .straight hv rfl rfl
  | trans e e' ih ih' =>
    obtain ⟨hl, hv', ho'⟩ := e.grows hv ho
    obtain ⟨hl', -, -⟩ := e'.grows hv' ho'
    exact (ih hv ho).trans (ih' hv' ho') hv hv' ho' hl hl'
  | const p v t =>
    exact .straight hv (addConstInt_length hv.fnIdx v t) (addConstInt_currentBlkIdx v t)
  | @plain p i => exact .straight hv (emit_length hv.fnIdx i) rfl
  | @ifThen p q cond _ _ e ih =>
    have hopen := openIf_spec hv cond
    obtain ⟨hl, hvq, hoq⟩ := e.grows hopen.valid hopen.isOpen
    exact paths_ifThen hv ho (ih hopen.valid hopen.isOpen) hl hvq hoq
  | @loop p q r name zeroOff bound one _ _ _ e hclose ih =>
    have hopen := openLoop_spec hv name (.instr zeroOff) bound
    obtain ⟨hl, hvq, hoq⟩ := e.grows hopen.valid hopen.isOpen
    exact paths_loop hv ho (ih hopen.valid hopen.isOpen) hl hvq hoq hclose

end

end Proofs

end TidyTuples
