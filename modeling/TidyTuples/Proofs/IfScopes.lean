import TidyTuples.Proofs.ScopeFrames

/-!
# Nested conditional scopes

`els()` closes the true branch and opens the false one. Without it the block of the false branch
stays empty: the back end falls through it into the merge block, and the walk of the dead code
elimination stops there.
-/

namespace TidyTuples

namespace Proofs

open IRProgram

section

variable {p q r : IRProgram}

/-! ### Both branches and the rest -/

/-- The block is as it was, and so is the terminator at its end. -/
structure KeepsBlock (p q : IRProgram) (b : Nat) : Prop where
  same : q.blockAt b = p.blockAt b
  last : ∀ i, lastInstr p b = some i → i.isTerminator = true → lastInstr q b = some i

lemma KeepsBlock.trans {b : Nat} (h : KeepsBlock p q b) (h' : KeepsBlock q r b) : KeepsBlock p r b :=
  ⟨h'.same.trans h.same, fun i hi hterm => h'.last i (h.last i hi hterm) hterm⟩

lemma Frame.keepsBlock {n c b : Nat} (h : Frame n c p q) (hb : b < n) (hne : b ≠ c) :
    KeepsBlock p q b :=
  ⟨h.others b hb hne, fun _ hi hterm => h.terminator hb hne hi hterm⟩

lemma FalseEdge.keeps {s : ClosedScope} (h : FalseEdge p s) (hk : KeepsBlock p q s.falseEnd) :
    FalseEdge q s := by
  rcases h with hbranch | ⟨v, hret⟩
  · exact .inl (hk.last _ hbranch rfl)
  · exact .inr ⟨v, hk.last _ hret rfl⟩

lemma FalseEdge.ended {s : ClosedScope} (h : FalseEdge p s) : Ended p s.falseEnd := by
  rcases h with hbranch | ⟨v, hret⟩
  · exact ⟨_, hbranch, rfl⟩
  · exact ⟨_, hret, rfl⟩

lemma Ended.keeps {b : Nat} (h : Ended p b) (hk : KeepsBlock p q b) : Ended q b := by
  obtain ⟨i, hi, hterm⟩ := h
  exact ⟨i, hk.last i hi hterm, hterm⟩

/-- The states behind the true branch, the false branch and the rest, and what each of the four
last moves leaves alone. -/
structure ElseRun (cond : IRValueRef) (p q₁ q₂ q : IRProgram) : Prop where
  length₁ : p.blocks.length + 3 ≤ q₁.blocks.length
  length₂ : q₁.blocks.length ≤ q₂.blocks.length
  length₃ : q₂.blocks.length ≤ q.blocks.length
  inside₁ : q₁.currentBlkIdx < q₁.blocks.length
  inside₂ : q₂.currentBlkIdx < q₂.blocks.length
  current₁ : q₁.currentBlkIdx = p.blocks.length ∨ p.blocks.length + 3 ≤ q₁.currentBlkIdx
  current₂ : q₂.currentBlkIdx = p.blocks.length + 1 ∨ q₁.blocks.length ≤ q₂.currentBlkIdx
  current₃ : q.currentBlkIdx = p.blocks.length + 2 ∨ q₂.blocks.length ≤ q.currentBlkIdx
  opened : lastInstr q₁ p.currentBlkIdx =
    some (.condBranch cond p.blocks.length (p.blocks.length + 1))
  elsLast : lastInstr (q₁.els (p.blocks.length + 2) (p.blocks.length + 1)) q₁.currentBlkIdx =
    some (.branch (p.blocks.length + 2))
  closeLast : FalseEdge (q₂.closeIf (p.blocks.length + 2)) ⟨q₂.currentBlkIdx, p.blocks.length + 2⟩
  body : Frame p.blocks.length p.currentBlkIdx p q₁
  els : Frame q₁.blocks.length q₁.currentBlkIdx q₁
    (q₁.els (p.blocks.length + 2) (p.blocks.length + 1))
  elseBody : Frame q₁.blocks.length (p.blocks.length + 1)
    (q₁.els (p.blocks.length + 2) (p.blocks.length + 1)) q₂
  close : Frame q₂.blocks.length q₂.currentBlkIdx q₂ (q₂.closeIf (p.blocks.length + 2))
  rest : Frame q₂.blocks.length (p.blocks.length + 2) (q₂.closeIf (p.blocks.length + 2)) q

lemma elseRun {cond : IRValueRef} {body elseBody rest : ScopedCode} {q₁ q₂ : IRProgram}
    {inner inner' after : List ClosedScope} (hv : Valid p) (ho : Open p)
    (hbody : body.run (p.openIf cond) = some (q₁, inner))
    (helse : elseBody.run (q₁.els (p.blocks.length + 2) (p.blocks.length + 1)) = some (q₂, inner'))
    (hrest : rest.run (q₂.closeIf (p.blocks.length + 2)) = some (q, after)) :
    ElseRun cond p q₁ q₂ q := by
  have hopen := openIf_spec hv cond
  have htrue := trueDone hv ho (run_spec hbody hopen.valid hopen.isOpen)
  obtain ⟨hjels, hels, -⟩ := htrue.els
  have hrunElse := run_spec helse hjels.valid hels
  have hdone := falseDone htrue hrunElse
  have hlen₁ := htrue.length
  have hcur₁ := htrue.current
  have hlen₂ := hdone.length
  have hcur₂ := hdone.current
  obtain ⟨hj, hro⟩ := close_spec hdone.valid hdone.ends (m := p.blocks.length + 2) (by omega)
    (by omega) hdone.mergeEmpty
  have hrunRest := run_spec hrest hj.valid hro
  have felse := hrunElse.frame
  have frest := hrunRest.frame
  have hcurElse := hrunElse.current
  have hcurRest := hrunRest.current
  rw [hjels.current, hjels.length] at felse hcurElse
  rw [hj.current, hj.length] at frest hcurRest
  exact
    { length₁ := hlen₁
      length₂ := by rw [← hjels.length]; exact felse.length
      length₃ := by rw [← hj.length]; exact frest.length
      inside₁ := htrue.valid.blkIdx
      inside₂ := hdone.valid.blkIdx
      current₁ := hcur₁
      current₂ := hcurElse
      current₃ := hcurRest
      opened := htrue.opened
      elsLast := els_last htrue.valid _ _
      closeLast := hj.last
      body := htrue.frame
      els := hjels.frame _ _ (.inl rfl)
      elseBody := felse
      close := hj.frame _ _ (.inl rfl)
      rest := frest }

section

variable {cond : IRValueRef} {q₁ q₂ : IRProgram} {b : Nat}

/-- What the destructor and the rest leave alone. -/
lemma ElseRun.behind₂ (h : ElseRun cond p q₁ q₂ q) (hb : b < q₂.blocks.length)
    (hne : b ≠ q₂.currentBlkIdx) (hm : b ≠ p.blocks.length + 2) : KeepsBlock q₂ q b :=
  (h.close.keepsBlock hb hne).trans (h.rest.keepsBlock hb hm)

/-- What the false branch, the destructor and the rest leave alone. -/
lemma ElseRun.behindEls (h : ElseRun cond p q₁ q₂ q) (hb : b < q₁.blocks.length)
    (hf : b ≠ p.blocks.length + 1) (hm : b ≠ p.blocks.length + 2) :
    KeepsBlock (q₁.els (p.blocks.length + 2) (p.blocks.length + 1)) q b := by
  have hlen := h.length₂
  have hcur := h.current₂
  exact (h.elseBody.keepsBlock hb hf).trans (h.behind₂ (by omega) (by omega) hm)

lemma ElseRun.behind₁ (h : ElseRun cond p q₁ q₂ q) (hb : b < q₁.blocks.length)
    (hne : b ≠ q₁.currentBlkIdx) (hf : b ≠ p.blocks.length + 1) (hm : b ≠ p.blocks.length + 2) :
    KeepsBlock q₁ q b :=
  (h.els.keepsBlock hb hne).trans (h.behindEls hb hf hm)

/-- The false branch is reached from the block that opened the scope. -/
lemma ElseRun.flowsTo_false (h : ElseRun cond p q₁ q₂ q) (hp : FlowsTo p p.currentBlkIdx) :
    FlowsTo (q₁.els (p.blocks.length + 2) (p.blocks.length + 1)) (p.blocks.length + 1) :=
  h.els.flowsTo ((h.body.flowsTo hp).step h.opened (by simp [Instr.successors]))

/-- The merge block is reached from the end of the true branch. -/
lemma ElseRun.flowsTo_merge (h : ElseRun cond p q₁ q₂ q) (hq : FlowsTo q₁ q₁.currentBlkIdx) :
    FlowsTo (q₂.closeIf (p.blocks.length + 2)) (p.blocks.length + 2) :=
  h.close.flowsTo (h.elseBody.flowsTo
    ((h.els.flowsTo hq).step h.elsLast (by simp [Instr.successors])))

lemma ElseRun.flowsTo_end (h : ElseRun cond p q₁ q₂ q) (hb : FlowsTo q₁ b) : FlowsTo q b :=
  h.rest.flowsTo (h.close.flowsTo (h.elseBody.flowsTo (h.els.flowsTo hb)))

end

/-! ### Scopes with `els()` -/

/-- What holds behind code in which every scope calls `els()`. -/
structure ElsSpec (p q : IRProgram) (ss : List ClosedScope) : Prop where
  ended : ∀ b, b = p.currentBlkIdx ∨ p.blocks.length ≤ b → b < q.blocks.length →
    b ≠ q.currentBlkIdx → Ended q b
  edges : ∀ s ∈ ss, FalseEdge q s
  inside : ∀ s ∈ ss, p.blocks.length ≤ s.falseEnd ∧ s.falseEnd < q.blocks.length ∧
    s.falseEnd ≠ q.currentBlkIdx
  reached : FlowsTo p p.currentBlkIdx →
    FlowsTo q q.currentBlkIdx ∧ ∀ s ∈ ss, FlowsTo q s.mergeBlock

section

variable {cond : IRValueRef} {q₁ q₂ : IRProgram} {inner inner' after : List ClosedScope}

/-- Every block of the scope and of what follows is closed. -/
lemma ElseRun.ended (h : ElseRun cond p q₁ q₂ q)
    (hbody : ∀ b, b = p.blocks.length ∨ p.blocks.length + 3 ≤ b → b < q₁.blocks.length →
      b ≠ q₁.currentBlkIdx → Ended q₁ b)
    (helse : ∀ b, b = p.blocks.length + 1 ∨ q₁.blocks.length ≤ b → b < q₂.blocks.length →
      b ≠ q₂.currentBlkIdx → Ended q₂ b)
    (hrest : ∀ b, b = p.blocks.length + 2 ∨ q₂.blocks.length ≤ b → b < q.blocks.length →
      b ≠ q.currentBlkIdx → Ended q b) {b : Nat}
    (hb : b = p.currentBlkIdx ∨ p.blocks.length ≤ b) (hbq : b < q.blocks.length)
    (hne : b ≠ q.currentBlkIdx) : Ended q b := by
  have hlen₁ := h.length₁
  have hlen₂ := h.length₂
  have hcur₁ := h.current₁
  have hcur₂ := h.current₂
  have hin₁ := h.inside₁
  by_cases hmerge : b = p.blocks.length + 2 ∨ q₂.blocks.length ≤ b
  · exact hrest b hmerge hbq hne
  by_cases hend₂ : b = q₂.currentBlkIdx
  · have hclosed : Ended (q₂.closeIf (p.blocks.length + 2)) q₂.currentBlkIdx := h.closeLast.ended
    rw [hend₂]
    exact hclosed.keeps (h.rest.keepsBlock (by omega) (by omega))
  by_cases hfalse : b = p.blocks.length + 1 ∨ q₁.blocks.length ≤ b
  · exact (helse b hfalse (by omega) hend₂).keeps (h.behind₂ (by omega) hend₂ (by omega))
  by_cases hend₁ : b = q₁.currentBlkIdx
  · rw [hend₁]
    exact Ended.keeps ⟨_, h.elsLast, rfl⟩ (h.behindEls hin₁ (by omega) (by omega))
  have hkeep := h.behind₁ (b := b) (by omega) hend₁ (by omega) (by omega)
  rcases hb with rfl | hb
  · exact Ended.keeps ⟨_, h.opened, rfl⟩ hkeep
  · exact (hbody b (by omega) (by omega) hend₁).keeps hkeep

/-- The two branches and the rest of a scope. -/
lemma ElseRun.elsSpec (h : ElseRun cond p q₁ q₂ q) (hv : Valid p)
    (hels : Jumped (p.blocks.length + 2) (p.blocks.length + 1) q₁
      (q₁.els (p.blocks.length + 2) (p.blocks.length + 1)))
    (hclose : Jumped (p.blocks.length + 2) (p.blocks.length + 2) q₂
      (q₂.closeIf (p.blocks.length + 2)))
    (hidle : Idle p) (hbody : ElsSpec (p.openIf cond) q₁ inner)
    (helse : ElsSpec (q₁.els (p.blocks.length + 2) (p.blocks.length + 1)) q₂ inner')
    (hrest : ElsSpec (q₂.closeIf (p.blocks.length + 2)) q after) :
    ElsSpec p q (inner ++ inner' ++ ⟨q₂.currentBlkIdx, p.blocks.length + 2⟩ :: after) := by
  have hopen := openIf_spec hv cond
  obtain ⟨bodyEnded, bodyEdges, bodyInside, bodyReached⟩ := hbody
  obtain ⟨elseEnded, elseEdges, elseInside, elseReached⟩ := helse
  obtain ⟨restEnded, restEdges, restInside, restReached⟩ := hrest
  rw [hopen.current, hopen.length] at bodyEnded
  rw [hopen.length] at bodyInside
  rw [hopen.current] at bodyReached
  rw [hels.current, hels.length] at elseEnded
  rw [hels.length] at elseInside
  rw [hels.current] at elseReached
  rw [hclose.current, hclose.length] at restEnded
  rw [hclose.length] at restInside
  rw [hclose.current] at restReached
  have hlen₁ := h.length₁
  have hlen₂ := h.length₂
  have hlen₃ := h.length₃
  have hin₂ := h.inside₂
  have hcur₂ := h.current₂
  have hcur₃ := h.current₃
  have hcases : ∀ s ∈ inner ++ inner' ++ ⟨q₂.currentBlkIdx, p.blocks.length + 2⟩ :: after,
      s ∈ inner ∨ s ∈ inner' ∨ s = ⟨q₂.currentBlkIdx, p.blocks.length + 2⟩ ∨ s ∈ after := by
    intro s hs
    rw [List.mem_append, List.mem_append, List.mem_cons, or_assoc] at hs
    exact hs
  constructor
  · exact fun b => h.ended bodyEnded elseEnded restEnded
  · intro s hs
    rcases hcases s hs with hs | hs | rfl | hs
    · obtain ⟨hge, hlt, hne⟩ := bodyInside s hs
      exact (bodyEdges s hs).keeps (h.behind₁ hlt hne (by omega) (by omega))
    · obtain ⟨hge, hlt, hne⟩ := elseInside s hs
      exact (elseEdges s hs).keeps (h.behind₂ hlt hne (by omega))
    · exact h.closeLast.keeps (h.rest.keepsBlock (by omega) (by dsimp only; omega))
    · exact restEdges s hs
  · intro s hs
    rcases hcases s hs with hs | hs | rfl | hs
    · obtain ⟨hge, hlt, hne⟩ := bodyInside s hs
      exact ⟨by omega, by omega, by omega⟩
    · obtain ⟨hge, hlt, hne⟩ := elseInside s hs
      exact ⟨by omega, by omega, by omega⟩
    · exact ⟨by dsimp only; omega, by dsimp only; omega, by dsimp only; omega⟩
    · obtain ⟨hge, hlt, hne⟩ := restInside s hs
      exact ⟨by omega, hlt, hne⟩
  · intro hreach
    have hp₁ : FlowsTo (p.openIf cond) p.currentBlkIdx := (openIf_frame hv hidle cond).flowsTo hreach
    obtain ⟨hq₁, hinner⟩ := bodyReached (hp₁.step (openIf_last hv cond) (by simp [Instr.successors]))
    obtain ⟨-, hinner'⟩ := elseReached (h.flowsTo_false hreach)
    have hmerge := h.flowsTo_merge hq₁
    obtain ⟨hq, hafter⟩ := restReached hmerge
    refine ⟨hq, fun s hs => ?_⟩
    rcases hcases s hs with hs | hs | rfl | hs
    · exact h.flowsTo_end (hinner s hs)
    · exact h.rest.flowsTo (h.close.flowsTo (hinner' s hs))
    · exact h.rest.flowsTo hmerge
    · exact hafter s hs

end

/-- The induction is on the code; scopes without `els()` do not occur. -/
theorem els_spec {code : ScopedCode} {ss : List ClosedScope} (h : code.run p = some (q, ss))
    (hv : Valid p) (ho : Open p) (hels : code.CallsEls) : ElsSpec p q ss := by
  induction code generalizing p q ss with
  | done =>
    cases h
    have hnone : ∀ s ∈ ([] : List ClosedScope), False := fun s hs => List.not_mem_nil hs
    refine ⟨fun b hb hlt hne => ?_, fun s hs => (hnone s hs).elim, fun s hs => (hnone s hs).elim,
      fun hreach => ⟨hreach, fun s hs => (hnone s hs).elim⟩⟩
    omega
  | ret v =>
    have hrun := run_spec h hv ho
    cases h
    have hlen : (p.addReturn v).2.blocks.length = p.blocks.length :=
      emit_length hv.fnIdx (.ret v)
    have hnone : ∀ s ∈ ([] : List ClosedScope), False := fun s hs => List.not_mem_nil hs
    refine ⟨fun b hb hlt hne => ?_, fun s hs => (hnone s hs).elim, fun s hs => (hnone s hs).elim,
      fun hreach => ⟨hrun.frame.flowsTo hreach, fun s hs => (hnone s hs).elim⟩⟩
    have hcur : (p.addReturn v).2.currentBlkIdx = p.currentBlkIdx := rfl
    omega
  | call c plain rest ih =>
    obtain ⟨q₁, hc, hrest⟩ := run_call h
    have hstep := plain_step hv ho plain hc
    obtain ⟨hended, hedges, hinside, hreached⟩ := ih hrest hstep.valid hstep.isOpen hels
    rw [hstep.current, hstep.length] at hended
    rw [hstep.length] at hinside
    rw [hstep.current] at hreached
    exact ⟨hended, hedges, hinside, fun hreach =>
      hreached ((hstep.frame 0 0 (.inr (Nat.zero_le _))).flowsTo hreach)⟩
  | ifStmt cond body rest _ _ => exact hels.elim
  | ifElse cond body elseBody rest ihb ihe ihr =>
    obtain ⟨q₁, inner, q₂, inner', after, hbody, helse, hrest, rfl⟩ := run_ifElse h
    obtain ⟨hb, he, hr⟩ := hels
    have hopen := openIf_spec hv cond
    have htrue := trueDone hv ho (run_spec hbody hopen.valid hopen.isOpen)
    obtain ⟨hjels, hels₁, -⟩ := htrue.els
    have hdone := falseDone htrue (run_spec helse hjels.valid hels₁)
    have hlen := hdone.length
    have hcur := hdone.current
    obtain ⟨hj, hro⟩ := close_spec hdone.valid hdone.ends (m := p.blocks.length + 2) (by omega)
      (by omega) hdone.mergeEmpty
    apply (elseRun hv ho hbody helse hrest).elsSpec hv hjels hj (idle_of_open ho)
    · exact ihb hbody hopen.valid hopen.isOpen hb
    · exact ihe helse hjels.valid hels₁ he
    · exact ihr hrest hj.valid hro hr

/-! ### Scopes without `els()` -/

/-- Control reaches an empty block in which no more code will be put. -/
def DeadEnd (p q : IRProgram) : Prop :=
  ∃ b, p.blocks.length ≤ b ∧ b < q.blocks.length ∧ b ≠ q.currentBlkIdx ∧ q.blockAt b = [] ∧
    FlowsTo q b

/-- A scope without `els()` leaves a dead end. -/
theorem deadEnd_of_not_els {code : ScopedCode} {ss : List ClosedScope}
    (h : code.run p = some (q, ss)) (hv : Valid p) (ho : Open p) (hels : ¬ code.CallsEls)
    (hreach : FlowsTo p p.currentBlkIdx) : DeadEnd p q := by
  induction code generalizing p q ss with
  | done => exact absurd trivial hels
  | ret v => exact absurd trivial hels
  | call c plain rest ih =>
    obtain ⟨q₁, hc, hrest⟩ := run_call h
    have hstep := plain_step hv ho plain hc
    have hreach₁ : FlowsTo q₁ q₁.currentBlkIdx := by
      rw [hstep.current]
      exact (hstep.frame 0 0 (.inr (Nat.zero_le _))).flowsTo hreach
    obtain ⟨b, hb, hdead⟩ := ih hrest hstep.valid hstep.isOpen hels hreach₁
    exact ⟨b, hstep.length ▸ hb, hdead⟩
  | ifStmt cond body rest _ _ =>
    -- the block of the false branch stays empty
    obtain ⟨q₁, inner, after, hbody, hrest, -⟩ := run_ifStmt h
    have hopen := openIf_spec hv cond
    have hdone := trueDone hv ho (run_spec hbody hopen.valid hopen.isOpen)
    have hlen := hdone.length
    have hcur := hdone.current
    obtain ⟨hj, hro⟩ := close_spec hdone.valid hdone.ends (m := p.blocks.length + 2) (by omega)
      (by omega) hdone.mergeEmpty
    have hrun := run_spec hrest hj.valid hro
    have hframe := hrun.frame
    have hcurRest := hrun.current
    rw [hj.current, hj.length] at hframe hcurRest
    have hlenRest := hframe.length
    rw [hj.length] at hlenRest
    refine ⟨p.blocks.length + 1, by omega, by omega, by omega, ?_, ?_⟩
    · rw [hframe.others _ (by omega) (by omega), hj.others _ (by omega)]
      exact hdone.falseEmpty
    · apply hframe.flowsTo
      apply (hj.frame 0 0 (.inr (Nat.zero_le _))).flowsTo
      exact (hdone.frame.flowsTo hreach).step hdone.opened (by simp [Instr.successors])
  | ifElse cond body elseBody rest ihb ihe ihr =>
    obtain ⟨q₁, inner, q₂, inner', after, hbody, helse, hrest, rfl⟩ := run_ifElse h
    have hopen := openIf_spec hv cond
    have htrue := trueDone hv ho (run_spec hbody hopen.valid hopen.isOpen)
    obtain ⟨hjels, hels₁, -⟩ := htrue.els
    have hdone := falseDone htrue (run_spec helse hjels.valid hels₁)
    have hrun := elseRun hv ho hbody helse hrest
    have hlen₁ := hrun.length₁
    have hlen₂ := hrun.length₂
    have hlen₃ := hrun.length₃
    have hcur := hdone.current
    have hcur₂ := hrun.current₂
    have hcur₃ := hrun.current₃
    obtain ⟨hj, hro⟩ := close_spec hdone.valid hdone.ends (m := p.blocks.length + 2) (by omega)
      (by omega) hdone.mergeEmpty
    have hp₁ : FlowsTo (p.openIf cond) (p.openIf cond).currentBlkIdx := by
      rw [hopen.current]
      exact ((openIf_frame hv (idle_of_open ho) cond).flowsTo hreach).step (openIf_last hv cond)
        (by simp [Instr.successors])
    by_cases hb : body.CallsEls
    · by_cases he : elseBody.CallsEls
      · -- the rest has the scope without `els()`; the merge block is reached from the true branch
        have hr : ¬ rest.CallsEls := fun hr => hels ⟨hb, he, hr⟩
        obtain ⟨hq₁, -⟩ := (els_spec hbody hopen.valid hopen.isOpen hb).reached hp₁
        have hq₂ : FlowsTo (q₂.closeIf (p.blocks.length + 2))
            (q₂.closeIf (p.blocks.length + 2)).currentBlkIdx := by
          rw [hj.current]
          exact hrun.flowsTo_merge hq₁
        obtain ⟨b, hb, hdead⟩ := ihr hrest hj.valid hro hr hq₂
        rw [hj.length] at hb
        exact ⟨b, by omega, hdead⟩
      · have hfalse : FlowsTo (q₁.els (p.blocks.length + 2) (p.blocks.length + 1))
            (q₁.els (p.blocks.length + 2) (p.blocks.length + 1)).currentBlkIdx := by
          rw [hjels.current]
          exact hrun.flowsTo_false hreach
        obtain ⟨b, hb, hlt, hne, hnil, hflow⟩ := ihe helse hjels.valid hels₁ he hfalse
        rw [hjels.length] at hb
        refine ⟨b, by omega, by omega, by omega, ?_, ?_⟩
        · rw [(hrun.behind₂ hlt hne (by omega)).same, hnil]
        · exact hrun.rest.flowsTo (hrun.close.flowsTo hflow)
    · obtain ⟨b, hb, hlt, hne, hnil, hflow⟩ := ihb hbody hopen.valid hopen.isOpen hb hp₁
      rw [hopen.length] at hb
      refine ⟨b, by omega, by omega, by omega, ?_, hrun.flowsTo_end hflow⟩
      rw [(hrun.behind₁ hlt hne (by omega) (by omega)).same, hnil]

/-! ### Whole functions -/

/-- Every request was answered with a constant. -/
lemma build_requests {calls : List BuilderCall} (h : BuilderCall.build calls = some p) :
    ∀ r ∈ p.constRequests, ∃ t v, p.instrAt r.offset = some (.constInt t v) := by
  have hall : CacheFaithful p ∧
      ∀ r ∈ p.constRequests, ∃ t v, p.instrAt r.offset = some (.constInt t v) := by
    apply @build_invariant p (fun p => CacheFaithful p ∧
      ∀ r ∈ p.constRequests, ∃ t v, p.instrAt r.offset = some (.constInt t v)) _ _ _ h
    · exact ⟨@build_cacheFaithful {} [] rfl, fun r hr => absurd hr List.not_mem_nil⟩
    · rintro p c q ⟨hp, hreq⟩ hq
      rcases apply_cases hq with hkeep | ⟨i, ⟨rfl, -⟩, -, -⟩ | ⟨v, t, rfl, -⟩ |
        ⟨r, idx, v, b, -, hpatch⟩
      · refine ⟨hp.of_keeps hkeep, ?_⟩
        rw [hkeep.requests]
        intro r hr
        rw [IRProgram.instrAt, hkeep.instrData]
        exact hreq r hr
      · refine ⟨hp.emit i, fun r hr => ?_⟩
        obtain ⟨t, v, hrec⟩ := hreq r hr
        exact ⟨t, v, emit_keepsRecord hp.offsets i hrec⟩
      · refine ⟨hp.addConstInt v t, ?_⟩
        cases hl : p.constIntCache.lookup (constKey v t) with
        | some off =>
          rw [addConstInt_hit hl]
          intro r hr
          rcases List.mem_cons.mp hr with rfl | hr
          · rw [hp.lookup] at hl
            obtain ⟨r₀, hr₀, rfl⟩ := Option.map_eq_some_iff.mp hl
            exact ⟨r₀.type, r₀.value, hp.record _ r₀ hr₀⟩
          · exact hreq r hr
        | none =>
          rw [addConstInt_miss hl]
          intro r hr
          rcases List.mem_cons.mp hr with rfl | hr
          · exact ⟨t, v, emit_self (.constInt t v)⟩
          · obtain ⟨t', v', hrec⟩ := hreq r hr
            exact ⟨t', v', emit_keepsRecord hp.offsets (.constInt t v) hrec⟩
      · refine ⟨hp.patch hpatch, fun r' hr' => ?_⟩
        obtain ⟨phi, ty, entries, -, hphi, -, rfl⟩ := patchPhiEntry_cases hpatch
        obtain ⟨t, v', hrec⟩ := hreq r' hr'
        refine ⟨t, v', ?_⟩
        rw [patch_instrAt hphi, if_neg ?_, hrec]
        intro heq
        rw [heq, hphi] at hrec
        cases hrec
  exact hall.2

/-- A function that was just begun. -/
lemma beginFunction_valid {calls : List BuilderCall} (h : BuilderCall.build calls = some p)
    (name : String) (t : IRType) (params : List (String × IRType)) :
    Valid (p.beginFunction name t params).2 := by
  have hcache := build_cacheFaithful h
  have hblocks : (p.beginFunction name t params).2.blocks = [⟨"entry", []⟩] := by
    simp [beginFunction, IRProgram.blocks]
  have hrequests := build_requests h
  refine ⟨hcache.offsets, by simp [beginFunction], ?_, fun b off hoff => ?_, fun key off hk => ?_,
    hrequests⟩
  · rw [hblocks]
    exact Nat.zero_lt_one
  · unfold IRProgram.blockAt at hoff
    rw [hblocks] at hoff
    cases b with
    | zero => cases hoff
    | succ b => cases hoff
  · have hlook : p.constIntCache.lookup key = some off := hk
    rw [hcache.lookup] at hlook
    obtain ⟨r, hr, rfl⟩ := Option.map_eq_some_iff.mp hlook
    exact ⟨r.type, r.value, hcache.record key r hr⟩

lemma flowOf_eq {fn : IRFunction} (hfn : p.functions[p.currentFnIdx]? = some fn) (b : Nat) :
    flowOf p b = p.blockSuccessors fn b := by
  unfold flowOf lastInstr IRProgram.blockAt IRProgram.blocks blockSuccessors
  rw [hfn]
  dsimp only
  cases fn.blocks[b]? with
  | none => rfl
  | some blk =>
    dsimp only
    cases blk.instructions.getLast? with
    | none => rfl
    | some ref => rfl

lemma flowsTo_iff {fn : IRFunction} (hfn : p.functions[p.currentFnIdx]? = some fn) {b : Nat} :
    FlowsTo p b ↔ Reachable p fn b := by
  constructor
  · intro h
    induction h with
    | refl => exact .entry
    | tail _ hc ih => exact .step ih (flowOf_eq hfn _ ▸ hc)
  · intro h
    induction h with
    | entry => exact .refl
    | step _ hc ih => exact ih.tail (flowOf_eq hfn _ ▸ hc)

end

/-- The blocks that control can reach are terminated, the false paths lead to the merge blocks by an
edge of their own, and the dead code elimination leaves what stands in the merge blocks, but for
instructions without a use. -/
structure TerminatedLive (code : ScopedCode) (q : IRProgram) (ss : List ClosedScope) : Prop where
  terminated : ∀ fn, q.functions[q.currentFnIdx]? = some fn → ∀ b < fn.blocks.length,
    Reachable q fn b → Ended q b ∨ code.FallsThrough ∧ b = q.currentBlkIdx
  edges : ∀ s ∈ ss, FalseEdge q s
  survives : ∀ s ∈ ss, ∀ off ∈ q.blockAt s.mergeBlock,
    q.keepInstr (usedInReachable q) off = true → off ∈ q.eliminateDeadCode.blockAt s.mergeBlock

/-- The code of a function leaves terminated and live blocks exactly if every scope calls `els()`. -/
theorem terminatedLive_iff (calls : List BuilderCall) (p : IRProgram)
    (h : BuilderCall.build calls = some p) (name : String) (t : IRType)
    (params : List (String × IRType)) (code : ScopedCode) (q : IRProgram) (ss : List ClosedScope)
    (hrun : code.run (p.beginFunction name t params).2 = some (q, ss)) :
    TerminatedLive code q ss ↔ code.CallsEls := by
  have hv := beginFunction_valid h name t params
  have hblocks : (p.beginFunction name t params).2.blocks = [⟨"entry", []⟩] := by
    simp [beginFunction, IRProgram.blocks]
  have hcur : (p.beginFunction name t params).2.currentBlkIdx = 0 := rfl
  have ho : Open (p.beginFunction name t params).2 := by
    apply open_of_nil
    rw [hcur, IRProgram.blockAt, hblocks]
    rfl
  have hentry : FlowsTo (p.beginFunction name t params).2
      (p.beginFunction name t params).2.currentBlkIdx := .refl
  have hspec := run_spec hrun hv ho
  have hlen : ∀ fn, q.functions[q.currentFnIdx]? = some fn →
      fn.blocks.length = q.blocks.length := by
    intro fn hfn
    rw [IRProgram.blocks, hfn]
  obtain ⟨fn, hfn⟩ : ∃ fn, q.functions[q.currentFnIdx]? = some fn :=
    ⟨_, List.getElem?_eq_getElem hspec.valid.fnIdx⟩
  constructor
  · intro hlive
    by_contra hels
    obtain ⟨b, -, hlt, hne, hnil, hflow⟩ := deadEnd_of_not_els hrun hv ho hels hentry
    have hlt' := hlt
    rw [← hlen fn hfn] at hlt'
    rcases hlive.terminated fn hfn b hlt' ((flowsTo_iff hfn).mp hflow) with hended | ⟨-, heq⟩
    · obtain ⟨i, hi, -⟩ := hended
      rw [lastInstr_nil hnil] at hi
      cases hi
    · exact hne heq
  · intro hels
    obtain ⟨hended, hedges, -, hreached⟩ := els_spec hrun hv ho hels
    refine ⟨fun fn' hfn' b hb _ => ?_, hedges, fun s hs off hoff hkeep => ?_⟩
    · by_cases hbcur : b = q.currentBlkIdx
      · rcases hspec.ends with ⟨hfalls, -⟩ | ⟨-, v, hret⟩
        · exact .inr ⟨hfalls, hbcur⟩
        · exact .inl (hbcur ▸ ⟨_, hret, rfl⟩)
      · rw [hlen fn' hfn'] at hb
        refine .inl (hended b ?_ hb hbcur)
        rw [hcur, hblocks, List.length_singleton]
        omega
    · have hreach := (flowsTo_iff hfn).mp ((hreached hentry).2 s hs)
      have hblocks' : q.blocks = fn.blocks := by rw [IRProgram.blocks, hfn]
      have helim : q.eliminateDeadCode.blocks = (eliminated q fn).blocks := by
        have hfn' : q.eliminateDeadCode.functions[q.eliminateDeadCode.currentFnIdx]? =
            some (eliminated q fn) := by
          rw [eliminateDeadCode_functions, List.getElem?_map]
          exact congrArg (Option.map (eliminated q)) hfn
        rw [IRProgram.blocks, hfn']
      unfold IRProgram.blockAt at hoff ⊢
      rw [hblocks'] at hoff
      rw [helim]
      cases hblk : fn.blocks[s.mergeBlock]? with
      | none =>
        rw [hblk] at hoff
        cases hoff
      | some blk =>
        rw [hblk] at hoff
        rw [eliminated_block hblk (mem_reachableBlocks hreach (List.getElem?_eq_some_iff.mp hblk).1)]
        exact List.mem_filter.mpr ⟨hoff, hkeep⟩

/-- `if (c) { return; } else { } call(); return;` -/
def earlyReturnElse : ScopedCode :=
  .ifElse (.param 0 0) (.ret .null) .done
    (.call (.addCall .void (.external 4096) []) trivial (.ret .null))

/-- `if (c) { return; } call(); return;` -/
def earlyReturn : ScopedCode :=
  .ifStmt (.param 0 0) (.ret .null)
    (.call (.addCall .void (.external 4096) []) trivial (.ret .null))

/-- The function of a condition that consists of the code. -/
def runFunction (code : ScopedCode) : Option (IRProgram × List ClosedScope) :=
  code.run (({} : IRProgram).beginFunction "f" .void [("c", .bool)]).2

theorem terminatedLive_iff_earlyReturnElse : ∃ q ss, runFunction earlyReturnElse = some (q, ss) ∧
    TerminatedLive earlyReturnElse q ss := by
  have hrun : runFunction earlyReturnElse =
      some ((runFunction earlyReturnElse).get (by decide)) := (Option.some_get _).symm
  exact ⟨_, _, hrun, (terminatedLive_iff [] {} rfl _ _ _ _ _ _ hrun).mpr ⟨trivial, trivial, trivial⟩⟩

/-- The call behind the early return is in a block that the walk does not reach. -/
theorem earlyReturn_dies : ¬ ∀ calls p, BuilderCall.build calls = some p → ∀ name t params code q ss,
    ScopedCode.run code (p.beginFunction name t params).2 = some (q, ss) →
    TerminatedLive code q ss := by
  intro hall
  have hrun : runFunction earlyReturn =
      some ((runFunction earlyReturn).get (by decide)) := (Option.some_get _).symm
  have hlive := hall [] {} rfl _ _ _ _ _ _ hrun
  have hbad : ∃ s ∈ ((runFunction earlyReturn).get (by decide)).2,
      ∃ off ∈ ((runFunction earlyReturn).get (by decide)).1.blockAt s.mergeBlock,
        ((runFunction earlyReturn).get (by decide)).1.keepInstr
          (usedInReachable ((runFunction earlyReturn).get (by decide)).1) off = true ∧
        off ∉ ((runFunction earlyReturn).get (by decide)).1.eliminateDeadCode.blockAt s.mergeBlock :=
    ⟨⟨2, 3⟩, by decide +kernel, 24, by decide +kernel, by decide +kernel, by decide +kernel⟩
  obtain ⟨s, hs, off, hoff, hkeep, hgone⟩ := hbad
  exact hgone (hlive.survives s hs off hoff hkeep)

end Proofs

end TidyTuples
