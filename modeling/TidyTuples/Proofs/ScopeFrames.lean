import TidyTuples.Proofs.DeadChains

/-!
# Code with conditional scopes

Code in a scope changes the current block and new ones; the blocks that the scope set aside stay
empty until `els()` or the destructor moves to them.
-/

namespace TidyTuples

/-- The call puts at most one instruction into the current block, and that does not end it. -/
def BuilderCall.IsPlain : BuilderCall → Prop
  | beginFunction _ _ _ | addBlock _ | setInsertionPoint _ _ => False
  | addBranch _ | addCondBranch _ _ _ | addReturn _ => False
  | _ => True

/-- `els()` -/
def IRProgram.els (mergeBlock falseBlock : Nat) (q : IRProgram) : IRProgram :=
  let q₁ := (q.addBranch mergeBlock).2
  q₁.setInsertionPoint q₁.currentFnIdx falseBlock

/-- Code with `IfStmt` scopes, each with or without `els()`. It may end in a `Return`. -/
inductive ScopedCode
  | done
  | ret (value : IRValueRef)
  | call (c : BuilderCall) (plain : c.IsPlain) (rest : ScopedCode)
  | ifStmt (cond : IRValueRef) (body rest : ScopedCode)
  | ifElse (cond : IRValueRef) (body elseBody rest : ScopedCode)

/-- A scope that is closed: the block in which its false path ends, and its merge block. -/
structure ClosedScope where
  falseEnd : Nat
  mergeBlock : Nat
deriving DecidableEq, Repr

namespace ScopedCode

/-- The program after the code, and the scopes that were closed. -/
def run : ScopedCode → IRProgram → Option (IRProgram × List ClosedScope)
  | done, p => some (p, [])
  | ret value, p => some ((p.addReturn value).2, [])
  | call c _ rest, p => do
    let q ← c.apply p
    rest.run q
  | ifStmt cond body rest, p => do
    let n := p.blocks.length
    let (q, inner) ← body.run (p.openIf cond)
    let (r, after) ← rest.run (q.closeIf (n + 2))
    return (r, inner ++ ⟨n + 1, n + 2⟩ :: after)
  | ifElse cond body elseBody rest, p => do
    let n := p.blocks.length
    let (q, inner) ← body.run (p.openIf cond)
    let (q', inner') ← elseBody.run (q.els (n + 2) (n + 1))
    let (r, after) ← rest.run (q'.closeIf (n + 2))
    return (r, inner ++ inner' ++ ⟨q'.currentBlkIdx, n + 2⟩ :: after)

/-- Control runs off the end of the code. -/
def FallsThrough : ScopedCode → Prop
  | done => True
  | ret _ => False
  | call _ _ rest => rest.FallsThrough
  | ifStmt _ _ rest => rest.FallsThrough
  | ifElse _ _ _ rest => rest.FallsThrough

/-- Every scope calls `els()`. -/
def CallsEls : ScopedCode → Prop
  | done => True
  | ret _ => True
  | call _ _ rest => rest.CallsEls
  | ifStmt _ _ _ => False
  | ifElse _ body elseBody rest => body.CallsEls ∧ elseBody.CallsEls ∧ rest.CallsEls

end ScopedCode

namespace Proofs

open IRProgram

/-- The last instruction of a block. -/
def lastInstr (p : IRProgram) (b : Nat) : Option Instr := (p.blockAt b).getLast?.bind p.instrAt

/-- The blocks to which the last instruction of a block leads on. -/
def flowOf (p : IRProgram) (b : Nat) : List Nat := ((lastInstr p b).map Instr.successors).getD []

/-- The block ends in a `Branch`, a `CondBranch` or a `Return`. -/
def Ended (p : IRProgram) (b : Nat) : Prop := ∃ i, lastInstr p b = some i ∧ i.isTerminator = true

/-- A path of branches leads to the block from the entry. -/
def FlowsTo (p : IRProgram) (b : Nat) : Prop :=
  Relation.ReflTransGen (fun x y => y ∈ flowOf p x) 0 b

/-- The false path of the scope branches to the merge block, or it returned. -/
def FalseEdge (q : IRProgram) (s : ClosedScope) : Prop :=
  lastInstr q s.falseEnd = some (.branch s.mergeBlock) ∨ ∃ v, lastInstr q s.falseEnd = some (.ret v)

lemma FlowsTo.step {p : IRProgram} {b c : Nat} {i : Instr} (h : FlowsTo p b)
    (hi : lastInstr p b = some i) (hc : c ∈ i.successors) : FlowsTo p c := by
  apply Relation.ReflTransGen.tail h
  rw [flowOf, hi]
  exact hc

/-- PHIs are patched, other records stay. -/
def SameFlow (i j : Instr) : Prop := j = i ∨ i.isPhi = true ∧ j.isPhi = true

lemma SameFlow.successors {i j : Instr} (h : SameFlow i j) : j.successors = i.successors := by
  rcases h with rfl | ⟨hi, hj⟩
  · rfl
  · cases i with
    | phi t entries =>
      cases j with
      | phi t' entries' => rfl
      | _ => cases hj
    | _ => cases hi

lemma SameFlow.eq_of_terminator {i j : Instr} (h : SameFlow i j) (hi : i.isTerminator = true) :
    j = i := by
  rcases h with rfl | ⟨hphi, -⟩
  · rfl
  · cases i with
    | phi t entries => cases hi
    | _ => cases hphi

section

variable {p q r : IRProgram}

/-! ### What a piece of code changes -/

/-- Of the first `n` blocks only block `c` changes, and no branch is lost. -/
structure Frame (n c : Nat) (p q : IRProgram) : Prop where
  fnIdx : q.currentFnIdx = p.currentFnIdx
  length : p.blocks.length ≤ q.blocks.length
  others : ∀ b < n, b ≠ c → q.blockAt b = p.blockAt b
  records : ∀ off i, p.instrAt off = some i → ∃ j, q.instrAt off = some j ∧ SameFlow i j
  flow : ∀ b x, x ∈ flowOf p b → x ∈ flowOf q b

lemma Frame.refl (n c : Nat) (p : IRProgram) : Frame n c p p :=
  ⟨rfl, Nat.le_refl _, fun _ _ _ => rfl, fun _ i h => ⟨i, h, .inl rfl⟩, fun _ _ h => h⟩

lemma Frame.trans {n c : Nat} (h : Frame n c p q) (h' : Frame n c q r) : Frame n c p r where
  fnIdx := h'.fnIdx.trans h.fnIdx
  length := h.length.trans h'.length
  others b hb hne := (h'.others b hb hne).trans (h.others b hb hne)
  records off i hi := by
    obtain ⟨j, hj, hij⟩ := h.records off i hi
    obtain ⟨k, hk, hjk⟩ := h'.records off j hj
    refine ⟨k, hk, ?_⟩
    rcases hjk with rfl | ⟨hj', hk'⟩
    · exact hij
    · rcases hij with rfl | ⟨hi', -⟩
      · exact .inr ⟨hj', hk'⟩
      · exact .inr ⟨hi', hk'⟩
  flow b x hx := h'.flow b x (h.flow b x hx)

lemma Frame.weaken {n c n' c' : Nat} (h : Frame n c p q) (hn : n' ≤ n) (hc : c = c' ∨ n' ≤ c) :
    Frame n' c' p q := by
  refine ⟨h.fnIdx, h.length, fun b hb hne => h.others b (by omega) ?_, h.records, h.flow⟩
  omega

lemma Frame.keepsLast {n c b : Nat} (h : Frame n c p q) (hb : b < n) (hne : b ≠ c) {i : Instr}
    (hi : lastInstr p b = some i) : ∃ j, lastInstr q b = some j ∧ SameFlow i j := by
  unfold lastInstr at hi ⊢
  rw [h.others b hb hne]
  obtain ⟨off, hoff, hrec⟩ := Option.bind_eq_some_iff.mp hi
  obtain ⟨j, hj, hij⟩ := h.records off i hrec
  exact ⟨j, Option.bind_eq_some_iff.mpr ⟨off, hoff, hj⟩, hij⟩

lemma Frame.terminator {n c b : Nat} (h : Frame n c p q) (hb : b < n) (hne : b ≠ c) {i : Instr}
    (hi : lastInstr p b = some i) (hterm : i.isTerminator = true) :
    lastInstr q b = some i := by
  obtain ⟨j, hj, hij⟩ := h.keepsLast hb hne hi
  rw [hj, hij.eq_of_terminator hterm]

lemma Frame.flowsTo {n c b : Nat} (h : Frame n c p q) (hb : FlowsTo p b) : FlowsTo q b :=
  Relation.ReflTransGen.mono (fun x y => h.flow x y) 0 b hb

/-- A change of the current block alone, which leads nowhere yet. -/
lemma Frame.of_current {n c : Nat} (hfn : q.currentFnIdx = p.currentFnIdx)
    (hlen : p.blocks.length ≤ q.blocks.length)
    (hothers : ∀ b, b ≠ p.currentBlkIdx → q.blockAt b = p.blockAt b)
    (hrecords : ∀ off i, p.instrAt off = some i → ∃ j, q.instrAt off = some j ∧ SameFlow i j)
    (hidle : flowOf p p.currentBlkIdx = []) (hc : p.currentBlkIdx = c ∨ n ≤ p.currentBlkIdx) :
    Frame n c p q := by
  refine ⟨hfn, hlen, fun b hb hne => hothers b (by omega), hrecords, fun b x hx => ?_⟩
  by_cases hb : b = p.currentBlkIdx
  · rw [hb, hidle] at hx
    cases hx
  · unfold flowOf at hx ⊢
    cases hi : lastInstr p b with
    | none =>
      rw [hi] at hx
      cases hx
    | some i =>
      rw [hi] at hx
      unfold lastInstr at hi ⊢
      rw [hothers b hb]
      obtain ⟨off, hoff, hrec⟩ := Option.bind_eq_some_iff.mp hi
      obtain ⟨j, hj, hij⟩ := hrecords off i hrec
      rw [hoff, Option.bind_some, hj, Option.map_some, Option.getD_some, hij.successors]
      exact hx

/-- No instruction that leads on from the current block. -/
def Idle (p : IRProgram) : Prop := flowOf p p.currentBlkIdx = []

lemma lastInstr_append {b off : Nat} {xs : List Nat} {i : Instr} (hb : p.blockAt b = xs ++ [off])
    (hi : p.instrAt off = some i) : lastInstr p b = some i := by
  rw [lastInstr, hb, List.getLast?_concat, Option.bind_some, hi]

lemma lastInstr_nil {b : Nat} (hb : p.blockAt b = []) : lastInstr p b = none := by
  rw [lastInstr, hb]
  rfl

lemma idle_of_ret {v : IRValueRef} (h : lastInstr p p.currentBlkIdx = some (.ret v)) : Idle p := by
  rw [Idle, flowOf, h]
  rfl

lemma not_ended_of_open (ho : Open p) : ¬ Ended p p.currentBlkIdx := by
  rintro ⟨i, hi, hterm⟩
  obtain ⟨off, hoff, hrec⟩ := Option.bind_eq_some_iff.mp hi
  rw [ho off (List.mem_of_getLast? hoff) i hrec] at hterm
  cases hterm

lemma idle_of_open (ho : Open p) : Idle p := by
  unfold Idle flowOf
  cases hi : lastInstr p p.currentBlkIdx with
  | none => rfl
  | some i =>
    have hterm : i.isTerminator = false := by
      by_contra hterm
      exact not_ended_of_open ho ⟨i, hi, by simpa using hterm⟩
    cases i with
    | branch t => cases hterm
    | condBranch cond t f => cases hterm
    | _ => rfl

lemma open_of_nil (h : p.blockAt p.currentBlkIdx = []) : Open p := by
  intro off hoff
  rw [h] at hoff
  cases hoff

lemma emit_sameFlow (hv : Valid p) (i : Instr) : ∀ off j, p.instrAt off = some j →
    ∃ k, (p.emit i).2.instrAt off = some k ∧ SameFlow j k :=
  fun _ j hj => ⟨j, emit_instrAt_of_some hv i hj, .inl rfl⟩

lemma emit_frame (hv : Valid p) (hidle : Idle p) (i : Instr) {n c : Nat}
    (hc : p.currentBlkIdx = c ∨ n ≤ p.currentBlkIdx) : Frame n c p (p.emit i).2 := by
  have hfn : (p.emit i).2.currentFnIdx = p.currentFnIdx := rfl
  apply Frame.of_current hfn _ _ (emit_sameFlow hv i) hidle hc
  · rw [emit_length hv.fnIdx]
  · intro b hb
    rw [emit_blockAt hv, if_neg hb]

/-- The insertion point may be moved. -/
lemma Frame.setBlock {n c : Nat} (h : Frame n c p q) (b : Nat) :
    Frame n c p (q.setInsertionPoint q.currentFnIdx b) :=
  ⟨h.fnIdx, h.length, h.others, h.records, h.flow⟩

/-! ### Plain calls -/

/-- A plain call leaves the insertion point where it is and the block open. -/
structure PlainStep (p q : IRProgram) : Prop where
  valid : Valid q
  isOpen : Open q
  current : q.currentBlkIdx = p.currentBlkIdx
  length : q.blocks.length = p.blocks.length
  frame : ∀ n c, p.currentBlkIdx = c ∨ n ≤ p.currentBlkIdx → Frame n c p q

lemma PlainStep.refl (hv : Valid p) (ho : Open p) : PlainStep p p :=
  ⟨hv, ho, rfl, rfl, fun n c _ => .refl n c p⟩

lemma emit_plainStep (hv : Valid p) (ho : Open p) {i : Instr} (hi : i.isTerminator = false) :
    PlainStep p (p.emit i).2 where
  valid := emit_valid hv i
  isOpen := emit_open hv ho hi
  current := rfl
  length := by rw [emit_length hv.fnIdx]
  frame _ _ hc := emit_frame hv (idle_of_open ho) i hc

lemma addConstInt_plainStep (hv : Valid p) (ho : Open p) (v : Word) (t : IRType) :
    PlainStep p (p.addConstInt v t).2 := by
  have hl := addConstInt_local hv v t
  have hlen := addConstInt_length hv.fnIdx v t
  have hothers : ∀ b, b ≠ p.currentBlkIdx → (p.addConstInt v t).2.blockAt b = p.blockAt b := by
    intro b hne
    by_cases hb : b < p.blocks.length
    · exact hl.others b hb hne
    · rw [blockAt_of_length_le (by omega), blockAt_of_length_le (by omega)]
  refine ⟨addConstInt_valid hv v t, addConstInt_open hv ho v t, addConstInt_currentBlkIdx v t, hlen,
    fun n c hc => ?_⟩
  exact Frame.of_current hl.fnIdx hl.blocks hothers
    (fun off i hi => ⟨i, hl.allRecords off i hi, .inl rfl⟩) (idle_of_open ho) hc

lemma patch_plainStep (hv : Valid p) (ho : Open p) {ref : IRValueRef} {idx : Nat} {v : IRValueRef}
    {b : Nat} (h : p.patchPhiEntry ref idx v b = some q) : PlainStep p q := by
  obtain ⟨phi, ty, entries, -, hphi, -, rfl⟩ := patchPhiEntry_cases h
  let entries' := entries.set idx (v, b)
  have hlen : entries'.length = entries.length := List.length_set ..
  have hinstr := fun off => @patch_instrAt p phi ty entries entries' hphi off
  have hsize := @patch_dataSize p phi ty entries entries' hphi hlen
  have hrecords : ∀ off i, p.instrAt off = some i → ∃ j, ({ p with
      instrData := p.instrData.map fun record =>
        if record.1 = phi then (phi, .phi ty entries') else record } : IRProgram).instrAt off = some j ∧
      SameFlow i j := by
    intro off i hi
    rw [hinstr]
    split_ifs with hoff
    · rw [hoff, hphi] at hi
      cases hi
      exact ⟨_, rfl, .inr ⟨rfl, rfl⟩⟩
    · exact ⟨i, hi, .inl rfl⟩
  have hconst : ∀ off, (∃ t w, p.instrAt off = some (.constInt t w)) → ∃ t w, ({ p with
      instrData := p.instrData.map fun record =>
        if record.1 = phi then (phi, .phi ty entries') else record } : IRProgram).instrAt off =
          some (.constInt t w) := by
    rintro off ⟨t, w, hw⟩
    obtain ⟨j, hj, hsame⟩ := hrecords off _ hw
    rcases hsame with rfl | ⟨hbad, -⟩
    · exact ⟨t, w, hj⟩
    · cases hbad
  refine ⟨⟨?_, hv.fnIdx, hv.blkIdx, ?_, fun key off hk => hconst off (hv.cache key off hk),
    fun r hr => hconst r.offset (hv.requests r hr)⟩, ?_, rfl, rfl, fun n c hc =>
      .of_current rfl (Nat.le_refl _) (fun _ _ => rfl) hrecords (idle_of_open ho) hc⟩
  · intro record hrecord
    obtain ⟨record₀, hmem, rfl⟩ := List.mem_map.mp hrecord
    have hlt := hv.offsets record₀ hmem
    rw [hsize]
    split_ifs with hk
    · exact hk ▸ hlt
    · exact hlt
  · intro blk off hoff
    obtain ⟨i, hi⟩ := hv.blockOffsets blk off hoff
    obtain ⟨j, hj, -⟩ := hrecords off i hi
    exact ⟨j, hj⟩
  · intro off hoff j hj
    rw [hinstr] at hj
    split_ifs at hj
    · cases hj
      rfl
    · exact ho off hoff j hj

lemma plain_step (hv : Valid p) (ho : Open p) {c : BuilderCall} (hplain : c.IsPlain)
    (h : c.apply p = some q) : PlainStep p q := by
  unfold BuilderCall.apply at h
  cases c with
  | beginFunction _ _ _ | addBlock _ | setInsertionPoint _ _ | addBranch _ | addCondBranch _ _ _
  | addReturn _ => exact hplain.elim
  | addConstInt v t =>
    rw [emitted_eq h]
    exact addConstInt_plainStep hv ho v t
  | addBinary op t a b =>
    dsimp only at h
    split_ifs at h
    rw [emitted_eq h]
    rcases addBinary_cases (p := p) op t a b with ⟨v, hv'⟩ | ⟨v, t', hv'⟩ | hv'
    · rw [hv']
      exact emit_plainStep hv ho rfl
    · rw [hv']
      exact addConstInt_plainStep hv ho v t'
    · rw [hv']
      exact emit_plainStep hv ho rfl
  | addUnary op t a =>
    dsimp only at h
    split_ifs at h
    rw [emitted_eq h]
    exact emit_plainStep hv ho rfl
  | addGEP base off =>
    rw [emitted_eq h]
    unfold IRProgram.addGEP
    split_ifs
    · exact .refl hv ho
    · exact emit_plainStep hv ho rfl
  | patchPhiEntry ref idx v b => exact patch_plainStep hv ho h
  | addConstBool _ | addRotateRight _ _ | addLoad _ _ | addStore _ _ | addPhi _ _ | addCall _ _ _ =>
    rw [emitted_eq h]
    exact emit_plainStep hv ho rfl

/-! ### The moves of a scope -/

lemma openIf_frame (hv : Valid p) (hidle : Idle p) (cond : IRValueRef) :
    Frame p.blocks.length p.currentBlkIdx p (p.openIf cond) := by
  have h := openIf_spec hv cond
  apply Frame.of_current h.loc.fnIdx h.loc.blocks _ _ hidle (.inl rfl)
  · intro b hb
    rw [h.blockAt, if_neg hb]
  · exact fun off i hi => ⟨i, h.loc.allRecords off i hi, .inl rfl⟩

/-- The opening branch of a scope. -/
lemma openIf_last (hv : Valid p) (cond : IRValueRef) : lastInstr (p.openIf cond) p.currentBlkIdx =
    some (.condBranch cond p.blocks.length (p.blocks.length + 1)) := by
  have hopen := openIf_spec hv cond
  exact lastInstr_append ((hopen.blockAt _).trans (if_pos rfl))
    ((hopen.instrAt _).trans (if_pos rfl))

/-- A block is left for another one: it ends in a branch to `m`, or in a `Return`. -/
structure Jumped (m t : Nat) (q r : IRProgram) : Prop where
  valid : Valid r
  current : r.currentBlkIdx = t
  length : r.blocks.length = q.blocks.length
  others : ∀ b, b ≠ q.currentBlkIdx → r.blockAt b = q.blockAt b
  last : lastInstr r q.currentBlkIdx = some (.branch m) ∨
    ∃ v, lastInstr r q.currentBlkIdx = some (.ret v)
  frame : ∀ n c, q.currentBlkIdx = c ∨ n ≤ q.currentBlkIdx → Frame n c q r

/-- Code ends in an open block or in a `Return`. -/
def PathEnd (q : IRProgram) : Prop := Open q ∨ ∃ v, lastInstr q q.currentBlkIdx = some (.ret v)

lemma PathEnd.idle (h : PathEnd q) : Idle q := by
  rcases h with ho | ⟨v, hv⟩
  · exact idle_of_open ho
  · exact idle_of_ret hv

lemma branch_last (hv : Valid q) (m t : Nat) :
    lastInstr ((q.addBranch m).2.setInsertionPoint q.currentFnIdx t) q.currentBlkIdx =
      some (.branch m) := by
  have hat : (q.addBranch m).2.blockAt q.currentBlkIdx = q.blockAt q.currentBlkIdx ++ [q.dataSize] :=
    (emit_blockAt hv (.branch m) q.currentBlkIdx).trans (if_pos rfl)
  have hrec : (q.addBranch m).2.instrAt q.dataSize = some (.branch m) :=
    emit_self (.branch m)
  exact lastInstr_append hat hrec

lemma branch_jumped (hv : Valid q) (hidle : Idle q) {m t : Nat} (ht : t < q.blocks.length) :
    Jumped m t q ((q.addBranch m).2.setInsertionPoint q.currentFnIdx t) := by
  have hlen : (q.addBranch m).2.blocks.length = q.blocks.length :=
    emit_length hv.fnIdx (.branch m)
  refine ⟨setBlock_valid (emit_valid hv (.branch m)) (hlen.symm ▸ ht), rfl, hlen, ?_,
    .inl (branch_last hv m t), fun n c hc => (emit_frame hv hidle (.branch m) hc).setBlock t⟩
  intro b hb
  exact (emit_blockAt hv (.branch m) b).trans (if_neg hb)

lemma els_jumped (hv : Valid q) (hend : PathEnd q) {m t : Nat} (ht : t < q.blocks.length) :
    Jumped m t q (q.els m t) :=
  branch_jumped hv hend.idle ht

lemma els_last (hv : Valid q) (m t : Nat) :
    lastInstr (q.els m t) q.currentBlkIdx = some (.branch m) :=
  branch_last hv m t

/-- The destructor branches, unless the code ended in a `Return`. -/
lemma closeIf_jumped (hv : Valid q) (hend : PathEnd q) {m : Nat} (hm : m < q.blocks.length) :
    Jumped m m q (q.closeIf m) := by
  unfold closeIf
  cases hterm : q.isTerminated with
  | false => exact branch_jumped hv hend.idle hm
  | true =>
    rcases hend with ho | ⟨v, hret⟩
    · rw [isTerminated_of_open ho] at hterm
      cases hterm
    · exact ⟨setBlock_valid hv hm, rfl, rfl, fun _ _ => rfl, .inr ⟨v, hret⟩,
        fun n c _ => (Frame.refl n c q).setBlock m⟩

/-! ### Running code -/

/-- What a run does, wherever it started. -/
structure RunSpec (falls : Prop) (p q : IRProgram) : Prop where
  valid : Valid q
  frame : Frame p.blocks.length p.currentBlkIdx p q
  current : q.currentBlkIdx = p.currentBlkIdx ∨ p.blocks.length ≤ q.currentBlkIdx
  ends : falls ∧ Open q ∨ ¬ falls ∧ ∃ v, lastInstr q q.currentBlkIdx = some (.ret v)

lemma RunSpec.pathEnd {falls : Prop} (h : RunSpec falls p q) : PathEnd q :=
  h.ends.imp And.right And.right

/-- A run that goes on behind another piece of code. -/
lemma RunSpec.after {falls : Prop} (hframe : Frame p.blocks.length p.currentBlkIdx p q)
    (hcur : q.currentBlkIdx = p.currentBlkIdx ∨ p.blocks.length ≤ q.currentBlkIdx)
    (h : RunSpec falls q r) : RunSpec falls p r := by
  have hlen := hframe.length
  refine ⟨h.valid, hframe.trans (h.frame.weaken hlen hcur), ?_, h.ends⟩
  rcases h.current with heq | hle
  · rw [heq]
    exact hcur
  · exact .inr (by omega)

section

variable {cond : IRValueRef} {falls falls' : Prop} {q' : IRProgram}

/-- After the true branch the blocks of the false branch and of the merge are still empty. -/
structure TrueDone (cond : IRValueRef) (p q : IRProgram) : Prop where
  valid : Valid q
  ends : PathEnd q
  length : p.blocks.length + 3 ≤ q.blocks.length
  current : q.currentBlkIdx = p.blocks.length ∨ p.blocks.length + 3 ≤ q.currentBlkIdx
  frame : Frame p.blocks.length p.currentBlkIdx p q
  falseEmpty : q.blockAt (p.blocks.length + 1) = []
  mergeEmpty : q.blockAt (p.blocks.length + 2) = []
  opened : lastInstr q p.currentBlkIdx =
    some (.condBranch cond p.blocks.length (p.blocks.length + 1))

lemma trueDone (hv : Valid p) (ho : Open p) (h : RunSpec falls (p.openIf cond) q) :
    TrueDone cond p q := by
  have hopen := openIf_spec hv cond
  have hlt := hv.blkIdx
  have hframe := openIf_frame hv (idle_of_open ho) cond
  have hlen := h.frame.length
  rw [hopen.length] at hlen
  have hcur := h.current
  rw [hopen.current, hopen.length] at hcur
  have hbody := h.frame
  rw [hopen.current, hopen.length] at hbody
  have hempty : ∀ b, p.blocks.length < b → b < p.blocks.length + 3 → q.blockAt b = [] := by
    intro b hb hb'
    rw [hbody.others b hb' (by omega), hopen.blockAt, if_neg (by omega),
      blockAt_of_length_le (by omega)]
  exact ⟨h.valid, h.pathEnd, hlen, hcur,
    hframe.trans (hbody.weaken (by omega) (.inr (Nat.le_refl _))),
    hempty _ (by omega) (by omega), hempty _ (by omega) (by omega),
    hbody.terminator (by omega) (by omega) (openIf_last hv cond) rfl⟩

/-- After both branches the merge block is still empty, and the true branch leads to it. -/
structure FalseDone (p q q' : IRProgram) : Prop where
  valid : Valid q'
  ends : PathEnd q'
  length : p.blocks.length + 3 ≤ q'.blocks.length
  current : q'.currentBlkIdx = p.blocks.length + 1 ∨ p.blocks.length + 3 ≤ q'.currentBlkIdx
  frame : Frame p.blocks.length p.currentBlkIdx p q'
  mergeEmpty : q'.blockAt (p.blocks.length + 2) = []
  trueEnd : lastInstr q' q.currentBlkIdx = some (.branch (p.blocks.length + 2))

/-- `els()` opens the empty block of the false branch. -/
lemma TrueDone.els (h : TrueDone cond p q) :
    Jumped (p.blocks.length + 2) (p.blocks.length + 1) q
      (q.els (p.blocks.length + 2) (p.blocks.length + 1)) ∧
    Open (q.els (p.blocks.length + 2) (p.blocks.length + 1)) ∧
    Frame p.blocks.length p.currentBlkIdx p (q.els (p.blocks.length + 2) (p.blocks.length + 1)) := by
  have hlen := h.length
  have hcur := h.current
  have hj := els_jumped h.valid h.ends (m := p.blocks.length + 2) (t := p.blocks.length + 1) (by omega)
  refine ⟨hj, open_of_nil ?_, h.frame.trans (hj.frame _ _ (.inr (by omega)))⟩
  rw [hj.current, hj.others _ (by omega)]
  exact h.falseEmpty

lemma falseDone (h : TrueDone cond p q)
    (hrun : RunSpec falls (q.els (p.blocks.length + 2) (p.blocks.length + 1)) q') :
    FalseDone p q q' := by
  have hlen := h.length
  have hcur := h.current
  obtain ⟨hj, -, hframe⟩ := h.els
  have hcur' := hrun.current
  have hlen' := hrun.frame.length
  have hbody := hrun.frame
  rw [hj.current, hj.length] at hcur' hbody
  rw [hj.length] at hlen'
  refine ⟨hrun.valid, hrun.pathEnd, by omega, by omega,
    hframe.trans (hbody.weaken (by omega) (.inr (by omega))), ?_, ?_⟩
  · rw [hbody.others _ (by omega) (by omega), hj.others _ (by omega)]
    exact h.mergeEmpty
  · have hq := h.valid.blkIdx
    exact hbody.terminator (by omega) (by omega) (els_last h.valid _ _) rfl

/-- The destructor opens the empty merge block. -/
lemma close_spec {m : Nat} (hv : Valid q) (hend : PathEnd q) (hm : m < q.blocks.length)
    (hne : q.currentBlkIdx ≠ m) (hempty : q.blockAt m = []) :
    Jumped m m q (q.closeIf m) ∧ Open (q.closeIf m) := by
  have hj := closeIf_jumped hv hend hm
  refine ⟨hj, open_of_nil ?_⟩
  rw [hj.current, hj.others m hne.symm]
  exact hempty

/-- From the end of the last branch on. -/
lemma RunSpec.closed {m : Nat} (hframe : Frame p.blocks.length p.currentBlkIdx p q)
    (hcur : p.blocks.length ≤ q.currentBlkIdx) (hm : p.blocks.length ≤ m)
    (hj : Jumped m m q (q.closeIf m)) (h : RunSpec falls (q.closeIf m) r) : RunSpec falls p r := by
  apply RunSpec.after (hframe.trans (hj.frame _ _ (.inr hcur))) _ h
  rw [hj.current]
  exact .inr hm

end

lemma run_call {c : BuilderCall} {plain : c.IsPlain} {rest : ScopedCode} {ss : List ClosedScope}
    (h : (ScopedCode.call c plain rest).run p = some (r, ss)) :
    ∃ q, c.apply p = some q ∧ rest.run q = some (r, ss) :=
  Option.bind_eq_some_iff.mp h

lemma run_ifStmt {cond : IRValueRef} {body rest : ScopedCode} {ss : List ClosedScope}
    (h : (ScopedCode.ifStmt cond body rest).run p = some (r, ss)) : ∃ q inner after,
      body.run (p.openIf cond) = some (q, inner) ∧
      rest.run (q.closeIf (p.blocks.length + 2)) = some (r, after) ∧
      ss = inner ++ ⟨p.blocks.length + 1, p.blocks.length + 2⟩ :: after := by
  obtain ⟨⟨q, inner⟩, hbody, h⟩ := Option.bind_eq_some_iff.mp h
  obtain ⟨⟨r', after⟩, hrest, h⟩ := Option.bind_eq_some_iff.mp h
  cases h
  exact ⟨q, inner, after, hbody, hrest, rfl⟩

lemma run_ifElse {cond : IRValueRef} {body elseBody rest : ScopedCode} {ss : List ClosedScope}
    (h : (ScopedCode.ifElse cond body elseBody rest).run p = some (r, ss)) :
    ∃ q inner q' inner' after, body.run (p.openIf cond) = some (q, inner) ∧
      elseBody.run (q.els (p.blocks.length + 2) (p.blocks.length + 1)) = some (q', inner') ∧
      rest.run (q'.closeIf (p.blocks.length + 2)) = some (r, after) ∧
      ss = inner ++ inner' ++ ⟨q'.currentBlkIdx, p.blocks.length + 2⟩ :: after := by
  obtain ⟨⟨q, inner⟩, hbody, h⟩ := Option.bind_eq_some_iff.mp h
  obtain ⟨⟨q', inner'⟩, helse, h⟩ := Option.bind_eq_some_iff.mp h
  obtain ⟨⟨r', after⟩, hrest, h⟩ := Option.bind_eq_some_iff.mp h
  cases h
  exact ⟨q, inner, q', inner', after, hbody, helse, hrest, rfl⟩

/-- The induction is on the code. -/
theorem run_spec {code : ScopedCode} {ss : List ClosedScope} (h : code.run p = some (q, ss))
    (hv : Valid p) (ho : Open p) : RunSpec code.FallsThrough p q := by
  induction code generalizing p q ss with
  | done =>
    cases h
    exact ⟨hv, .refl _ _ p, .inl rfl, .inl ⟨trivial, ho⟩⟩
  | ret v =>
    cases h
    have hlast : lastInstr (p.addReturn v).2 p.currentBlkIdx = some (.ret v) :=
      lastInstr_append ((emit_blockAt hv (.ret v) _).trans (if_pos rfl))
        (emit_self (.ret v))
    exact ⟨emit_valid hv _, emit_frame hv (idle_of_open ho) _ (.inl rfl), .inl rfl,
      .inr ⟨id, v, hlast⟩⟩
  | call c plain rest ih =>
    obtain ⟨q₁, hc, hrest⟩ := run_call h
    have hstep := plain_step hv ho plain hc
    exact (ih hrest hstep.valid hstep.isOpen).after (hstep.frame _ _ (.inl rfl))
      (.inl hstep.current)
  | ifStmt cond body rest ihb ihr =>
    obtain ⟨q₁, inner, after, hbody, hrest, -⟩ := run_ifStmt h
    have hopen := openIf_spec hv cond
    have hdone := trueDone hv ho (ihb hbody hopen.valid hopen.isOpen)
    have hlen := hdone.length
    have hcur := hdone.current
    obtain ⟨hj, hro⟩ := close_spec hdone.valid hdone.ends (by omega) (by omega) hdone.mergeEmpty
    exact (ihr hrest hj.valid hro).closed hdone.frame (by omega) (by omega) hj
  | ifElse cond body elseBody rest ihb ihe ihr =>
    obtain ⟨q₁, inner, q₂, inner', after, hbody, helse, hrest, -⟩ := run_ifElse h
    have hopen := openIf_spec hv cond
    have htrue := trueDone hv ho (ihb hbody hopen.valid hopen.isOpen)
    obtain ⟨hjels, hels, -⟩ := htrue.els
    have hdone := falseDone htrue (ihe helse hjels.valid hels)
    have hlen := hdone.length
    have hcur := hdone.current
    obtain ⟨hj, hro⟩ := close_spec hdone.valid hdone.ends (by omega) (by omega) hdone.mergeEmpty
    exact (ihr hrest hj.valid hro).closed hdone.frame (by omega) (by omega) hj

end

end Proofs

end TidyTuples
