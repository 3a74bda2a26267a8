import TidyTuples.Proofs.Builders
import TidyTuples.Proofs.Emitted
import TidyTuples.Proofs.Folding
import TidyTuples.Proofs.StraightLine

/-!
# Code that a builder adds to a block

The code generation layer adds records at the end of the block that is being built. The translator
meets them behind the code of the block so far, whatever that has left.
-/

namespace TidyTuples

namespace Translator

section

variable (P : IRProgram) (fn : IRFunction) (blk : Nat)

/-- The translator behind the first instructions of a block. -/
def translatorAt (before : List Nat) : Translator :=
  (translateInstrs P fn (canDeferComparison P fn) blk before (afterBlocks P fn blk)).2

/-- The code of the instructions `refs`, which stand behind `before` in their block. -/
def codeAt (before refs : List Nat) : List VInstr :=
  (translateInstrs P fn (canDeferComparison P fn) blk refs (translatorAt P fn blk before)).1

end

end Translator

open Translator

namespace IRProgram

/-- The function that is being built. -/
def currentFn (q : IRProgram) : IRFunction :=
  (q.functions[q.currentFnIdx]?).getD ⟨"", .void, [], [], [], []⟩

variable (p q : IRProgram)

/-- What `q` has behind the instructions of `p` in the block that is being built. -/
def addedSince : List Nat :=
  (q.blockAt q.currentBlkIdx).drop (p.blockAt p.currentBlkIdx).length

/-- The code of these instructions. -/
def codeSince : List VInstr :=
  codeAt q q.currentFn q.currentBlkIdx (p.blockAt p.currentBlkIdx) (p.addedSince q)

/-- The translator in front of these instructions. -/
def translatorSince : Translator :=
  translatorAt q q.currentFn q.currentBlkIdx (p.blockAt p.currentBlkIdx)

/-- The translator behind all instructions. -/
def translatorNow : Translator :=
  translatorAt q q.currentFn q.currentBlkIdx (q.blockAt q.currentBlkIdx)

end IRProgram

/-- The values of the operands, in the registers the translator has for them. -/
def HostState.values (s : HostState) (t : Translator) (x : IRValueRef) : Word := s.regs (t.regOf x)

namespace Proofs

open Translator

/-- `q` is `p` with the records `refs` at the end of the block that is being built; `G` holds of
them, and they read earlier values. -/
structure Appends (G : Instr → Prop) (p q : IRProgram) (refs : List Nat) : Prop where
  point : q.HasInsertionPoint
  offsets : ∀ record ∈ q.instrData, record.1 < q.dataSize
  size : p.dataSize ≤ q.dataSize
  kept : ∀ off < p.dataSize, q.instrAt off = p.instrAt off
  currentFn : q.currentFnIdx = p.currentFnIdx
  currentBlk : q.currentBlkIdx = p.currentBlkIdx
  block : q.blockAt q.currentBlkIdx = p.blockAt p.currentBlkIdx ++ refs
  sorted : refs.Pairwise (· < ·)
  range : ∀ r ∈ refs, p.dataSize ≤ r ∧ r < q.dataSize
  records : ∀ r ∈ refs, ∃ i, q.instrAt r = some i ∧ G i ∧ ∀ o, .instr o ∈ i.uses → o < r

/-- There is a block to emit into, and the records are where they have been emitted. -/
structure BlockOpen (p : IRProgram) : Prop where
  point : p.HasInsertionPoint
  offsets : ∀ record ∈ p.instrData, record.1 < p.dataSize

section

variable {G G' : Instr → Prop} {p q q' : IRProgram} {refs refs' : List Nat} {ref x : IRValueRef}
  {i : Instr} {r : Nat}

lemma Appends.blockOpen (h : Appends G p q refs) : BlockOpen q := ⟨h.point, h.offsets⟩

lemma BlockOpen.appends (h : BlockOpen p) : Appends G p p [] where
  point := h.point
  offsets := h.offsets
  size := Nat.le_refl _
  kept _ _ := rfl
  currentFn := rfl
  currentBlk := rfl
  block := (List.append_nil _).symm
  sorted := List.Pairwise.nil
  range _ hr := (List.not_mem_nil hr).elim
  records _ hr := (List.not_mem_nil hr).elim

lemma Appends.mono (h : Appends G p q refs)
    (hG : ∀ r ∈ refs, ∀ i, q.instrAt r = some i → G i → G' i) : Appends G' p q refs where
  point := h.point
  offsets := h.offsets
  size := h.size
  kept := h.kept
  currentFn := h.currentFn
  currentBlk := h.currentBlk
  block := h.block
  sorted := h.sorted
  range := h.range
  records r hr := by
    obtain ⟨i, hi, hg, ho⟩ := h.records r hr
    exact ⟨i, hi, hG r hr i hi hg, ho⟩

lemma Appends.trans (h : Appends G p q refs) (h' : Appends G q q' refs') :
    Appends G p q' (refs ++ refs') where
  point := h'.point
  offsets := h'.offsets
  size := h.size.trans h'.size
  kept off hoff := (h'.kept off (Nat.lt_of_lt_of_le hoff h.size)).trans (h.kept off hoff)
  currentFn := h'.currentFn.trans h.currentFn
  currentBlk := h'.currentBlk.trans h.currentBlk
  block := by rw [h'.block, h.block, List.append_assoc]
  sorted := by
    refine List.pairwise_append.mpr ⟨h.sorted, h'.sorted, fun a ha b hb => ?_⟩
    exact Nat.lt_of_lt_of_le (h.range a ha).2 (h'.range b hb).1
  range := by
    intro r hr
    rcases List.mem_append.mp hr with hr | hr
    · exact ⟨(h.range r hr).1, Nat.lt_of_lt_of_le (h.range r hr).2 h'.size⟩
    · exact ⟨h.size.trans (h'.range r hr).1, (h'.range r hr).2⟩
  records := by
    intro r hr
    rcases List.mem_append.mp hr with hr | hr
    · obtain ⟨i, hi, hg, ho⟩ := h.records r hr
      exact ⟨i, (h'.kept r (h.range r hr).2).trans hi, hg, ho⟩
    · exact h'.records r hr

lemma Appends.spec (h : Appends G p q refs) (hr : r ∈ refs) (hi : q.instrAt r = some i) : G i := by
  obtain ⟨j, hj, hg, -⟩ := h.records r hr
  rw [hi] at hj
  cases hj
  exact hg

/-- No register is written in advance where there are no constants. -/
lemma Appends.noConst (h : Appends G p q refs) (hG : ∀ i, G i → i.isConst = false) :
    ∀ r ∈ refs, ∀ i, q.instrAt r = some i → i.isConst = true →
      (p.translatorSince q).regMap (.instr r) = none := by
  intro r hr i hi hc
  rw [hG i (h.spec hr hi)] at hc
  cases hc

/-- One record more. -/
lemma BlockOpen.emit (h : BlockOpen p) (hG : G i) (hi : ∀ x ∈ i.uses, Known p x) :
    Appends G p (p.emit i).2 [p.dataSize] := by
  have hpos := i.byteSize_pos
  have hlen := emit_length h.point.1 i
  have hfns : (p.emit i).2.functions.length = p.functions.length := List.length_modify ..
  constructor
  · exact ⟨hfns ▸ h.point.1, hlen ▸ h.point.2⟩
  · exact emit_offsets h.offsets i
  · rw [emit_dataSize]
    omega
  · intro off hoff
    rw [emit_instrAt, if_neg (Nat.ne_of_lt hoff)]
  · rfl
  · rfl
  · have hb := h.point.2
    simp only [IRProgram.blockAt, emit_blocks h.point.1, emit_currentBlkIdx, List.getElem?_modify]
    simp [List.getElem?_eq_getElem hb]
  · exact List.pairwise_singleton _ _
  · intro r hr
    rw [List.mem_singleton.mp hr, emit_dataSize]
    exact ⟨Nat.le_refl _, by omega⟩
  · intro r hr
    rw [List.mem_singleton.mp hr]
    exact ⟨i, emit_self i, hG, fun o ho => hi _ ho⟩

lemma Appends.known (h : Appends G p q refs) (hx : Known p x) : Known q x := hx.mono h.size

lemma Appends.constIntValue (h : Appends G p q refs) (hx : Known p x) :
    q.constIntValue x = p.constIntValue x := by
  cases x with
  | instr off =>
    have hkept := h.kept off hx
    simp only [IRProgram.constIntValue, IRProgram.getInstr, hkept]
  | null => rfl
  | param f k => rfl

/-- What is not a constant is not folded. -/
lemma addBinary_runTime {op : Opcode} {t : IRType} {a b : IRValueRef}
    (h : p.constIntValue a = none ∨ p.constIntValue b = none) :
    p.addBinary op t a b = p.emit (.binary op t a b) := by
  rw [IRProgram.addBinary, IRProgram.tryConstFold]
  rcases h with h | h
  · rw [h]
    rfl
  · rw [h]
    cases p.constIntValue a <;> rfl

lemma emit_runTime (h : i.isConst = false) : (p.emit i).2.constIntValue (.instr p.dataSize) = none := by
  exact IRProgram.constIntValue_runTime (emit_self i) h

/-- Records with helpers, one after the other, are a straight line. -/
lemma Appends.straightLine (h : Appends (fun i => i.isLine = true) p q refs) : q.StraightLine refs where
  records r hr := by
    obtain ⟨i, hi, hline, -⟩ := h.records r hr
    exact ⟨i, hi, hline⟩
  sorted := h.sorted
  operands := by
    intro r hr o ho
    obtain ⟨i, hi, hline, hlt⟩ := h.records r hr
    rw [readsAt_of_line hi hline] at ho
    exact hlt o (registerReads_subset _ ho)

/-! ### Running a line of records -/

section

variable {V σ : Type} {M : Machine V σ} {e e' : ExecState V σ}

lemma execLine_append : q.execLine M (refs ++ refs') e =
    (q.execLine M refs e).bind (q.execLine M refs') := List.foldlM_append

lemma execLine_singleton (hi : q.instrAt r = some i) : q.execLine M [r] e = execInstr M r i e := by
  unfold IRProgram.execLine
  rw [List.foldlM_cons, hi, Option.bind_some]
  cases execInstr M r i e <;> rfl

/-- Later records do not change a run. -/
lemma execLine_congr (h : ∀ r ∈ refs, q'.instrAt r = q.instrAt r) :
    q'.execLine M refs e = q.execLine M refs e := by
  induction refs generalizing e with
  | nil => rfl
  | cons r rest ih =>
    unfold IRProgram.execLine at ih ⊢
    rw [List.foldlM_cons, List.foldlM_cons, h r List.mem_cons_self]
    congr 1
    funext e'
    exact ih fun r' hr' => h r' (List.mem_cons_of_mem r hr')

lemma Appends.execLine (h : Appends G q q' refs') (hrefs : ∀ r ∈ refs, r < q.dataSize) :
    q'.execLine M refs e = q.execLine M refs e :=
  execLine_congr fun r hr => h.kept r (hrefs r hr)

/-- An instruction writes its own register. -/
lemma execInstr_kept (h : execInstr M r i e = some e') (hx : x ≠ .instr r) :
    e'.regs x = e.regs x := by
  have hset : ∀ (e : ExecState V σ) (v : V), (e.setReg r v).regs x = e.regs x :=
    fun e v => Function.update_of_ne hx _ _
  cases i with
  | binary op t a b =>
    simp only [execInstr] at h
    split_ifs at h
    all_goals
      cases h
      first | rfl | exact hset _ _
  | unary op t a =>
    simp only [execInstr] at h
    split_ifs at h
    all_goals
      cases h
      first | rfl | exact hset _ _
  | call t fn args =>
    simp only [execInstr] at h
    split at h
    · cases h
    · cases h
      split_ifs
      · rfl
      · exact hset _ _
  | constInt t value | constBool value | rotateRight a shift | gep base byteOffset =>
    cases h
    exact hset _ _
  | _ =>
    cases h
    rfl

lemma execLine_kept (h : q.execLine M refs e = some e') (hx : ∀ r ∈ refs, x ≠ .instr r) :
    e'.regs x = e.regs x := by
  induction refs generalizing e with
  | nil =>
    cases h
    rfl
  | cons r rest ih =>
    unfold IRProgram.execLine at h ih
    rw [List.foldlM_cons] at h
    obtain ⟨e₁, h₁, hrest⟩ := Option.bind_eq_some_iff.mp h
    obtain ⟨i, -, hexec⟩ := Option.bind_eq_some_iff.mp h₁
    rw [ih hrest fun r' hr' => hx r' (List.mem_cons_of_mem r hr')]
    exact execInstr_kept hexec (hx r List.mem_cons_self)

lemma Appends.regs (h : Appends G p q refs) (hrun : q'.execLine M refs e = some e') (hx : Known p x) :
    e'.regs x = e.regs x := by
  apply execLine_kept hrun
  rintro r hr rfl
  exact absurd hx (Nat.not_lt.mpr (h.range r hr).1)

end

/-! ### The translator at the end of a block -/

variable {P : IRProgram} {fn : IRFunction} {blk : Nat} {before : List Nat} {host : Host}

lemma translatorAt_tracks : ∃ W, Tracks P fn W (translatorAt P fn blk before) :=
  ⟨_, translateInstrs_tracks before (afterBlocks_tracks blk)⟩

/-- No comparison is deferred in a block that does not end in a conditional branch. -/
lemma canDeferComparison_false (hblock : fn.instructionsAt blk = before ++ refs) (hr : r ∈ refs)
    (hbranch : ∀ r ∈ refs, ∀ x b b', P.instrAt r ≠ some (.condBranch x b b')) (c : Nat) :
    canDeferComparison P fn c blk = false := by
  by_contra hdefer
  obtain ⟨bb, last, b₁, b₂, hbb, hlast, hcond, -⟩ := canDeferComparison_spec (by simpa using hdefer)
  rw [IRFunction.instructionsAt, hbb] at hblock
  change bb.instructions = before ++ refs at hblock
  rw [hblock, List.getLast?_append_of_ne_nil _ (List.ne_nil_of_mem hr)] at hlast
  exact hbranch last (List.mem_of_getLast? hlast) _ _ _ hcond

lemma currentFn_eq (h : q.HasInsertionPoint) : q.functions[q.currentFnIdx]? = some q.currentFn := by
  rw [IRProgram.currentFn, List.getElem?_eq_getElem h.1]
  rfl

lemma instructionsAt_current (h : q.HasInsertionPoint) :
    q.currentFn.instructionsAt q.currentBlkIdx = q.blockAt q.currentBlkIdx := by
  unfold IRFunction.instructionsAt IRProgram.blockAt IRProgram.blocks
  rw [currentFn_eq h]
  cases q.currentFn.blocks[q.currentBlkIdx]? <;> rfl

lemma Appends.addedSince (h : Appends G p q refs) : p.addedSince q = refs := by
  rw [IRProgram.addedSince, h.block, List.drop_left]

lemma Appends.instructionsAt (h : Appends G p q refs) :
    q.currentFn.instructionsAt q.currentBlkIdx = p.blockAt p.currentBlkIdx ++ refs := by
  rw [instructionsAt_current h.point, h.block]

lemma Appends.translatorNow (h : Appends G p q refs) : q.translatorNow =
    (translateInstrs q q.currentFn (canDeferComparison q q.currentFn) q.currentBlkIdx refs
      (p.translatorSince q)).2 := by
  rw [IRProgram.translatorNow, translatorAt, h.block, translateInstrs_append]
  rfl

/-- The code of the records is refused by the assembler, or it does what the machine of the host
says. -/
lemma Appends.run (h : Appends (fun i => i.isLine = true) p q refs)
    (hconst : ∀ r ∈ refs, ∀ i, q.instrAt r = some i → i.isConst = true →
      (p.translatorSince q).regMap (.instr r) = none) (host : Host) (s : HostState) :
    (host.EncodesLine q refs → ∃ s' e', host.run (p.codeSince q) s = some s' ∧
      q.execLine host.arch.emitted refs ⟨s.values (p.translatorSince q), s.mem, []⟩ = some e' ∧
      (∀ x, s'.values q.translatorNow x = e'.regs x) ∧ s'.mem = e'.mem) ∧
    (¬ host.EncodesLine q refs → host.run (p.codeSince q) s = none) := by
  have hdefer := fun r (hr : r ∈ refs) => canDeferComparison_false h.instructionsAt hr
    (fun r hr x b b' hi => by cases h.spec hr hi) r
  obtain ⟨W, hW⟩ := @translatorAt_tracks q q.currentFn q.currentBlkIdx (p.blockAt p.currentBlkIdx)
  have hagrees : Agrees (p.translatorSince q) s ⟨s.values (p.translatorSince q), s.mem, []⟩ :=
    ⟨fun _ => rfl, rfl⟩
  obtain ⟨hyes, hno⟩ := @run_line host s _ q _ _ W (canDeferComparison q q.currentFn)
    q.currentBlkIdx refs h.straightLine hconst (fun r hr _ _ _ => hdefer r hr) hW hagrees
  rw [IRProgram.codeSince, h.addedSince, h.translatorNow]
  refine ⟨fun henc => ?_, hno⟩
  obtain ⟨s', e', hs', he', hfinal⟩ := hyes henc
  exact ⟨s', e', hs', he', hfinal.regs, hfinal.mem⟩

/-! ### Lines with a known effect -/

/-- `q` is `p` with records at the end of its block: the hosts for which `enc` holds encode them,
and what the machine of a host does with them is described by `post`. -/
structure Does (G : Instr → Prop) (enc : Host → Prop)
    (post : Host → ExecState Word (Memory 64) → ExecState Word (Memory 64) → Prop)
    (p q : IRProgram) (refs : List Nat) : Prop where
  appends : Appends G p q refs
  encodes : ∀ host, host.EncodesLine q refs ↔ enc host
  exec : ∀ host e, ∃ e', q.execLine host.arch.emitted refs e = some e' ∧
    (∀ x, Known p x → e'.regs x = e.regs x) ∧ post host e e'

variable {enc enc' : Host → Prop}
  {post post' : Host → ExecState Word (Memory 64) → ExecState Word (Memory 64) → Prop}

lemma BlockOpen.does (h : BlockOpen p) : Does G (fun _ => True) (fun _ e e' => e' = e) p p [] where
  appends := h.appends
  encodes _ := ⟨fun _ => trivial, fun _ _ hr => (List.not_mem_nil hr).elim⟩
  exec _ e := ⟨e, rfl, fun _ _ => rfl, rfl⟩

lemma Does.mono (h : Does G enc post p q refs) (hpost : ∀ host e e', (∀ x, Known p x →
    e'.regs x = e.regs x) → post host e e' → post' host e e') : Does G enc post' p q refs where
  appends := h.appends
  encodes := h.encodes
  exec host e := by
    obtain ⟨e', he', hkept, hp⟩ := h.exec host e
    exact ⟨e', he', hkept, hpost host e e' hkept hp⟩

/-- Properties of records that are there before and after more have been added. -/
lemma Appends.forall_append {G' : Instr → Prop} (h : Appends G q q' refs')
    (hrefs : ∀ r ∈ refs, r < q.dataSize) :
    (∀ r ∈ refs ++ refs', ∀ i, q'.instrAt r = some i → G' i) ↔
      (∀ r ∈ refs, ∀ i, q.instrAt r = some i → G' i) ∧
      ∀ r ∈ refs', ∀ i, q'.instrAt r = some i → G' i := by
  constructor
  · intro hall
    refine ⟨fun r hr i hi => ?_, fun r hr => hall r (List.mem_append_right _ hr)⟩
    exact hall r (List.mem_append_left _ hr) i ((h.kept r (hrefs r hr)).trans hi)
  · rintro ⟨h₁, h₂⟩ r hr i hi
    rcases List.mem_append.mp hr with hr | hr
    · exact h₁ r hr i ((h.kept r (hrefs r hr)).symm.trans hi)
    · exact h₂ r hr i hi

lemma Does.trans (h : Does G enc post p q refs) (h' : Does G enc' post' q q' refs')
    (post'' : Host → ExecState Word (Memory 64) → ExecState Word (Memory 64) → Prop)
    (hpost : ∀ host e e' e'', (∀ x, Known p x → e'.regs x = e.regs x) →
      (∀ x, Known q x → e''.regs x = e'.regs x) → post host e e' → post' host e' e'' →
      post'' host e e'') :
    Does G (fun host => enc host ∧ enc' host) post'' p q' (refs ++ refs') where
  appends := h.appends.trans h'.appends
  encodes host := by
    rw [← h.encodes, ← h'.encodes]
    exact h'.appends.forall_append fun r hr => (h.appends.range r hr).2
  exec host e := by
    obtain ⟨e₁, he₁, hkept₁, hp₁⟩ := h.exec host e
    obtain ⟨e₂, he₂, hkept₂, hp₂⟩ := h'.exec host e₁
    refine ⟨e₂, ?_, fun x hx => ?_, hpost host e e₁ e₂ hkept₁ hkept₂ hp₁ hp₂⟩
    · rw [execLine_append, h'.appends.execLine fun r hr => (h.appends.range r hr).2, he₁,
        Option.bind_some, he₂]
    · rw [hkept₂ x (h.appends.known hx), hkept₁ x hx]

lemma BlockOpen.emit_does (h : BlockOpen p) (hG : G i)
    (huses : ∀ x ∈ i.uses, Known p x) (hexec : ∀ host e, ∃ e',
      execInstr host.arch.emitted p.dataSize i e = some e' ∧ post host e e') :
    Does G (fun host => host.encodes i = true) post p (p.emit i).2 [p.dataSize] := by
  have hemit := h.emit hG huses
  have hself := emit_self (p := p) i
  refine ⟨hemit, fun host => ⟨fun henc => ?_, fun henc r hr j hj => ?_⟩, fun host e => ?_⟩
  · exact henc _ List.mem_cons_self i hself
  · rw [List.mem_singleton.mp hr, hself] at hj
    cases hj
    exact henc
  · obtain ⟨e', he', hp⟩ := hexec host e
    have hrun : (p.emit i).2.execLine host.arch.emitted [p.dataSize] e = some e' := by
      rw [execLine_singleton hself, he']
    exact ⟨e', hrun, fun x hx => hemit.regs hrun hx, hp⟩

/-- A record with a result. -/
lemma BlockOpen.result (h : BlockOpen p) (i : Instr) (hG : G i)
    (huses : ∀ x ∈ i.uses, Known p x) (value : Host → ExecState Word (Memory 64) → Word)
    (hexec : ∀ host e, execInstr host.arch.emitted p.dataSize i e =
      some (e.setReg p.dataSize (value host e))) :
    Does G (fun host => host.encodes i = true) (fun host e e' =>
      e'.regs (.instr p.dataSize) = value host e ∧ e'.mem = e.mem) p (p.emit i).2 [p.dataSize] :=
  h.emit_does hG huses fun host e => ⟨_, hexec host e, Function.update_self .., rfl⟩

lemma Does.congr (h : Does G enc post p q refs) (henc : ∀ host, enc host ↔ enc' host) :
    Does G enc' post p q refs where
  appends := h.appends
  encodes host := (h.encodes host).trans (henc host)
  exec := h.exec

/-- A line with a known effect, on a host. -/
lemma Does.run (h : Does G enc post p q refs) (hG : ∀ i, G i → i.isLine = true)
    (hconst : ∀ r ∈ refs, ∀ i, q.instrAt r = some i → i.isConst = true →
      (p.translatorSince q).regMap (.instr r) = none) (host : Host) (s : HostState) :
    (enc host → ∃ s' e', host.run (p.codeSince q) s = some s' ∧
      post host ⟨s.values (p.translatorSince q), s.mem, []⟩ e' ∧
      (∀ x, s'.values q.translatorNow x = e'.regs x) ∧ s'.mem = e'.mem) ∧
    (¬ enc host → host.run (p.codeSince q) s = none) := by
  obtain ⟨hyes, hno⟩ := (h.appends.mono fun _ _ i _ hi => hG i hi).run hconst host s
  rw [h.encodes] at hyes hno
  refine ⟨fun henc => ?_, hno⟩
  obtain ⟨s', e', hs', he', hregs, hmem⟩ := hyes henc
  obtain ⟨e'', he'', -, hp⟩ := h.exec host ⟨s.values (p.translatorSince q), s.mem, []⟩
  rw [he'] at he''
  cases he''
  exact ⟨s', e', hs', hp, hregs, hmem⟩

end

end Proofs

end TidyTuples
