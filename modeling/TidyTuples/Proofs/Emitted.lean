import TidyTuples.Proofs.PhiMoves

/-!
# Code in the order of the definitions

Code refers to nothing but the homes of its operands exactly if every definition is emitted before
what reads it. What is emitted then does not depend on the translator any more.
-/

namespace TidyTuples

open Translator IRProgram

section

variable (P : IRProgram) (fn : IRFunction)

/-- No instruction and no edge of a block reads a value that is defined in a block behind it. -/
structure InOrder : Prop where
  reads : ∀ b, ∀ r ∈ fn.instructionsAt b, ∀ x ∈ P.readsAt r, x ≠ .instr r ∧ EmittedBy P fn b x
  edges : ∀ src dst, dst ∈ P.blockSuccessors fn src →
    ∀ ref ∈ P.phisOf (fn.instructionsAt dst), ∀ x, P.incoming src ref = some x →
      P.constIntValue x = none → EmittedBy P fn src x

/-- No emitted instruction reads a register that was requested for an instruction, which that
instruction does not write, and no move on an edge is left out. -/
structure RefersToDefinitions : Prop where
  reads : ∀ v ∈ translateFunction P fn, ∀ c, .requested (.instr c) ∉ v.reads
  edges : ∀ src dst, dst ∈ P.blockSuccessors fn src → ∀ ref ∈ P.phisOf (fn.instructionsAt dst),
    ∃ v ∈ emitPhiMovesForEdge P fn (afterBlocks P fn (src + 1)) src dst,
      v.writes = some (.phi ref) ∧ ∀ c, .requested (.instr c) ∉ v.reads

end

namespace Proofs

section

variable {P : IRProgram} {fn : IRFunction} {d : Nat → Nat → Bool} {b r : Nat} {i : Instr}
  {t : Translator} {x : IRValueRef} {pre post : List Nat}

/-! ### The translator before an instruction -/

lemma translateInstrs_append (pre post : List Nat) :
    translateInstrs P fn d b (pre ++ post) t =
      ((translateInstrs P fn d b pre t).1 ++
          (translateInstrs P fn d b post (translateInstrs P fn d b pre t).2).1,
        (translateInstrs P fn d b post (translateInstrs P fn d b pre t).2).2) := by
  induction pre generalizing t with
  | nil => rfl
  | cons r rest ih => simp only [List.cons_append, translateInstrs, ih, List.append_assoc]

lemma translateBlocks_append (first : Nat) (blks blks' : List BasicBlock) :
    translateBlocks P fn d first (blks ++ blks') t =
      ((translateBlocks P fn d first blks t).1 ++ (translateBlocks P fn d (first + blks.length)
          blks' (translateBlocks P fn d first blks t).2).1,
        (translateBlocks P fn d (first + blks.length) blks'
          (translateBlocks P fn d first blks t).2).2) := by
  induction blks generalizing first t with
  | nil => rfl
  | cons blk rest ih =>
    rw [List.cons_append, List.length_cons, Nat.add_comm rest.length, ← Nat.add_assoc]
    simp only [translateBlocks, ih, List.append_assoc]

/-- The translator without deferred comparisons behind the instructions `pre` of block `b`. -/
def plainBefore (P : IRProgram) (fn : IRFunction) (b : Nat) (pre : List Nat) : Translator :=
  (translateInstrs P fn (fun _ _ => false) b pre (plainAfter P fn b)).2

lemma plainBefore_concat : plainBefore P fn b (pre ++ [r]) =
    (translateInstr P fn (fun _ _ => false) (plainBefore P fn b pre) r b).2 := by
  unfold plainBefore
  rw [translateInstrs_append]
  rfl

lemma plainAfter_succ (hb : b < fn.blocks.length) :
    plainAfter P fn (b + 1) = plainBefore P fn b (fn.instructionsAt b) := by
  have hblk : fn.blocks[b]? = some fn.blocks[b] := List.getElem?_eq_getElem hb
  unfold plainBefore plainAfter
  rw [List.take_add_one, hblk, Option.toList_some, translateBlocks_append, IRFunction.instructionsAt,
    hblk, List.length_take_of_le hb.le, Nat.zero_add]
  rfl

/-- What has left a result before the instructions behind `pre` in block `b`. -/
def WrittenBefore (P : IRProgram) (fn : IRFunction) (b : Nat) (pre : List Nat) (c : Nat) : Prop :=
  ((∃ k < b, c ∈ fn.instructionsAt k) ∨ c ∈ pre) ∧
    ∃ i, P.instrAt c = some i ∧ i.writesResult = true

/-- What has been read before them. -/
def ReadBefore (P : IRProgram) (fn : IRFunction) (b : Nat) (pre : List Nat) (x : IRValueRef) :
    Prop :=
  (∃ k < b, ∃ r ∈ fn.instructionsAt k, x ∈ P.readsAt r) ∨ ∃ r ∈ pre, x ∈ P.readsAt r

lemma writes_plain {c : Nat} : Writes P (fun _ _ => false) b c ↔
    ∃ i, P.instrAt c = some i ∧ i.writesResult = true := by
  simp [Writes]

lemma plainAfter_tracks : Tracks P fn (fun c => (∃ k < b, c ∈ fn.instructionsAt k) ∧
    ∃ i, P.instrAt c = some i ∧ i.writesResult = true) (plainAfter P fn b) := by
  refine (translateBlocks_tracks 0 (fn.blocks.take b) findPhis_tracks).congr fun c => ?_
  rw [false_or, ← mem_take_blocks]
  constructor
  · rintro ⟨k, blk, hblk, hc, hw⟩
    exact ⟨⟨blk, List.mem_of_getElem? hblk, hc⟩, writes_plain.mp hw⟩
  · rintro ⟨⟨blk, hblk, hc⟩, hw⟩
    obtain ⟨k, hk⟩ := List.mem_iff_getElem?.mp hblk
    exact ⟨k, blk, hk, hc, writes_plain.mpr hw⟩

lemma plainBefore_tracks : Tracks P fn (WrittenBefore P fn b pre) (plainBefore P fn b pre) := by
  refine (translateInstrs_tracks pre plainAfter_tracks).congr fun c => ?_
  rw [writes_plain, ← or_and_right]
  rfl

lemma plainBefore_requested : Requested P (ReadBefore P fn b pre) (plainBefore P fn b pre) := by
  have hafter : Requested P _ (plainAfter P fn b) :=
    translateBlocks_requested 0 (fn.blocks.take b) findPhis_requested findPhis_tracks
  refine (translateInstrs_requested pre hafter plainAfter_tracks).mono fun x hx => ?_
  rcases hx with (hno | ⟨blk, hblk, r, hr, hx⟩) | hx
  · exact hno.elim
  · obtain ⟨k, hk, hr⟩ := mem_take_blocks.mp ⟨blk, hblk, hr⟩
    exact .inl ⟨k, hk, r, hr, hx⟩
  · exact .inr hx

lemma plain_deferred (x : IRValueRef) : (plainBefore P fn b pre).deferredCmps x = false := by
  exact (translateInstrs_reading pre (plainAfter_reading b) plainAfter_tracks).deferred x

/-! ### Definitions in their homes -/

lemma readsAt_subset (hx : x ∈ P.readsAt r) : x ∈ P.usesAt r ∧ P.isPhiAt r = false := by
  unfold IRProgram.readsAt at hx
  unfold IRProgram.usesAt IRProgram.isPhiAt
  cases hi : P.instrAt r with
  | none =>
    rw [hi] at hx
    cases hx
  | some i =>
    rw [hi] at hx
    cases i with
    | condBranch cond b₁ b₂ => exact ⟨hx, rfl⟩
    | phi ty entries => cases hx
    | _ => exact ⟨registerReads_subset x hx, rfl⟩

lemma wellFormedBlock_at (hwf : P.WellFormedSSA fn) (hr : r ∈ fn.instructionsAt b) :
    P.WellFormedBlock (fn.instructionsAt b) := by
  obtain ⟨blk, hblk, -⟩ := mem_instructionsAt.mp hr
  rw [IRFunction.instructionsAt, hblk]
  exact hwf.blocks blk (List.mem_of_getElem? hblk)

/-- An instruction reads nothing that stands behind it in its block. -/
lemma notMem_readsAt (hwf : P.WellFormedSSA fn) (hsplit : fn.instructionsAt b = pre ++ r :: post)
    {c : Nat} (hc : c ∈ post) : .instr c ∉ P.readsAt r := by
  intro hx
  obtain ⟨huse, hphi⟩ := readsAt_subset hx
  have hordered := (wellFormedBlock_at (b := b) (r := r) hwf (by simp [hsplit])).ordered
  rw [hsplit, List.pairwise_append, List.pairwise_cons] at hordered
  exact hordered.2.1.1 c hc hphi huse

/-- A register once chosen stays, but for the instruction's own result. -/
lemma translateInstr_keeps (ht : PhisMapped P fn t) {reg : VReg} (h : t.regMap x = some reg)
    (hx : x ≠ .instr r) : (translateInstr P fn d t r b).2.regMap x = some reg := by
  have hrequest : ∀ refs, (t.requestAll refs).regMap x = some reg := by
    intro refs
    rw [regMap_requestAll, regOf_of_some h, h, ite_self]
  cases hi : P.instrAt r with
  | none =>
    unfold translateInstr
    rw [hi]
    exact h
  | some i =>
    cases hterm : i.isTerminator with
    | true =>
      unfold translateInstr
      rw [hi]
      cases i with
      | branch target => exact h
      | ret value => exact h
      | condBranch cond b₁ b₂ =>
        dsimp only
        unfold translateCondBranch
        split_ifs
        · split
          · rename_i op ty a₁ a₂ _
            obtain ⟨-, -, hab⟩ := getValue_pair ht a₁ a₂
            dsimp only
            rw [hab]
            exact hrequest [a₁, a₂]
          · exact h
        · rw [getValue_eq ht]
          exact hrequest [cond]
      | _ => cases hterm
    | false =>
      cases hconst : i.isConst with
      | true =>
        unfold translateInstr
        rw [hi]
        cases i with
        | constInt ty value | constBool value =>
          dsimp only
          unfold Translator.emitImm64
          cases t.regMap (.instr r) with
          | some reg' => exact h
          | none =>
            dsimp only
            rw [regMap_assign, Function.update_of_ne hx]
            exact h
        | _ => cases hconst
      | false =>
        by_cases hdefer : i.isCompare = true ∧ d r b = true
        · rw [translateInstr_deferred hi hdefer.1 hdefer.2]
          exact h
        · have hno : i.isCompare = true → d r b = false := fun hcmp =>
            Bool.eq_false_iff.mpr fun hdr => hdefer ⟨hcmp, hdr⟩
          rw [translateInstr_eq ht hi hterm hconst hno, regMap_after, if_neg fun hself => hx hself.1,
            regOf_of_some h, h, ite_self]

variable (hwf : P.WellFormedSSA fn) (horder : InOrder P fn)

include hwf in
lemma notMem_of_split (hsplit : fn.instructionsAt b = pre ++ r :: post) :
    r ∉ pre ∧ r ∉ post ∧ ∀ k < b, r ∉ fn.instructionsAt k := by
  have hmem : r ∈ fn.instructionsAt b := by simp [hsplit]
  have hnodup := instructionsAt_nodup hwf.nodup b
  rw [hsplit, List.nodup_append, List.nodup_cons] at hnodup
  refine ⟨fun hr => hnodup.2.2 r hr r List.mem_cons_self rfl, hnodup.2.1.1, fun k hk hr => ?_⟩
  exact absurd (instructionsAt_unique hwf.nodup hr hmem) (Nat.ne_of_lt hk)

include hwf horder in
/-- A constant has not been requested before it is emitted. -/
lemma regMap_const (hsplit : fn.instructionsAt b = pre ++ r :: post) (hi : P.instrAt r = some i)
    (hconst : i.isConst = true) : (plainBefore P fn b pre).regMap (.instr r) = none := by
  obtain ⟨hpre, hpost, hearlier⟩ := notMem_of_split hwf hsplit
  have hphi : P.isPhiAt r = false := by
    rw [IRProgram.isPhiAt, hi]
    cases i <;> first | rfl | cases hconst
  by_contra hsome
  obtain ⟨reg, hreg⟩ := Option.ne_none_iff_exists'.mp hsome
  rcases plainBefore_tracks.home_or_requested hreg with rfl | rfl
  · have hhome : home P (.instr r) = .result r := if_neg (by rw [hphi]; exact Bool.false_ne_true)
    rw [hhome] at hreg
    rcases plainBefore_tracks.range _ _ hreg with hr | hr | ⟨r', hr', -, hw, -⟩
    · cases hr
    · rw [plainBefore_tracks.phiRegs] at hr
      obtain ⟨_, _, -, hr, -⟩ := phiRegs_eq_some hr
      cases hr
    · cases hr'
      rcases hw with ⟨k, hk, hr⟩ | hr
      · exact hearlier k hk hr
      · exact hpre hr
  · rcases plainBefore_requested.regMap _ hreg with ⟨k, hk, r', hr', hread⟩ | ⟨r', hr', hread⟩
    · obtain ⟨-, hemitted⟩ := horder.reads k r' hr' _ hread
      rcases hemitted with hr | ⟨k', hk', hr, -⟩
      · rw [hphi] at hr
        cases hr
      · exact hearlier k' (by omega) hr
    · obtain ⟨pre₁, pre₂, rfl⟩ := List.append_of_mem hr'
      have hsplit' : fn.instructionsAt b = pre₁ ++ r' :: (pre₂ ++ r :: post) := by
        rw [hsplit, List.append_assoc, List.cons_append]
      exact notMem_readsAt hwf hsplit' (List.mem_append_right _ List.mem_cons_self) hread

include hwf horder in
lemma regMap_written_step (hsplit : fn.instructionsAt b = pre ++ r :: post)
    (h : ∀ c, WrittenBefore P fn b pre c →
      (plainBefore P fn b pre).regMap (.instr c) = some (.result c)) {c : Nat}
    (hc : WrittenBefore P fn b (pre ++ [r]) c) :
    (plainBefore P fn b (pre ++ [r])).regMap (.instr c) = some (.result c) := by
  have ht : Tracks P fn _ (plainBefore P fn b pre) := plainBefore_tracks
  by_cases hcr : c = r
  · subst hcr
    obtain ⟨i, hi, -, hreg⟩ := plainBefore_tracks.written c hc
    rcases hreg with hreg | ⟨hconst, -⟩
    · exact hreg
    · have hnone := regMap_const hwf horder hsplit hi hconst
      rw [plainBefore_concat]
      unfold translateInstr
      rw [hi]
      cases i with
      | constInt ty value | constBool value =>
        dsimp only
        unfold Translator.emitImm64
        rw [hnone]
        exact Function.update_self ..
      | _ => cases hconst
  · rw [plainBefore_concat]
    apply translateInstr_keeps ht.toPhisMapped
    · obtain ⟨hmem, hw⟩ := hc
      apply h c ⟨hmem.imp_right fun hc' => ?_, hw⟩
      exact (List.mem_append.mp hc').resolve_right fun hr => hcr (List.mem_singleton.mp hr)
    · exact fun heq => hcr (IRValueRef.instr.inj heq)

include hwf horder in
lemma regMap_written_block (h : ∀ c, WrittenBefore P fn b [] c →
      (plainBefore P fn b []).regMap (.instr c) = some (.result c))
    (hsplit : fn.instructionsAt b = pre ++ post) {c : Nat} (hc : WrittenBefore P fn b pre c) :
    (plainBefore P fn b pre).regMap (.instr c) = some (.result c) := by
  induction pre using List.reverseRecOn generalizing post c with
  | nil => exact h c hc
  | append_singleton pre r ih =>
    have hnext : fn.instructionsAt b = pre ++ r :: post := by
      rw [hsplit, List.append_assoc, List.singleton_append]
    exact regMap_written_step hwf horder hnext (fun c hc => ih hnext hc) hc

include hwf horder in
lemma regMap_written_start (hb : b ≤ fn.blocks.length) {c : Nat} (hc : WrittenBefore P fn b [] c) :
    (plainBefore P fn b []).regMap (.instr c) = some (.result c) := by
  induction b generalizing c with
  | zero =>
    rcases hc.1 with ⟨k, hk, -⟩ | hno
    · cases hk
    · cases hno
  | succ b ih =>
    change (plainAfter P fn (b + 1)).regMap _ = _
    rw [plainAfter_succ hb]
    have hwhole : fn.instructionsAt b = fn.instructionsAt b ++ [] := (List.append_nil _).symm
    refine regMap_written_block hwf horder (fun c hc => ih (Nat.le_of_succ_le hb) hc) hwhole ?_
    refine ⟨?_, hc.2⟩
    rcases hc.1 with ⟨k, hk, hmem⟩ | hno
    · rcases Nat.lt_succ_iff_lt_or_eq.mp hk with hk | rfl
      · exact .inl ⟨k, hk, hmem⟩
      · exact .inr hmem
    · cases hno

include hwf horder in
/-- Every operand of an instruction is in its home. -/
lemma regOf_home (hsplit : fn.instructionsAt b = pre ++ r :: post) (hx : x ∈ P.readsAt r) :
    (plainBefore P fn b pre).regOf x = home P x := by
  have hmem : r ∈ fn.instructionsAt b := by simp [hsplit]
  have hb : b ≤ fn.blocks.length := by
    obtain ⟨blk, hblk, -⟩ := mem_instructionsAt.mp hmem
    exact (List.getElem?_eq_some_iff.mp hblk).1.le
  obtain ⟨hne, hemitted⟩ := horder.reads b r hmem x hx
  have hother : (∀ c, x ≠ .instr c) → (plainBefore P fn b pre).regOf x = home P x := by
    intro hno
    have hhome : home P x = .requested x := by
      cases x with
      | instr c => exact absurd rfl (hno c)
      | null => rfl
      | param f k => rfl
    rcases regOf_cases plainBefore_tracks x with hreg | hreg
    · exact hreg
    · rw [hreg, hhome]
  cases x with
  | null => exact hother fun c heq => nomatch heq
  | param f k => exact hother fun c heq => nomatch heq
  | instr c =>
    apply regOf_of_some
    by_cases hphi : P.isPhiAt c = true
    · have hc : c ∈ fn.refs := hwf.operands r (mem_refs_of_mem hmem) _ (readsAt_subset hx).1
      have hhome : home P (.instr c) = .phi c := if_pos hphi
      rw [hhome]
      exact plainBefore_tracks.regMap _ _ (plainBefore_tracks.phiRegs ▸ phiRegs_of_mem hc hphi)
    · have hhome : home P (.instr c) = .result c := if_neg hphi
      obtain ⟨k, hk, hc, hw⟩ := hemitted.resolve_left hphi
      rw [hhome]
      apply regMap_written_block hwf horder (fun c hc => regMap_written_start hwf horder hb hc) hsplit
      refine ⟨?_, hw⟩
      rcases Nat.lt_or_eq_of_le hk with hk | rfl
      · exact .inl ⟨k, hk, hc⟩
      · rw [hsplit, List.mem_append, List.mem_cons] at hc
        rcases hc with hc | rfl | hc
        · exact .inr hc
        · exact absurd rfl hne
        · exact absurd hx (notMem_readsAt hwf hsplit hc)

/-! ### The code by the homes -/

/-- The move of a PHI. -/
def homeMove (P : IRProgram) (src ref : Nat) : List VInstr :=
  match P.incoming src ref with
  | none => []
  | some x =>
    if x = .null then []
    else
      match P.constIntValue x with
      | some value => [.movImm (.phi ref) value]
      | none => [.mov (.phi ref) (home P x)]

def homeEdge (P : IRProgram) (fn : IRFunction) (src dst : Nat) : List VInstr :=
  (P.phisOf (fn.instructionsAt dst)).flatMap (homeMove P src)

/-- The code of instruction `r` of block `b`. -/
def homeInstr (P : IRProgram) (fn : IRFunction) (b r : Nat) : List VInstr :=
  match P.instrAt r with
  | some (.branch dst) => homeEdge P fn b dst ++ [.jmp (.block dst)]
  | some (.condBranch cond b₁ b₂) =>
    .testJumpTrue (home P cond) (.trueEdge r) :: (homeEdge P fn b b₂ ++ [.jmp (.block b₂)] ++
      [.bind (.trueEdge r)] ++ homeEdge P fn b b₁ ++ [.jmp (.block b₁)])
  | some (.ret _) => [.ret]
  | some i => lowerInstr P (home P) r i
  | none => []

def homeBlock (P : IRProgram) (fn : IRFunction) (b : Nat) : List VInstr :=
  .bind (.block b) :: (fn.instructionsAt b).flatMap (homeInstr P fn b)

def homeCode (P : IRProgram) (fn : IRFunction) : List VInstr :=
  (List.range fn.blocks.length).flatMap (homeBlock P fn)

include hwf horder in
lemma phiMove_home {dst ref : Nat} (hedge : dst ∈ P.blockSuccessors fn b)
    (href : ref ∈ P.phisOf (fn.instructionsAt dst)) :
    phiMove P (afterBlocks P fn (b + 1)) b ref = homeMove P b ref := by
  obtain ⟨blk, hblk, -⟩ := mem_instructionsAt.mp (List.mem_of_mem_filter href)
  have hinstrs : fn.instructionsAt dst = blk.instructions := by rw [IRFunction.instructionsAt, hblk]
  have hphis := edgePhis hwf hedge hblk
  obtain ⟨hmem, hphi⟩ := hphis.mem ref (hinstrs ▸ href)
  obtain ⟨x, hx, hnull⟩ := hphis.incoming ref (hinstrs ▸ href)
  have ht : Tracks P fn _ (afterBlocks P fn (b + 1)) := afterBlocks_tracks (b + 1)
  have hsource := phiSource_of_home hx hnull fun hconst => (regMap_home_iff hwf hmem hphi hx hnull
    hconst).mpr (horder.edges b dst hedge ref href x hx hconst)
  rw [phiMove_eq (ht.phiRegs ▸ phiRegs_of_mem hmem hphi), hsource]
  unfold homeMove operandSource
  rw [hx]
  dsimp only
  rw [if_neg hnull]
  cases P.constIntValue x <;> rfl

include hwf in
/-- The moves on an edge, one by one. -/
lemma emitPhiMovesForEdge_eq (t : Translator) (src dst : Nat) : emitPhiMovesForEdge P fn t src dst =
    (P.phisOf (fn.instructionsAt dst)).flatMap (phiMove P t src) := by
  unfold emitPhiMovesForEdge IRFunction.instructionsAt
  cases hblk : fn.blocks[dst]? with
  | none => rfl
  | some blk =>
    dsimp only
    rw [leadingPhis_eq (hwf.blocks blk (List.mem_of_getElem? hblk))]

include hwf horder in
/-- The moves on an edge. -/
lemma emitPhiMovesForEdge_home {dst : Nat} (hedge : dst ∈ P.blockSuccessors fn b) :
    emitPhiMovesForEdge P fn (plainAfter P fn (b + 1)) b dst = homeEdge P fn b dst := by
  rw [emitPhiMovesForEdge_eq hwf]
  apply List.flatMap_congr
  intro ref href
  have hmem := mem_refs_of_mem (List.mem_of_mem_filter href)
  rw [← phiMove_home hwf horder hedge href,
    (afterBlocks_twin hwf b (b + 1)).phiMove_eq (fun _ _ hd => hd) hmem]

include hwf in
lemma post_eq_nil (hsplit : fn.instructionsAt b = pre ++ r :: post) (hi : P.instrAt r = some i)
    (hterm : i.isTerminator = true) : post = [] := by
  have hbody := (wellFormedBlock_at (b := b) (r := r) hwf (by simp [hsplit])).body
  by_contra hne
  have hdrop := hbody r (by
    rw [hsplit, List.dropLast_append_cons, List.dropLast_cons_of_ne_nil hne]
    exact List.mem_append_right _ List.mem_cons_self)
  rw [IRProgram.isTerminatorAt, hi] at hdrop
  cases hterm.symm.trans hdrop

include hwf horder in
/-- The end of a block: its edges are emitted behind everything else of the block. -/
lemma translateInstr_home_terminator (hsplit : fn.instructionsAt b = pre ++ [r])
    (hi : P.instrAt r = some i) (hterm : i.isTerminator = true) :
    (translateInstr P fn (fun _ _ => false) (plainBefore P fn b pre) r b).1 =
      homeInstr P fn b r := by
  have ht : Tracks P fn _ (plainBefore P fn b pre) := plainBefore_tracks
  have hmem : r ∈ fn.instructionsAt b := by simp [hsplit]
  obtain ⟨blk, hblk, -⟩ := mem_instructionsAt.mp hmem
  have hlt := (List.getElem?_eq_some_iff.mp hblk).1
  have hsucc : P.blockSuccessors fn b = i.successors := by
    have hlast : blk.instructions.getLast? = some r := by
      rw [IRFunction.instructionsAt, hblk] at hsplit
      change blk.instructions = _ at hsplit
      rw [hsplit, List.getLast?_concat]
    unfold IRProgram.blockSuccessors
    rw [hblk]
    dsimp only
    rw [hlast]
    dsimp only
    rw [hi]
    rfl
  have hafter : (translateInstr P fn (fun _ _ => false) (plainBefore P fn b pre) r b).2 =
      plainAfter P fn (b + 1) := by
    rw [← plainBefore_concat, plainAfter_succ hlt, hsplit]
  have hedges : ∀ dst ∈ i.successors, emitPhiMovesForEdge P fn (translateInstr P fn
      (fun _ _ => false) (plainBefore P fn b pre) r b).2 b dst = homeEdge P fn b dst := by
    intro dst hdst
    rw [hafter]
    exact emitPhiMovesForEdge_home hwf horder (hsucc ▸ hdst)
  have hread : ∀ x ∈ P.readsAt r, (plainBefore P fn b pre).regOf x = home P x := fun x hx =>
    regOf_home hwf horder hsplit hx
  unfold IRProgram.readsAt at hread
  rw [hi] at hread
  unfold homeInstr
  unfold translateInstr at hedges ⊢
  rw [hi] at hedges ⊢
  cases i with
  | branch target =>
    dsimp only at hedges ⊢
    rw [hedges target (List.mem_singleton_self _)]
  | ret value => rfl
  | condBranch cond b₁ b₂ =>
    have hfalse : (plainBefore P fn b pre).deferredCmps cond = false := plain_deferred cond
    have hcode : translateCondBranch P fn (plainBefore P fn b pre) r cond b₁ b₂ b =
        (.testJumpTrue (home P cond) (.trueEdge r) ::
          emitEdges P fn ((plainBefore P fn b pre).request cond) r b₁ b₂ b,
          (plainBefore P fn b pre).request cond) := by
      unfold translateCondBranch
      rw [if_neg (by rw [hfalse]; exact Bool.false_ne_true), getValue_eq ht.toPhisMapped,
        hread cond (List.mem_singleton_self cond)]
    dsimp only at hedges ⊢
    rw [hcode] at hedges ⊢
    unfold emitEdges
    rw [hedges b₁ (List.mem_cons_of_mem _ List.mem_cons_self), hedges b₂ List.mem_cons_self]
  | _ => cases hterm

include hwf horder in
lemma translateInstr_home (hsplit : fn.instructionsAt b = pre ++ r :: post) :
    (translateInstr P fn (fun _ _ => false) (plainBefore P fn b pre) r b).1 =
      homeInstr P fn b r := by
  have ht : Tracks P fn _ (plainBefore P fn b pre) := plainBefore_tracks
  cases hi : P.instrAt r with
  | none =>
    unfold homeInstr translateInstr
    rw [hi]
  | some i =>
    cases hterm : i.isTerminator with
    | true =>
      obtain rfl := post_eq_nil hwf hsplit hi hterm
      exact translateInstr_home_terminator hwf horder hsplit hi hterm
    | false =>
      have hread : ∀ x ∈ registerReads P i, (plainBefore P fn b pre).regOf x = home P x := by
        intro x hx
        apply regOf_home hwf horder hsplit
        rw [IRProgram.readsAt, hi]
        cases i <;> first | exact hx | cases hterm
      unfold homeInstr
      rw [hi]
      cases hconst : i.isConst with
      | true =>
        have hnone := regMap_const hwf horder hsplit hi hconst
        unfold translateInstr
        rw [hi]
        cases i with
        | constInt ty value | constBool value =>
          dsimp only
          unfold Translator.emitImm64
          rw [hnone]
          rfl
        | _ => cases hconst
      | false =>
        rw [translateInstr_eq ht.toPhisMapped hi hterm hconst fun _ => rfl, lowerInstr_congr hread]
        cases i <;> first | rfl | cases hterm

include hwf horder in
lemma translateInstrs_home (hsplit : fn.instructionsAt b = pre ++ post) :
    (translateInstrs P fn (fun _ _ => false) b pre (plainAfter P fn b)).1 =
      pre.flatMap (homeInstr P fn b) := by
  induction pre using List.reverseRecOn generalizing post with
  | nil => rfl
  | append_singleton pre r ih =>
    have hnext : fn.instructionsAt b = pre ++ r :: post := by
      rw [hsplit, List.append_assoc, List.singleton_append]
    have hlast := translateInstr_home hwf horder hnext
    unfold plainBefore at hlast
    rw [translateInstrs_append, List.flatMap_append, ih hnext, List.flatMap_singleton]
    dsimp only [translateInstrs]
    rw [hlast, List.append_nil]

include hwf horder in
lemma translateBlocks_home (hb : b ≤ fn.blocks.length) :
    (translateBlocks P fn (fun _ _ => false) 0 (fn.blocks.take b) (findPhis P fn)).1 =
      (List.range b).flatMap (homeBlock P fn) := by
  induction b with
  | zero => rfl
  | succ b ih =>
    have hblk : fn.blocks[b]? = some fn.blocks[b] := List.getElem?_eq_getElem hb
    have hinstrs : fn.instructionsAt b = fn.blocks[b].instructions := by
      rw [IRFunction.instructionsAt, hblk]
    have hcode := translateInstrs_home hwf horder (List.append_nil (fn.instructionsAt b)).symm
    rw [List.take_add_one, hblk, Option.toList_some, translateBlocks_append, List.range_succ,
      List.flatMap_append, List.flatMap_singleton, ih (Nat.le_of_succ_le hb),
      List.length_take_of_le (Nat.le_of_succ_le hb), Nat.zero_add]
    dsimp only [translateBlocks, translateBlock]
    unfold homeBlock
    rw [← hinstrs, ← hcode, List.append_nil]
    rfl

include hwf horder in
/-- The code without deferred comparisons. -/
theorem translateFunction_home : translateFunctionWith P fn (fun _ _ => false) = homeCode P fn := by
  have hcode := translateBlocks_home hwf horder (Nat.le_refl fn.blocks.length)
  rw [List.take_length] at hcode
  exact hcode

/-! ### When the code refers to the homes only -/

lemma mem_translateInstrs {refs : List Nat} {v : VInstr}
    (hsplit : refs = pre ++ r :: post)
    (hv : v ∈ (translateInstr P fn d (translateInstrs P fn d b pre t).2 r b).1) :
    v ∈ (translateInstrs P fn d b refs t).1 := by
  rw [hsplit, translateInstrs_append]
  exact List.mem_append_right _ (List.mem_append_left _ hv)

/-- The code of an instruction is part of the function's. -/
lemma mem_translateFunction {v : VInstr} (hsplit : fn.instructionsAt b = pre ++ r :: post)
    (hv : v ∈ (translateInstr P fn (fun _ _ => false) (plainBefore P fn b pre) r b).1) :
    v ∈ translateFunctionWith P fn fun _ _ => false := by
  have hr : r ∈ fn.instructionsAt b := by simp [hsplit]
  obtain ⟨blk, hblk, -⟩ := mem_instructionsAt.mp hr
  obtain ⟨hb, rfl⟩ := List.getElem?_eq_some_iff.mp hblk
  rw [IRFunction.instructionsAt, hblk] at hsplit
  have hparts : fn.blocks = fn.blocks.take b ++ fn.blocks[b] :: fn.blocks.drop (b + 1) := by
    rw [← List.drop_eq_getElem_cons hb, List.take_append_drop]
  unfold translateFunctionWith
  rw [hparts, translateBlocks_append, List.length_take_of_le hb.le, Nat.zero_add]
  apply List.mem_append_right
  apply List.mem_append_left
  exact List.mem_cons_of_mem _ (mem_translateInstrs hsplit hv)

/-- Every operand is read by the code of its instruction. -/
lemma exists_reads_plain (hx : x ∈ P.readsAt r) :
    ∃ v ∈ (translateInstr P fn (fun _ _ => false) (plainBefore P fn b pre) r b).1,
      (plainBefore P fn b pre).regOf x ∈ v.reads := by
  have ht : Tracks P fn _ (plainBefore P fn b pre) := plainBefore_tracks
  unfold IRProgram.readsAt at hx
  cases hi : P.instrAt r with
  | none =>
    rw [hi] at hx
    cases hx
  | some i =>
    rw [hi] at hx
    cases hterm : i.isTerminator with
    | true =>
      cases i with
      | condBranch cond b₁ b₂ =>
        obtain rfl := List.mem_singleton.mp hx
        unfold translateInstr
        rw [hi]
        dsimp only
        unfold translateCondBranch
        rw [if_neg (by rw [plain_deferred]; exact Bool.false_ne_true), getValue_eq ht.toPhisMapped]
        exact ⟨_, List.mem_cons_self, List.mem_singleton_self _⟩
      | branch target | ret value => cases hx
      | _ => cases hterm
    | false =>
      have hread : x ∈ registerReads P i := by
        cases i <;> first | exact hx | cases hterm
      have hconst : i.isConst = false := by
        cases i <;> first | rfl | cases hread
      rw [translateInstr_eq ht.toPhisMapped hi hterm hconst fun _ => rfl]
      exact exists_reads hread

lemma home_ne_requested (x : IRValueRef) (c : Nat) : home P x ≠ .requested (.instr c) := by
  intro heq
  cases x with
  | instr c' =>
    change (if P.isPhiAt c' then VReg.phi c' else .result c') = _ at heq
    split_ifs at heq
  | null => cases heq
  | param f k => cases heq

lemma homeMove_reads {src ref : Nat} {v : VInstr} (hv : v ∈ homeMove P src ref) (c : Nat) :
    .requested (.instr c) ∉ v.reads := by
  intro hread
  unfold homeMove at hv
  cases hx : P.incoming src ref with
  | none =>
    rw [hx] at hv
    cases hv
  | some x =>
    rw [hx] at hv
    dsimp only at hv
    split_ifs at hv
    · cases hv
    · cases hconst : P.constIntValue x with
      | some value =>
        rw [hconst] at hv
        obtain rfl := List.mem_singleton.mp hv
        cases hread
      | none =>
        rw [hconst] at hv
        obtain rfl := List.mem_singleton.mp hv
        exact home_ne_requested x c (List.mem_singleton.mp hread).symm

lemma homeInstr_reads {v : VInstr} (hv : v ∈ homeInstr P fn b r) (c : Nat) :
    .requested (.instr c) ∉ v.reads := by
  intro hread
  have hedge : ∀ src dst, v ∉ homeEdge P fn src dst := by
    intro src dst hmem
    obtain ⟨ref, -, hmem⟩ := List.mem_flatMap.mp hmem
    exact homeMove_reads hmem c hread
  have hlower : ∀ i, v ∉ lowerInstr P (home P) r i := by
    intro i hmem
    rcases (lowerInstr_shape hmem).2.1 _ hread with ⟨y, -, heq⟩ | ⟨k, heq⟩
    · exact home_ne_requested y c heq.symm
    · cases heq
  unfold homeInstr at hv
  cases hi : P.instrAt r with
  | none =>
    rw [hi] at hv
    cases hv
  | some i =>
    rw [hi] at hv
    cases i with
    | branch target =>
      rcases List.mem_append.mp hv with hv | hv
      · exact hedge _ _ hv
      · obtain rfl := List.mem_singleton.mp hv
        cases hread
    | ret value =>
      obtain rfl := List.mem_singleton.mp hv
      cases hread
    | condBranch cond b₁ b₂ =>
      simp only [List.mem_cons, List.mem_append, List.not_mem_nil, or_false] at hv
      rcases hv with rfl | (((hv | rfl) | rfl) | hv) | rfl
      · exact home_ne_requested cond c (List.mem_singleton.mp hread).symm
      · exact hedge _ _ hv
      · cases hread
      · cases hread
      · exact hedge _ _ hv
      · cases hread
    | _ => exact hlower _ hv

lemma homeCode_reads {v : VInstr} (hv : v ∈ homeCode P fn) (c : Nat) :
    .requested (.instr c) ∉ v.reads := by
  obtain ⟨b, -, hv⟩ := List.mem_flatMap.mp hv
  rcases List.mem_cons.mp hv with rfl | hv
  · exact List.not_mem_nil
  · obtain ⟨r, -, hv⟩ := List.mem_flatMap.mp hv
    exact homeInstr_reads hv c

include hwf in
/-- Deferring comparisons changes nothing about the registers that are read. -/
lemma reads_plain (c : Nat) :
    (∃ v ∈ translateFunction P fn, .requested (.instr c) ∈ v.reads) ↔
      ∃ v ∈ translateFunctionWith P fn fun _ _ => false, .requested (.instr c) ∈ v.reads := by
  have hcode : FusedCode (Deferred P fn (canDeferComparison P fn)) none (translateFunction P fn)
      (translateFunctionWith P fn fun _ _ => false) none :=
    (findPhis_twin.blocks (fun _ _ hd => hd) hwf fun k blk hk => by rwa [Nat.zero_add]).1
  have hnone : VReg.requested (.instr c) ∉ Pending.reads none := List.not_mem_nil
  have hiff := hcode.reads_iff fun c' (heq : VReg.requested (.instr c) = .result c') => nomatch heq
  rwa [or_iff_left hnone, or_iff_left hnone] at hiff

/-- A register that was given out for an instruction is the home of one emitted before. -/
lemma defined_of_home {pre : List Nat} {c : Nat} (hphi : P.isPhiAt c = false)
    (hhome : (plainBefore P fn b pre).regOf (.instr c) = home P (.instr c)) :
    ((∃ k < b, c ∈ fn.instructionsAt k) ∨ c ∈ pre) ∧
      ∃ i, P.instrAt c = some i ∧ i.writesResult = true := by
  have ht : Tracks P fn _ (plainBefore P fn b pre) := plainBefore_tracks
  have hresult : home P (.instr c) = .result c := if_neg (hphi ▸ Bool.false_ne_true)
  have hreg : (plainBefore P fn b pre).regMap (.instr c) = some (.result c) := by
    rw [hresult] at hhome
    unfold Translator.regOf at hhome
    cases hreg : (plainBefore P fn b pre).regMap (.instr c) with
    | none =>
      rw [hreg] at hhome
      cases hhome
    | some reg =>
      rw [hreg] at hhome
      exact congrArg some hhome
  rcases ht.range _ _ hreg with hr' | hr' | ⟨c', hc', -, hmem, hw⟩
  · cases hr'
  · rw [ht.phiRegs] at hr'
    obtain ⟨_, _, -, hr', -⟩ := phiRegs_eq_some hr'
    cases hr'
  · cases hc'
    exact ⟨hmem, hw⟩

include hwf in
lemma emittedBy_of_refers (h : RefersToDefinitions P fn) (hr : r ∈ fn.instructionsAt b)
    {x : IRValueRef} (hx : x ∈ P.readsAt r) : x ≠ .instr r ∧ EmittedBy P fn b x := by
  obtain ⟨pre, post, hsplit⟩ := List.append_of_mem hr
  cases x with
  | null => exact ⟨IRValueRef.noConfusion, ⟨b, Nat.le_refl b, r, hr, hx⟩⟩
  | param f k => exact ⟨IRValueRef.noConfusion, ⟨b, Nat.le_refl b, r, hr, hx⟩⟩
  | instr c =>
    have ht : Tracks P fn _ (plainBefore P fn b pre) := plainBefore_tracks
    obtain ⟨v, hv, hread⟩ := @exists_reads_plain P fn b r _ pre hx
    have hne : (plainBefore P fn b pre).regOf (.instr c) ≠ .requested (.instr c) := by
      intro heq
      rw [heq] at hread
      obtain ⟨v', hv', hread'⟩ := (reads_plain hwf c).mpr
        ⟨v, mem_translateFunction hsplit hv, hread⟩
      exact h.reads v' hv' c hread'
    have hhome := (regOf_cases ht (.instr c)).resolve_right hne
    cases hphi : P.isPhiAt c with
    | true =>
      refine ⟨?_, .inl hphi⟩
      rintro heq
      cases heq
      rw [(readsAt_subset hx).2] at hphi
      cases hphi
    | false =>
      obtain ⟨hpre, -, hearlier⟩ := notMem_of_split hwf hsplit
      obtain ⟨hmem, hw⟩ := defined_of_home hphi hhome
      constructor
      · rintro heq
        cases heq
        rcases hmem with ⟨k, hk, hc⟩ | hc
        · exact hearlier k hk hc
        · exact hpre hc
      · rcases hmem with ⟨k, hk, hc⟩ | hc
        · exact .inr ⟨k, hk.le, hc, hw⟩
        · refine .inr ⟨b, Nat.le_refl b, ?_, hw⟩
          rw [hsplit]
          exact List.mem_append_left _ hc

/-- The move of the edge that writes a PHI is the PHI's own. -/
lemma phiSource_of_writes {t : Translator} {src ref ref' : Nat} {v : VInstr}
    (hv : v ∈ phiMove P t src ref') (hreg : t.phiRegs (.instr ref') = some (.phi ref'))
    (hwrites : v.writes = some (.phi ref)) (hreads : ∀ c, .requested (.instr c) ∉ v.reads) :
    ref' = ref ∧ ∃ source, phiSource P t src ref = some source ∧
      ∀ reg, source = .inr reg → ∀ c, reg ≠ .requested (.instr c) := by
  rw [phiMove_eq hreg] at hv
  cases hsource : phiSource P t src ref' with
  | none =>
    rw [hsource] at hv
    cases hv
  | some source =>
    rw [hsource] at hv
    cases source with
    | inl value =>
      obtain rfl := List.mem_singleton.mp hv
      cases hwrites
      exact ⟨rfl, _, hsource, fun _ heq => nomatch heq⟩
    | inr reg =>
      obtain rfl := List.mem_singleton.mp hv
      cases hwrites
      refine ⟨rfl, _, hsource, fun reg' heq c hreg' => hreads c ?_⟩
      cases heq
      rw [hreg']
      exact List.mem_singleton_self _

include hwf in
lemma edge_emittedBy_of_refers (h : RefersToDefinitions P fn) {src dst ref : Nat} {x : IRValueRef}
    (hedge : dst ∈ P.blockSuccessors fn src) (href : ref ∈ P.phisOf (fn.instructionsAt dst))
    (hx : P.incoming src ref = some x) (hconst : P.constIntValue x = none) :
    EmittedBy P fn src x := by
  obtain ⟨v, hv, hwrites, hreads⟩ := h.edges src dst hedge ref href
  obtain ⟨blk, hblk, -⟩ := mem_instructionsAt.mp (List.mem_of_mem_filter href)
  have hinstrs : fn.instructionsAt dst = blk.instructions := by
    rw [IRFunction.instructionsAt, hblk]
  have hphis := edgePhis hwf hedge hblk
  obtain ⟨hmem, hphi⟩ := hphis.mem ref (hinstrs ▸ href)
  obtain ⟨x', hx', hnull⟩ := hphis.incoming ref (hinstrs ▸ href)
  rw [hx] at hx'
  cases hx'
  have ht : Tracks P fn _ (afterBlocks P fn (src + 1)) := afterBlocks_tracks (src + 1)
  rw [← regMap_home_iff hwf hmem hphi hx hnull hconst]
  rw [emitPhiMovesForEdge_eq hwf] at hv
  obtain ⟨ref', href', hv⟩ := List.mem_flatMap.mp hv
  obtain ⟨hmem', hphi'⟩ := hphis.mem ref' (hinstrs ▸ href')
  obtain ⟨rfl, source, hsource, hnot⟩ :=
    phiSource_of_writes hv (ht.phiRegs ▸ phiRegs_of_mem hmem' hphi') hwrites hreads
  unfold phiSource at hsource
  rw [hx] at hsource
  dsimp only at hsource
  rw [if_neg hnull, hconst] at hsource
  obtain ⟨reg, hreg, rfl⟩ := Option.map_eq_some_iff.mp hsource
  rw [hreg]
  rcases ht.home_or_requested hreg with rfl | rfl
  · rfl
  · cases x with
    | instr c => exact absurd rfl (hnot _ rfl c)
    | null => rfl
    | param f k => rfl

include hwf in
lemma inOrder_of_refers (h : RefersToDefinitions P fn) : InOrder P fn where
  reads _ _ hr _ hx := emittedBy_of_refers hwf h hr hx
  edges _ _ hedge _ href _ hx hconst := edge_emittedBy_of_refers hwf h hedge href hx hconst

include hwf in
/-- The code refers to the registers of the definitions exactly if every definition is emitted
before what reads it. -/
theorem refersToDefinitions_iff : RefersToDefinitions P fn ↔ InOrder P fn := by
  refine ⟨inOrder_of_refers hwf, fun horder => ⟨fun v hv c hread => ?_, ?_⟩⟩
  · obtain ⟨v', hv', hread'⟩ := (reads_plain hwf c).mp ⟨v, hv, hread⟩
    rw [translateFunction_home hwf horder] at hv'
    exact homeCode_reads hv' c hread'
  · intro src dst hedge ref href
    obtain ⟨blk, hblk, -⟩ := mem_instructionsAt.mp (List.mem_of_mem_filter href)
    have hinstrs : fn.instructionsAt dst = blk.instructions := by
      rw [IRFunction.instructionsAt, hblk]
    obtain ⟨x, hx, hnull⟩ := (edgePhis hwf hedge hblk).incoming ref (hinstrs ▸ href)
    have hmove : ∃ v ∈ homeMove P src ref, v.writes = some (.phi ref) := by
      unfold homeMove
      rw [hx]
      dsimp only
      rw [if_neg hnull]
      cases P.constIntValue x with
      | some value => exact ⟨_, List.mem_singleton_self _, rfl⟩
      | none => exact ⟨_, List.mem_singleton_self _, rfl⟩
    obtain ⟨v, hv, hwrites⟩ := hmove
    refine ⟨v, ?_, hwrites, homeMove_reads hv⟩
    rw [emitPhiMovesForEdge_eq hwf]
    exact List.mem_flatMap.mpr ⟨ref, href, by rwa [phiMove_home hwf horder hedge href]⟩

end

end Proofs

end TidyTuples
