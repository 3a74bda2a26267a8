import TidyTuples.Proofs.DeadChains

/-!
# Dangling operands

One cache of constants serves the whole program, so a constant lies where it was first requested, be
that another function or a block that is never entered and is cleared. Every other instruction lies
where it was asked for.
-/

namespace TidyTuples

namespace BuilderCall

/-- One of the calls, made at block `b` of function `f`, turns `p` into `q`. -/
def Makes (calls : List BuilderCall) (f b : Nat) (p q : IRProgram) : Prop :=
  ∃ before c after, calls = before ++ c :: after ∧ build before = some p ∧ c.apply p = some q ∧
    p.currentFnIdx = f ∧ p.currentBlkIdx = b

/-- The call that wrote the record at `off` was made at block `b` of function `f`. -/
def WrittenAt (calls : List BuilderCall) (off f b : Nat) : Prop :=
  ∃ p q, Makes calls f b p q ∧ p.dataSize = off ∧ off < q.dataSize

/-- The call that was the first to request a constant with the key was made at block `b` of
function `f`. -/
def FirstRequestedAt (calls : List BuilderCall) (key : Word) (f b : Nat) : Prop :=
  ∃ p q r, Makes calls f b p q ∧ q.constRequests = r :: p.constRequests ∧
    IRProgram.constKey r.value r.type = key ∧ p.firstRequest key = none

/-- Where the instruction at `off` was first asked for. -/
def AskedAt (calls : List BuilderCall) (p : IRProgram) (off f b : Nat) : Prop :=
  match p.instrAt off with
  | some (.constInt t v) => FirstRequestedAt calls (IRProgram.constKey v t) f b
  | _ => WrittenAt calls off f b

end BuilderCall

namespace Proofs

open IRProgram BuilderCall

/-- An operand of the record, PHI entries from blocks that control cannot reach apart. -/
def LiveOperand (p : IRProgram) (fn : IRFunction) (x : IRValueRef) : Instr → Prop
  | .phi _ entries => ∃ entry ∈ entries, entry.1 = x ∧
      ¬ (entry.2 < fn.blocks.length ∧ ¬ Reachable p fn entry.2)
  | i => x ∈ i.operands

/-- Every operand of what is left is `NullRef`, a parameter, or an instruction that is left in the
same function. -/
def NoDanglingOperand (p : IRProgram) : Prop :=
  ∀ (f : Nat) (fn fn' : IRFunction), p.functions[f]? = some fn →
    p.eliminateDeadCode.functions[f]? = some fn' → ∀ off, BelongsTo off fn' →
    ∀ i, p.eliminateDeadCode.instrAt off = some i →
    ∀ o, LiveOperand p fn (.instr o) i → BelongsTo o fn'

/-- A call at a block that control can reach has the result as an operand. -/
def UsedLive (calls : List BuilderCall) (p : IRProgram) (off : Nat) : Prop :=
  ∃ f fn b user i, p.functions[f]? = some fn ∧ Reachable p fn b ∧ WrittenAt calls user f b ∧
    p.instrAt user = some i ∧ .instr off ∈ i.operands

/-- Of the calls that are made at blocks that control can reach, those whose record has a side effect
or is used there have operands first asked for at such blocks of the same function. -/
def AsksLive (calls : List BuilderCall) (p : IRProgram) : Prop :=
  ∀ f fn b off i, p.functions[f]? = some fn → Reachable p fn b → WrittenAt calls off f b →
    p.instrAt off = some i → (i.hasSideEffect = true ∨ UsedLive calls p off) →
    ∀ o, LiveOperand p fn (.instr o) i → ∃ b', Reachable p fn b' ∧ AskedAt calls p o f b'

section

variable {p q : IRProgram} {calls : List BuilderCall} {off f b : Nat} {c : BuilderCall}

lemma LiveOperand.mem {fn : IRFunction} {x : IRValueRef} {i : Instr} (h : LiveOperand p fn x i) :
    x ∈ i.operands := by
  cases i with
  | phi t entries =>
    obtain ⟨entry, hmem, rfl, -⟩ := h
    exact List.mem_map_of_mem hmem
  | _ => exact h

/-! ### Where a call is made -/

lemma build_concat_iff : build (calls ++ [c]) = some q ↔
    ∃ p, build calls = some p ∧ c.apply p = some q := by
  unfold build
  rw [List.foldlM_append]
  simp only [List.foldlM_cons, List.foldlM_nil, bind_pure]
  exact Option.bind_eq_some_iff

/-- The last call or an earlier one. -/
lemma makes_concat_iff {p' q' : IRProgram} (hbuild : build calls = some p) (happly : c.apply p = some q) :
    Makes (calls ++ [c]) f b p' q' ↔ Makes calls f b p' q' ∨
      p' = p ∧ q' = q ∧ p.currentFnIdx = f ∧ p.currentBlkIdx = b := by
  constructor
  · rintro ⟨before, c', after, heq, hbefore, hc', hf, hb⟩
    rcases List.eq_nil_or_concat' after with rfl | ⟨after, last, rfl⟩
    · obtain ⟨rfl, hlast⟩ := List.append_inj' heq rfl
      cases hlast
      cases hbuild.symm.trans hbefore
      cases happly.symm.trans hc'
      exact .inr ⟨rfl, rfl, hf, hb⟩
    · rw [← List.cons_append, ← List.append_assoc] at heq
      obtain ⟨rfl, -⟩ := List.append_inj' heq rfl
      exact .inl ⟨before, c', after, rfl, hbefore, hc', hf, hb⟩
  · rintro (⟨before, c', after, rfl, hbefore, hc', hf, hb⟩ | ⟨rfl, rfl, hf, hb⟩)
    · exact ⟨before, c', after ++ [c], by simp, hbefore, hc', hf, hb⟩
    · exact ⟨calls, c, [], rfl, hbuild, happly, hf, hb⟩

/-- What holds behind a call and is kept by every call holds in the end. -/
lemma makes_later {I : IRProgram → Prop} {p' q' : IRProgram} (h : Makes calls f b p' q') (hI : I q')
    (hstep : ∀ p c q, I p → BuilderCall.apply p c = some q → I q) (hbuild : build calls = some p) :
    I p := by
  obtain ⟨before, c, after, rfl, hbefore, hc, -⟩ := h
  have hrun : ∀ (cs : List BuilderCall) p₀, I p₀ → cs.foldlM BuilderCall.apply p₀ = some p → I p := by
    intro cs
    induction cs with
    | nil =>
      intro p₀ h₀ h
      cases h
      exact h₀
    | cons c cs ih =>
      intro p₀ h₀ h
      rw [List.foldlM_cons] at h
      obtain ⟨p₁, h₁, hrest⟩ := Option.bind_eq_some_iff.mp h
      exact ih p₁ (hstep p₀ c p₁ h₀ h₁) hrest
  unfold build at hbuild hbefore
  rw [List.foldlM_append, hbefore, Option.bind_eq_bind, Option.bind_some, List.foldlM_cons] at hbuild
  obtain ⟨p₁, h₁, hrest⟩ := Option.bind_eq_some_iff.mp hbuild
  cases hc.symm.trans h₁
  exact hrun after _ hI hrest

/-! ### Where a record stands -/

lemma addConstInt_inBlock {v : Word} {t : IRType}
    (hpoint : (p.addConstInt v t).2.dataSize = p.dataSize ∨ p.HasInsertionPoint) (off f b : Nat) :
    (p.addConstInt v t).2.InBlock off f b ↔ p.InBlock off f b ∨
      p.dataSize < (p.addConstInt v t).2.dataSize ∧ off = p.dataSize ∧ f = p.currentFnIdx ∧
        b = p.currentBlkIdx := by
  cases hl : p.constIntCache.lookup (constKey v t) with
  | some o =>
    rw [addConstInt_hit hl]
    exact (or_iff_left fun hlt => absurd hlt.1 (Nat.lt_irrefl _)).symm
  | none =>
    have hsize : p.dataSize < (p.addConstInt v t).2.dataSize := by
      rw [addConstInt_miss hl]
      exact Nat.lt_add_of_pos_right (Instr.constInt t v).byteSize_pos
    have hin := emit_inBlock (hpoint.resolve_left (Nat.ne_of_gt hsize)) (.constInt t v) off f b
    rw [and_iff_right hsize, addConstInt_miss hl]
    exact hin

/-- A call puts what it writes into the current block. -/
lemma apply_inBlock (h : c.apply p = some q) (off f b : Nat) : q.InBlock off f b ↔
    p.InBlock off f b ∨ p.dataSize < q.dataSize ∧ off = p.dataSize ∧ f = p.currentFnIdx ∧
      b = p.currentBlkIdx := by
  rcases apply_cases h with hkeep | ⟨i, ⟨rfl, hpoint⟩, -, -⟩ | ⟨v, t, rfl, hpoint⟩ |
    ⟨r, idx, v, b', -, hpatch⟩
  · rw [hkeep.inBlock]
    refine (or_iff_left fun hlt => ?_).symm
    have hsame : q.dataSize = p.dataSize := by rw [dataSize, hkeep.instrData, dataSize]
    exact absurd hlt.1 (hsame ▸ Nat.lt_irrefl _)
  · have hsize : p.dataSize < (p.emit i).2.dataSize := Nat.lt_add_of_pos_right i.byteSize_pos
    rw [and_iff_right hsize]
    exact emit_inBlock hpoint i off f b
  · exact addConstInt_inBlock hpoint off f b
  · obtain ⟨phi, ty, entries, -, hphi, -, rfl⟩ := patchPhiEntry_cases hpatch
    refine (or_iff_left fun hlt => ?_).symm
    have hsame := @patch_dataSize p phi ty entries (entries.set idx (v, b')) hphi (List.length_set ..)
    exact absurd hlt.1 (hsame ▸ Nat.lt_irrefl _)

/-- An instruction stands in the block at which the call that wrote it was made. -/
theorem inBlock_iff (h : build calls = some p) : p.InBlock off f b ↔ WrittenAt calls off f b := by
  induction calls using List.reverseRecOn generalizing p with
  | nil =>
    cases h
    constructor
    · rintro ⟨fn, blk, hfn, -⟩
      cases hfn
    · rintro ⟨p, q, ⟨before, c, after, heq, -⟩, -⟩
      exact absurd heq.symm (List.append_ne_nil_of_right_ne_nil _ (List.cons_ne_nil _ _))
  | append_singleton calls c ih =>
    obtain ⟨p₀, hbuild, happly⟩ := build_concat_iff.mp h
    rw [apply_inBlock happly, ih hbuild]
    unfold WrittenAt
    simp only [makes_concat_iff hbuild happly]
    constructor
    · rintro (⟨p', q', hmakes, hoff⟩ | ⟨hlt, rfl, rfl, rfl⟩)
      · exact ⟨p', q', .inl hmakes, hoff⟩
      · exact ⟨p₀, p, .inr ⟨rfl, rfl, rfl, rfl⟩, rfl, hlt⟩
    · rintro ⟨p', q', hmakes | ⟨rfl, rfl, rfl, rfl⟩, rfl, hlt⟩
      · exact .inl ⟨p', q', hmakes, rfl, hlt⟩
      · exact .inr ⟨hlt, rfl, rfl, rfl⟩

/-! ### Where a constant stands -/

lemma apply_firstRequest (h : c.apply p = some q) {key : Word} {r : ConstRequest}
    (hr : p.firstRequest key = some r) : q.firstRequest key = some r := by
  have hcons : ∀ (q : IRProgram) r', q.constRequests = r' :: p.constRequests →
      q.firstRequest key = some r := fun q r' hq => by
    rw [firstRequest_cons r' key hq, hr, Option.some_or]
  have hsame : ∀ q : IRProgram, q.constRequests = p.constRequests → q.firstRequest key = some r :=
    fun q hq => by rw [firstRequest, hq, ← firstRequest, hr]
  rcases apply_cases h with hkeep | ⟨i, ⟨rfl, -⟩, -, -⟩ | ⟨v, t, rfl, -⟩ |
    ⟨r', idx, v, b', -, hpatch⟩
  · exact hsame q hkeep.requests
  · exact hsame _ (emit_constRequests i)
  · cases hl : p.constIntCache.lookup (constKey v t) with
    | some o => exact hcons _ _ (by rw [addConstInt_hit hl])
    | none => exact hcons _ _ (by rw [addConstInt_miss hl])
  · obtain ⟨phi, ty, entries, -, -, -, rfl⟩ := patchPhiEntry_cases hpatch
    exact hsame _ rfl

/-- Every constant answers the first request under its key. -/
def ConstsFirst (p : IRProgram) : Prop := ∀ off t v, p.instrAt off = some (.constInt t v) →
  p.firstRequest (constKey v t) = some ⟨t, v, off⟩

lemma build_constsFirst (h : build calls = some p) : ConstsFirst p := by
  have hboth : CacheFaithful p ∧ ConstsFirst p := by
    refine build_invariant (I := fun p => CacheFaithful p ∧ ConstsFirst p) ?_ ?_ h
    · have hnil : build [] = some {} := rfl
      exact ⟨build_cacheFaithful hnil, fun off t v hi => by cases hi⟩
    · rintro p c q ⟨hcache, hp⟩ hq
      refine ⟨hcache.apply hq, fun off t v hi => ?_⟩
      rcases apply_cases hq with hkeep | ⟨i, ⟨rfl, -⟩, hconst, -⟩ | ⟨v', t', rfl, -⟩ |
        ⟨r', idx, v', b', -, hpatch⟩
      · rw [instrAt, hkeep.instrData] at hi
        exact apply_firstRequest hq (hp off t v hi)
      · rw [emit_instrAt] at hi
        split_ifs at hi
        · cases hi
          cases hconst
        · exact apply_firstRequest hq (hp off t v hi)
      · cases hl : p.constIntCache.lookup (constKey v' t') with
        | some o =>
          rw [addConstInt_hit hl] at hi
          exact apply_firstRequest hq (hp off t v hi)
        | none =>
          have hi' := hi
          rw [addConstInt_miss hl] at hi'
          change (p.emit (.constInt t' v')).2.instrAt off = _ at hi'
          rw [emit_instrAt] at hi'
          split_ifs at hi' with hoff
          · cases hi'
            have hnone := Option.map_eq_none_iff.mp ((hcache.lookup _).symm.trans hl)
            rw [firstRequest_cons (p := p) ⟨t, v, p.dataSize⟩ _ (by rw [addConstInt_miss hl]), hnone,
              Option.none_or, if_pos rfl, hoff]
          · exact apply_firstRequest hq (hp off t v hi')
      · obtain ⟨phi, ty, entries, -, hphi, -, rfl⟩ := patchPhiEntry_cases hpatch
        rw [patch_instrAt hphi] at hi
        split_ifs at hi
        · cases hi
        · exact apply_firstRequest hq (hp off t v hi)
  exact hboth.2

/-- A record stays as it was written, if it is no PHI. -/
lemma written_instrAt {p' q' : IRProgram} (h : Makes calls f b p' q') (hbuild : build calls = some p)
    (hoff : off < q'.dataSize) :
    p.instrAt off = q'.instrAt off ∨ ∃ t entries, p.instrAt off = some (.phi t entries) := by
  refine (makes_later (I := fun p => off < p.dataSize ∧ (p.instrAt off = q'.instrAt off ∨
    ∃ t entries, p.instrAt off = some (.phi t entries))) h ⟨hoff, .inl rfl⟩ ?_ hbuild).2
  rintro p c q ⟨hlt, hp⟩ hq
  have hemit : ∀ i : Instr, (p.emit i).2.instrAt off = p.instrAt off := fun i => by
    rw [emit_instrAt, if_neg (Nat.ne_of_lt hlt)]
  rcases apply_cases hq with hkeep | ⟨i, ⟨rfl, -⟩, -, -⟩ | ⟨v, t, rfl, -⟩ |
    ⟨r, idx, v, b', -, hpatch⟩
  · rw [instrAt, dataSize, hkeep.instrData]
    exact ⟨hlt, hp⟩
  · rw [hemit]
    exact ⟨Nat.lt_add_right _ hlt, hp⟩
  · cases hl : p.constIntCache.lookup (constKey v t) with
    | some o =>
      rw [addConstInt_hit hl]
      exact ⟨hlt, hp⟩
    | none =>
      rw [addConstInt_miss hl]
      change off < (p.emit (.constInt t v)).2.dataSize ∧
        ((p.emit (.constInt t v)).2.instrAt off = _ ∨ _)
      rw [emit_dataSize]
      refine ⟨Nat.lt_add_right _ hlt, ?_⟩
      have hsame := hemit (.constInt t v)
      rcases hp with hp | ⟨t', entries, hp⟩
      · exact .inl (hsame.trans hp)
      · exact .inr ⟨t', entries, hsame.trans hp⟩
  · obtain ⟨phi, ty, entries, -, hphi, -, rfl⟩ := patchPhiEntry_cases hpatch
    rw [patch_instrAt hphi, patch_dataSize hphi (List.length_set ..)]
    refine ⟨hlt, ?_⟩
    split_ifs
    · exact .inr ⟨ty, _, rfl⟩
    · exact hp

/-- A constant stands where the first request under its key was made. -/
theorem constWritten_iff (hbuild : build calls = some p) {t : IRType} {v : Word}
    (hi : p.instrAt off = some (.constInt t v)) :
    WrittenAt calls off f b ↔ FirstRequestedAt calls (constKey v t) f b := by
  constructor
  · rintro ⟨p', q', hmakes, rfl, hlt⟩
    have ⟨before, c, after, _, hbefore, hc, _⟩ := hmakes
    have hrecord : q'.instrAt p'.dataSize = some (.constInt t v) := by
      rcases written_instrAt hmakes hbuild hlt with hsame | ⟨t', entries, hphi⟩
      · rw [← hsame, hi]
      · rw [hi] at hphi
        cases hphi
    rcases apply_cases hc with hkeep | ⟨i, ⟨rfl, -⟩, hconst, -⟩ | ⟨v', t', rfl, -⟩ |
      ⟨r, idx, v', b', -, hpatch⟩
    · have hsame : q'.dataSize = p'.dataSize := by rw [dataSize, hkeep.instrData, dataSize]
      exact absurd hlt (hsame ▸ Nat.lt_irrefl _)
    · rw [emit_self] at hrecord
      cases hrecord
      cases hconst
    · cases hl : p'.constIntCache.lookup (constKey v' t') with
      | some o =>
        rw [addConstInt_hit hl] at hlt
        exact absurd hlt (Nat.lt_irrefl _)
      | none =>
        have hnone := Option.map_eq_none_iff.mp (((build_cacheFaithful hbefore).lookup _).symm.trans hl)
        have hemit : (p'.emit (.constInt t' v')).2.instrAt p'.dataSize = some (.constInt t v) := by
          rwa [addConstInt_miss hl] at hrecord
        cases (emit_self (Instr.constInt t' v')).symm.trans hemit
        exact ⟨p', _, ⟨t, v, p'.dataSize⟩, hmakes, by rw [addConstInt_miss hl], rfl, hnone⟩
    · obtain ⟨phi, ty, entries, -, hphi, -, rfl⟩ := patchPhiEntry_cases hpatch
      rw [patch_dataSize hphi (List.length_set ..)] at hlt
      exact absurd hlt (Nat.lt_irrefl _)
  · rintro ⟨p', q', r, hmakes, hcons, hkey, hnone⟩
    have ⟨before, c, after, _, hbefore, hc, _⟩ := hmakes
    have hfirst : q'.firstRequest (constKey v t) = some r := by
      rw [firstRequest_cons r _ hcons, hnone, Option.none_or, if_pos hkey]
    have hlast := makes_later (I := fun p => p.firstRequest (constKey v t) = some r) hmakes hfirst
      (fun _ _ _ hr hc => apply_firstRequest hc hr) hbuild
    cases (build_constsFirst hbuild off t v hi).symm.trans hlast
    have hne : q'.constRequests ≠ p'.constRequests := by
      rw [hcons]
      exact List.cons_ne_self _ _
    rcases apply_cases hc with hkeep | ⟨i, ⟨rfl, -⟩, -, -⟩ | ⟨v', t', rfl, -⟩ |
      ⟨r, idx, v', b', -, hpatch⟩
    · exact absurd hkeep.requests hne
    · exact absurd (emit_constRequests i) hne
    · have hl : p'.constIntCache.lookup (constKey v' t') = none := by
        rw [(build_cacheFaithful hbefore).lookup]
        cases hl : p'.constIntCache.lookup (constKey v' t') with
        | none => exact ((build_cacheFaithful hbefore).lookup _).symm.trans hl
        | some o =>
          rw [addConstInt_hit hl] at hcons
          cases (List.cons.inj hcons).1
          rw [hnone]
          rfl
      rw [addConstInt_miss hl] at hcons
      cases (List.cons.inj hcons).1
      refine ⟨p', _, hmakes, rfl, ?_⟩
      rw [addConstInt_miss hl]
      exact Nat.lt_add_of_pos_right (Instr.constInt t v).byteSize_pos
    · obtain ⟨phi, ty, entries, -, -, -, rfl⟩ := patchPhiEntry_cases hpatch
      exact absurd rfl hne

/-- Every instruction stands where it was first asked for. -/
lemma askedAt_iff (h : build calls = some p) : AskedAt calls p off f b ↔ p.InBlock off f b := by
  rw [inBlock_iff h]
  unfold AskedAt
  split
  · next t v hi => exact (constWritten_iff h hi).symm
  · exact Iff.rfl

/-! ### What is left -/

lemma reached_iff {fn : IRFunction} (hf : p.functions[f]? = some fn) :
    Reached p fn off ↔ ∃ b, Reachable p fn b ∧ p.InBlock off f b := by
  constructor
  · rintro ⟨b, hb, blk, hblk, hoff⟩
    exact ⟨b, reachable_of_mem hb, fn, blk, hf, hblk, hoff⟩
  · rintro ⟨b, hb, fn', blk, hf', hblk, hoff⟩
    cases hf.symm.trans hf'
    exact ⟨b, mem_reachableBlocks hb (List.getElem?_eq_some_iff.mp hblk).1, blk, hblk, hoff⟩

lemma usedLive_iff (h : build calls = some p) : UsedLive calls p off ↔ UsedInReached p off := by
  constructor
  · rintro ⟨f, fn, b, user, i, hf, hb, hat, hi, huse⟩
    refine ⟨fn, List.mem_of_getElem? hf, user, (reached_iff hf).mpr ⟨b, hb, (inBlock_iff h).mpr hat⟩, i,
      hi, ?_⟩
    rwa [Instr.uses_eq_operands (build_fits h hi)]
  · rintro ⟨fn, hfn, user, huser, i, hi, huse⟩
    obtain ⟨f, hf⟩ := List.mem_iff_getElem?.mp hfn
    obtain ⟨b, hb, hin⟩ := (reached_iff hf).mp huser
    refine ⟨f, fn, b, user, i, hf, hb, (inBlock_iff h).mp hin, hi, ?_⟩
    rwa [← Instr.uses_eq_operands (build_fits h hi)]

/-- No operand dangles exactly if what is left was handed operands that were first asked for, in the
same function, at blocks that control can reach. -/
theorem noDanglingOperand_iff (h : build calls = some p) :
    NoDanglingOperand p ↔ AsksLive calls p := by
  have hleft_iff : ∀ {f : Nat} {fn : IRFunction} {off : Nat} {i : Instr}, p.functions[f]? = some fn → p.instrAt off = some i →
      (BelongsTo off (eliminated p fn) ↔ (∃ b, Reachable p fn b ∧ WrittenAt calls off f b) ∧
        (i.hasSideEffect = true ∨ UsedLive calls p off)) := by
    intro f fn off i hf hi
    rw [belongsTo_eliminated_iff, reached_iff hf, keepInstr_iff hi, usedLive_iff h]
    simp only [inBlock_iff h]
  have heliminated : ∀ {f : Nat} {fn : IRFunction}, p.functions[f]? = some fn →
      p.eliminateDeadCode.functions[f]? = some (eliminated p fn) := by
    intro f fn hf
    rw [eliminateDeadCode_functions, List.getElem?_map, hf]
    rfl
  constructor
  · intro hnot f fn b off i hf hb hat hi hkept o ho
    have hleft := hnot f fn _ hf (heliminated hf) off ((hleft_iff hf hi).mpr ⟨⟨b, hb, hat⟩, hkept⟩) i
      hi o ho
    obtain ⟨b', hb', hin⟩ := (reached_iff hf).mp (belongsTo_eliminated_iff.mp hleft).1
    exact ⟨b', hb', (askedAt_iff h).mpr hin⟩
  · intro hasks f fn fn' hf hf' off hleft i hi o ho
    cases (heliminated hf).symm.trans hf'
    obtain ⟨⟨b, hb, hat⟩, hkept⟩ := (hleft_iff hf hi).mp hleft
    obtain ⟨b', hb', hasked⟩ := hasks f fn b off i hf hb hat hi hkept o ho
    have huse : .instr o ∈ i.uses := by
      rw [Instr.uses_eq_operands (build_fits h hi)]
      exact ho.mem
    have hreached := (reached_iff hf).mpr ⟨b, hb, (inBlock_iff h).mpr hat⟩
    have hused := mem_usedInReachable (List.mem_of_getElem? hf) hreached hi huse
    refine belongsTo_eliminated_iff.mpr ⟨(reached_iff hf).mpr ⟨b', hb', (askedAt_iff h).mp hasked⟩, ?_⟩
    rw [keepInstr, decide_eq_true hused, Bool.or_true]

/-- The constant 7 is requested in the entry, in a block that is never entered, and in the last one. -/
def sharedSeven : List BuilderCall :=
  [.beginFunction "f" .int64 [], .addBlock "exit", .addBlock "never", .addConstInt 7 .int64,
    .addBranch 1, .setInsertionPoint 0 2, .addConstInt 7 .int64, .addReturn (.instr 0),
    .setInsertionPoint 0 1, .addConstInt 7 .int64, .addReturn (.instr 0)]

theorem noDanglingOperand_iff_sharedSeven : ∃ p, BuilderCall.build sharedSeven = some p ∧
    NoDanglingOperand p := by
  have hbuild : BuilderCall.build sharedSeven = some
      ((BuilderCall.build sharedSeven).get (by decide)) := (Option.some_get _).symm
  refine ⟨_, hbuild, (noDanglingOperand_iff hbuild).mpr ?_⟩
  generalize hp : (BuilderCall.build sharedSeven).get (by decide) = p at hbuild
  -- the only operand is the constant, which the entry was the first to request
  have hoperands : ∀ fn ∈ p.functions, ∀ blk ∈ fn.blocks, ∀ off ∈ blk.instructions,
      ∀ i ∈ p.instrAt off, ∀ r ∈ i.operands, r = .instr 0 := by
    rw [← hp]
    decide
  have hfirst : p.functions.length = 1 ∧ p.InBlock 0 0 0 := by
    rw [← hp]
    exact ⟨by decide, _, _, rfl, rfl, by decide⟩
  intro f fn b off i hf hb hat hi hkept o ho
  obtain ⟨fn', blk, hf', hblk, hoff⟩ := (inBlock_iff hbuild).mpr hat
  have hzero : f = 0 := by
    have hlt := (List.getElem?_eq_some_iff.mp hf).1
    omega
  cases hoperands fn' (List.mem_of_getElem? hf') blk (List.mem_of_getElem? hblk) off hoff i hi _ ho.mem
  exact ⟨0, .entry, (askedAt_iff hbuild).mpr (hzero ▸ hfirst.2)⟩

/-- The constant 7 is requested in a block that is never entered, and again in the entry. -/
def sharedConstant : List BuilderCall :=
  [.beginFunction "f" .int64 [], .addBlock "never", .setInsertionPoint 0 1,
    .addConstInt 7 .int64, .setInsertionPoint 0 0, .addConstInt 7 .int64, .addReturn (.instr 0)]

theorem sharedConstant_dangles : ¬ ∀ calls p, BuilderCall.build calls = some p →
    NoDanglingOperand p := by
  intro h
  have hbuild : BuilderCall.build sharedConstant = some
      ((BuilderCall.build sharedConstant).get (by decide)) := (Option.some_get _).symm
  generalize hp : (BuilderCall.build sharedConstant).get (by decide) = p at hbuild
  have hbad : ∃ fn fn', p.functions[0]? = some fn ∧ p.eliminateDeadCode.functions[0]? = some fn' ∧
      BelongsTo 16 fn' ∧ p.eliminateDeadCode.instrAt 16 = some (.ret (.instr 0)) ∧
      ¬ BelongsTo 0 fn' := by
    subst hp
    exact ⟨((BuilderCall.build sharedConstant).get (by decide)).functions.get ⟨0, by decide⟩,
      ((BuilderCall.build sharedConstant).get (by decide)).eliminateDeadCode.functions.get
        ⟨0, by decide⟩, by decide⟩
  obtain ⟨fn, fn', hfn, hfn', hleft, hi, hnot⟩ := hbad
  exact hnot (h _ p hbuild 0 fn fn' hfn hfn' 16 hleft _ hi 0 (List.mem_singleton.mpr rfl))

end

end Proofs

end TidyTuples
