import TidyTuples.Proofs.CodeForm
import TidyTuples.Proofs.CodePaths
import TidyTuples.Proofs.CodeSimulation
import TidyTuples.Proofs.DeadChains

/-!
# Generated code can be translated

What is left of the function of a query after the elimination of dead code has the form that the
translation relies on, whatever the operator tree, as long as its predicates are boolean.
-/

namespace TidyTuples

open Translator IRProgram

namespace Proofs

/-- The function of a query in full. -/
structure QueryCode (P : IRProgram) : Prop where
  valid : Valid P
  code : CodeForm P
  heads : ∀ b, Head queryProgram P b
  ended : ∀ b < P.blocks.length, EndsInTerminator P (P.blockAt b) ∨ FallsThrough P b
  reached : ∀ b < P.blocks.length, Leads P 0 b
  targets : ∀ b, ∀ t ∈ branchTargets P b, t < P.blocks.length

section

variable {P q : IRProgram} {fn : IRFunction} {b c t : Nat}

/-! ### The function before the elimination -/

lemma mem_flowSuccessors (h : t ∈ branchTargets P b) : t ∈ flowSuccessors P b := by
  unfold branchTargets at h
  unfold flowSuccessors
  cases hlast : (P.blockAt b).getLast?.bind P.instrAt with
  | none =>
    rw [hlast] at h
    cases h
  | some i =>
    rw [hlast] at h
    cases i with
    | branch target => exact h
    | condBranch cond b₁ b₂ =>
      simp only [Option.map_some, Option.getD_some, Instr.successors, List.mem_cons, List.not_mem_nil,
        or_false, flowTargets] at h ⊢
      exact h.symm
    | _ => cases h

lemma codeForm_queryProgram : CodeForm queryProgram := by
  have hnone : ∀ b, queryProgram.blockAt b = [] := by
    intro b
    cases b with
    | zero => rfl
    | succ b => exact blockAt_of_length_le (Nat.le_add_left 1 b)
  constructor
  · intro off i hi
    cases hi
  · intro b
    rw [hnone]
    exact .nil
  · intro b b' off hoff
    rw [hnone] at hoff
    cases hoff
  · intro off i hi
    cases hi
  · intro off ty entries hi
    cases hi

/-- One region, closed by a return. -/
theorem queryCode_of_emits {strict : Prop} (hs : strict) (e : Emits strict queryProgram q) :
    QueryCode (q.addReturn .null).2 := by
  obtain ⟨hl, hv, ho⟩ := e.grows queryProgram_valid queryProgram_open
  have hregion := e.region queryProgram_valid queryProgram_open
  have hpaths := e.paths queryProgram_valid queryProgram_open
  have hcode := (e.codeForm hs queryProgram_valid queryProgram_open codeForm_queryProgram).emit hv
    (i := .ret .null) ⟨trivial, fun c hc => by simp [Instr.uses] at hc⟩
  have happ := emit_appended hv (.ret .null)
  have hlP : Local q (q.addReturn .null).2 := emit_local hv rfl
  change Appended (.ret .null) q (q.addReturn .null).2 at happ
  change CodeForm (q.addReturn .null).2 at hcode
  generalize (q.addReturn .null).2 = P at *
  have hret : P.instrAt q.dataSize = some (.ret .null) := by rw [happ.instrAt, if_pos rfl]
  have hone : queryProgram.blocks.length = 1 := rfl
  have hfirst : queryProgram.currentBlkIdx = 0 := rfl
  have hbq := hv.blkIdx
  have hlen := happ.length
  have hcur := happ.current
  have hregion' := hregion.trans (.straight hv hlen hcur) queryProgram_valid hv hl hlP
  have hpaths' := hpaths.trans (.straight hv hlen hcur) queryProgram_valid hv ho hl hlP
  have hexit : P.blockAt P.currentBlkIdx = q.blockAt q.currentBlkIdx ++ [q.dataSize] := by
    rw [hcur, happ.blockAt, if_pos rfl]
  refine ⟨happ.valid, hcode, fun b => ?_, fun b hb => ?_, fun b hb => ?_, fun b t ht => ?_⟩
  · by_cases hb : b = 0
    · refine .inl (hb ▸ (hl.trans hlP).phiFree (b := 0) (by omega) ?_)
      exact phiFree_nil _
    · by_cases hbc : b = P.currentBlkIdx
      · exact .inl (hbc ▸ hregion'.current (by omega))
      · exact hregion'.heads b (by omega) hbc
  · by_cases hbc : b = P.currentBlkIdx
    · subst hbc
      refine .inl (endsInTerminator_append hexit hret rfl fun off hoff i hi => ?_)
      obtain ⟨j, hj⟩ := hv.blockOffsets _ off hoff
      rw [hlP.allRecords off j hj] at hi
      exact ho off hoff i (hj.trans hi)
    · refine hpaths'.ended b ?_
      simp only [ClosedIn, InRegion]
      omega
  · refine hpaths'.reached b ?_
    simp only [InRegion]
    omega
  · by_cases hbc : b = P.currentBlkIdx
    · subst hbc
      rw [branchTargets_append hexit hret] at ht
      cases ht
    · by_cases hlt : b < P.blocks.length
      · refine (hregion'.targets b ?_ t (mem_flowSuccessors ht)).2
        simp only [ClosedIn, InRegion]
        omega
      · unfold branchTargets at ht
        rw [blockAt_of_length_le (Nat.le_of_not_lt hlt)] at ht
        cases ht

/-- The function of an operator tree. -/
theorem generateCode_queryCode (root : Operator) (self : Word) (outputIUs : List IU)
    {ctx ctx' : CompilationContext} (hctx : ctx.program = queryProgram)
    (hbool : BooleanPredicates root) (h : generateCode root self outputIUs ctx = .ok ((), ctx')) :
    QueryCode ctx'.program := by
  obtain ⟨ctx₁, hproduce, rfl⟩ := run_generateCode h
  have e : Emits (BooleanPredicates root) _ _ := produce_emits root (print_emits self outputIUs) id
    (hctx ▸ queryProgram_valid) (hctx ▸ queryProgram_open) hproduce
  rw [hctx] at e
  exact queryCode_of_emits hbool ((Emits.const queryProgram 0 .int64).trans e)

/-! ### What is left of it -/

lemma writesResult_of_hasCode {i : Instr} (hcode : P.HasCode i) (hd : i.definesReg = true)
    (hphi : i.isPhi = false) : i.writesResult = true := by
  cases i with
  | binary op ty a b => cases op <;> first | rfl | exact hcode.elim | cases hd
  | unary op ty a => cases op <;> first | rfl | exact hcode.elim
  | call ty callee args => exact hd
  | branch target => cases hd
  | condBranch cond b₁ b₂ => cases hd
  | ret value => cases hd
  | phi ty entries => cases hphi
  | _ => rfl

/-- In a list that begins with all elements of a kind. -/
lemma takeWhile_eq_filter {α : Type} {f : α → Bool} {xs ys : List α} (hxs : ∀ x ∈ xs, f x = true)
    (hys : ∀ y ∈ ys, f y = false) : (xs ++ ys).takeWhile f = (xs ++ ys).filter f := by
  have hnone : ys.filter f = [] := List.filter_eq_nil_iff.mpr fun y hy => by simp [hys y hy]
  rw [List.takeWhile_append_of_pos hxs, List.filter_append, List.filter_eq_self.mpr hxs, hnone]
  cases ys with
  | nil => rfl
  | cons y rest => rw [List.takeWhile_cons_of_neg (by simp [hys y List.mem_cons_self])]

lemma refs_nodup (hblocks : ∀ b, (fn.instructionsAt b).Nodup)
    (hunique : ∀ b b' r, r ∈ fn.instructionsAt b → r ∈ fn.instructionsAt b' → b = b') :
    fn.refs.Nodup := by
  have hat : ∀ {k : Nat} (hk : k < fn.blocks.length),
      fn.instructionsAt k = fn.blocks[k].instructions := fun hk => by
    rw [IRFunction.instructionsAt, List.getElem?_eq_getElem hk]
  refine List.nodup_flatMap.mpr ⟨fun blk hblk => ?_, List.pairwise_iff_getElem.mpr ?_⟩
  · obtain ⟨k, hk, rfl⟩ := List.mem_iff_getElem.mp hblk
    rw [← hat hk]
    exact hblocks k
  · intro k k' hk hk' hlt r hr hr'
    rw [← hat hk] at hr
    rw [← hat hk'] at hr'
    exact absurd (hunique k k' r hr hr') (Nat.ne_of_lt hlt)

variable (hP : QueryCode P) (hfn : P.functions[P.currentFnIdx]? = some fn)

include hfn in
lemma instructionsAt_eq_blockAt (b : Nat) : fn.instructionsAt b = P.blockAt b := by
  unfold IRProgram.blockAt IRProgram.blocks IRFunction.instructionsAt
  rw [hfn]
  cases fn.blocks[b]? <;> rfl

include hfn in
lemma blocks_eq_of_functions : P.blocks = fn.blocks := by
  unfold IRProgram.blocks
  rw [hfn]

/-- The targets of a block by the offsets that it has left. -/
lemma blockSuccessors_eq_getLast (P : IRProgram) (fn : IRFunction) (b : Nat) :
    P.blockSuccessors fn b =
      (((fn.instructionsAt b).getLast?.bind P.instrAt).map Instr.successors).getD [] := by
  unfold IRProgram.blockSuccessors IRFunction.instructionsAt
  cases fn.blocks[b]? with
  | none => rfl
  | some blk =>
    dsimp only
    cases blk.instructions.getLast? <;> rfl

include hfn in
lemma blockSuccessors_eq_branchTargets (b : Nat) : P.blockSuccessors fn b = branchTargets P b := by
  rw [blockSuccessors_eq_getLast, instructionsAt_eq_blockAt hfn, branchTargets]

include hP hfn in
/-- No block is cleared. -/
lemma reachable_of_queryCode (hb : b < fn.blocks.length) : Reachable P fn b := by
  have hleads := hP.reached b (by rwa [blocks_eq_of_functions hfn])
  clear hb
  induction hleads with
  | refl => exact .entry
  | step _ hc ih => exact .step ih (by rwa [blockSuccessors_eq_branchTargets hfn])

include hP hfn in
lemma instructionsAt_eliminated (b : Nat) : (eliminated P fn).instructionsAt b =
    (P.blockAt b).filter (P.keepInstr (usedInReachable P)) := by
  rw [← instructionsAt_eq_blockAt hfn]
  by_cases hb : b < fn.blocks.length
  · have hblk : fn.blocks[b]? = some fn.blocks[b] := List.getElem?_eq_getElem hb
    unfold IRFunction.instructionsAt
    rw [eliminated_block hblk (mem_reachableBlocks (reachable_of_queryCode hP hfn hb) hb), hblk]
  · have hnone : fn.blocks[b]? = none := List.getElem?_eq_none (Nat.le_of_not_lt hb)
    have hnone' : (eliminated P fn).blocks[b]? = none := by
      unfold eliminated removeUnused clearUnreachable
      rw [List.getElem?_map, List.getElem?_mapIdx, hnone]
      rfl
    unfold IRFunction.instructionsAt
    rw [hnone, hnone']
    rfl

lemma keepInstr_of_sideEffect {used : List Nat} {off : Nat} {i : Instr} (hi : P.instrAt off = some i)
    (hside : i.hasSideEffect = true) : P.keepInstr used off = true := by
  rw [keepInstr, hi, Bool.or_eq_true]
  exact .inl hside

include hP hfn in
/-- The operands of the function are kept. -/
lemma keepInstr_of_use {off c : Nat} {i : Instr} (hoff : off ∈ P.blockAt b)
    (hi : P.instrAt off = some i) (hc : .instr c ∈ i.uses) :
    P.keepInstr (usedInReachable P) c = true := by
  have hmem := hoff
  rw [← instructionsAt_eq_blockAt hfn] at hmem
  obtain ⟨blk, hblk, hmem⟩ := mem_instructionsAt.mp hmem
  have hb := (List.getElem?_eq_some_iff.mp hblk).1
  have hreach : Reached P fn off :=
    ⟨b, mem_reachableBlocks (reachable_of_queryCode hP hfn hb) hb, blk, hblk, hmem⟩
  have hused := mem_usedInReachable (List.mem_of_getElem? hfn) hreach hi hc
  rw [keepInstr, decide_eq_true hused, Bool.or_true]

/-- A terminator stays at the end. -/
lemma EndsInTerminator.filter {instructions : List Nat} (h : EndsInTerminator P instructions)
    (used : List Nat) : EndsInTerminator P (instructions.filter (P.keepInstr used)) := by
  obtain ⟨init, last, i, rfl, hi, hterm, hinit⟩ := h
  have hside : i.hasSideEffect = true := by
    cases i <;> first | rfl | cases hterm
  refine ⟨init.filter (P.keepInstr used), last, i, ?_, hi, hterm,
    fun r hr => hinit r (List.mem_of_mem_filter hr)⟩
  rw [List.filter_append, List.filter_cons_of_pos (keepInstr_of_sideEffect hi hside), List.filter_nil]

include hP hfn in
/-- The blocks that are left. -/
lemma blockForm_eliminated (hb : b < fn.blocks.length) :
    P.eliminateDeadCode.BlockForm ((eliminated P fn).instructionsAt b) := by
  rw [instructionsAt_eliminated hP hfn]
  have hlt : b < P.blocks.length := by rwa [blocks_eq_of_functions hfn]
  constructor
  · obtain ⟨phis, rest, hblk, hphis, hrest⟩ := (hP.heads b).phisFirst
    rw [hblk, List.filter_append]
    refine takeWhile_eq_filter (fun r hr => ?_) fun r hr => ?_
    · obtain ⟨i, hi, hphi⟩ := hphis r (List.mem_of_mem_filter hr)
      change ((P.instrAt r).map Instr.isPhi).getD false = true
      rw [hi]
      exact hphi
    · obtain ⟨i, hi, hphi⟩ := hrest r (List.mem_of_mem_filter hr)
      change ((P.instrAt r).map Instr.isPhi).getD false = false
      rw [hi]
      exact hphi
  · intro r hr
    rcases hP.ended b hlt with hend | hfalls
    · obtain ⟨init, last, i, hblk, -, -, hinit⟩ := hend.filter (usedInReachable P)
      rw [hblk, List.dropLast_concat] at hr
      change ((P.instrAt r).map Instr.isTerminator).getD false = false
      cases hi : P.instrAt r with
      | none => rfl
      | some j => exact hinit r hr j hi
    · rw [hfalls.empty] at hr
      cases hr
  · refine ((hP.code.sorted b).filter _).imp fun {r r'} hlt hphi huse => ?_
    change .instr r' ∈ ((P.instrAt r).map Instr.uses).getD [] at huse
    change ((P.instrAt r).map Instr.isPhi).getD false = false at hphi
    cases hi : P.instrAt r with
    | none =>
      rw [hi] at huse
      cases huse
    | some i =>
      rw [hi] at huse hphi
      exact Nat.lt_asymm hlt (hP.code.uses r i hi hphi r' huse)

include hP hfn in
lemma mem_blockSuccessors_eliminated
    (hc : c ∈ P.eliminateDeadCode.blockSuccessors (eliminated P fn) b) : c < P.blocks.length := by
  rw [blockSuccessors_eq_getLast, instructionsAt_eliminated hP hfn] at hc
  by_cases hb : b < P.blocks.length
  · rcases hP.ended b hb with hend | hfalls
    · refine hP.targets b c ?_
      obtain ⟨init, last, i, hblk, hi, hterm, -⟩ := hend
      have hside : i.hasSideEffect = true := by
        cases i <;> first | rfl | cases hterm
      rw [branchTargets_append hblk hi]
      rw [hblk, List.filter_append, List.filter_cons_of_pos (keepInstr_of_sideEffect hi hside),
        List.filter_nil, List.getLast?_append, List.getLast?_singleton, Option.some_or,
        Option.bind_some] at hc
      change c ∈ ((P.instrAt last).map Instr.successors).getD [] at hc
      rw [hi] at hc
      exact hc
    · rw [hfalls.empty] at hc
      cases hc
  · rw [blockAt_of_length_le (Nat.le_of_not_lt hb)] at hc
    cases hc

include hP hfn in
/-- The PHI of a loop: its first operand is a constant, and its second one is computed in the block
that the edge comes from. -/
lemma edgeForm_eliminated (src dst : Nat) :
    P.eliminateDeadCode.EdgeForm (eliminated P fn) src dst := by
  have hmem : ∀ ref ∈ P.eliminateDeadCode.phisOf ((eliminated P fn).instructionsAt dst),
      ref ∈ P.blockAt dst ∧ ∃ ty entries, P.instrAt ref = some (.phi ty entries) := by
    intro ref href
    rw [instructionsAt_eliminated hP hfn] at href
    obtain ⟨hmem, hphi⟩ := List.mem_filter.mp href
    refine ⟨List.mem_of_mem_filter hmem, ?_⟩
    change ((P.instrAt ref).map Instr.isPhi).getD false = true at hphi
    cases hi : P.instrAt ref with
    | none =>
      rw [hi] at hphi
      cases hphi
    | some i =>
      rw [hi] at hphi
      cases i with
      | phi ty entries => exact ⟨ty, entries, rfl⟩
      | _ => cases hphi
  constructor
  · intro ref href x hx hconst
    obtain ⟨hblk, ty, entries, hi⟩ := hmem ref href
    obtain ⟨z, e, next, latch, rfl, hz, hnext, -⟩ := (hP.heads dst).loopPhi hblk hi
    change P.incoming src ref = some x at hx
    change P.constIntValue x = none at hconst
    unfold IRProgram.incoming at hx
    rw [hi] at hx
    dsimp only at hx
    obtain ⟨entry, hfind, rfl⟩ := Option.map_eq_some_iff.mp hx
    have hsrc : entry.2 = src := by simpa using List.find?_some hfind
    rcases List.mem_pair.mp (List.mem_of_find?_eq_some hfind) with rfl | rfl
    · obtain ⟨t, w, hw⟩ := hP.valid.cache _ _ hz
      rw [IRProgram.constIntValue_constInt hw] at hconst
      cases hconst
    · cases hsrc
      have huse : .instr next ∈ (Instr.phi ty [(.instr z, e), (.instr next, latch)]).uses := by
        simp [Instr.uses]
      have hkeep := keepInstr_of_use hP hfn hblk hi huse
      have hin : next ∈ (eliminated P fn).instructionsAt latch := by
        rw [instructionsAt_eliminated hP hfn]
        exact List.mem_filter.mpr ⟨hnext, hkeep⟩
      obtain ⟨j, hj, hd, hphi⟩ := hP.code.operands ref ty _ hi next (by simp)
      exact ⟨next, mem_refs_of_mem hin, rfl, .inr ⟨latch, Nat.le_refl _, hin, j, hj,
        writesResult_of_hasCode (hP.code.records next j hj) hd hphi⟩⟩
  · -- a block has one PHI at most
    have hone : ∃ phis : List Nat, (P.blockAt dst).filter P.isPhiAt = phis ∧ phis.length ≤ 1 := by
      have hnone : ∀ l, PhiFree P l → l.filter P.isPhiAt = [] := by
        intro l hfree
        refine List.filter_eq_nil_iff.mpr fun r hr => ?_
        obtain ⟨i, hi, hphi⟩ := hfree r hr
        rw [IRProgram.isPhiAt, hi]
        exact ne_true_of_eq_false hphi
      rcases hP.heads dst with hfree | ⟨off, rest, ty, entries, hblk, hrest, -⟩
      · exact ⟨[], hnone _ hfree, Nat.zero_le _⟩
      · refine ⟨[off].filter P.isPhiAt, ?_, List.length_filter_le _ _⟩
        rw [hblk, ← List.singleton_append, List.filter_append, hnone rest hrest, List.append_nil]
    obtain ⟨phis, hphis, hlen⟩ := hone
    have hsub : (P.eliminateDeadCode.phisOf ((eliminated P fn).instructionsAt dst)).Sublist phis := by
      rw [instructionsAt_eliminated hP hfn, ← hphis]
      exact List.Sublist.filter P.isPhiAt List.filter_sublist
    refine List.Pairwise.sublist hsub ?_
    rcases phis with _ | ⟨off, _ | ⟨off', rest⟩⟩
    · exact .nil
    · exact List.pairwise_singleton _ _
    · simp at hlen

include hP hfn in
/-- The function that is left can be translated. -/
theorem translatable_eliminated : P.eliminateDeadCode.Translatable (eliminated P fn) := by
  have hlen : (eliminated P fn).blocks.length = P.blocks.length := by
    unfold eliminated removeUnused clearUnreachable
    rw [List.length_map, List.length_mapIdx, blocks_eq_of_functions hfn]
  have hlen' : P.blocks.length = fn.blocks.length := by rw [blocks_eq_of_functions hfn]
  have hmem : ∀ b r, r ∈ (eliminated P fn).instructionsAt b → r ∈ P.blockAt b := by
    intro b r hr
    rw [instructionsAt_eliminated hP hfn] at hr
    exact List.mem_of_mem_filter hr
  constructor
  · rw [hlen]
    exact Nat.zero_lt_of_lt hP.valid.blkIdx
  · refine refs_nodup (fun b => ?_) fun b b' r hr hr' =>
      hP.code.unique b b' r (hmem b r hr) (hmem b' r hr')
    rw [instructionsAt_eliminated hP hfn]
    exact ((hP.code.sorted b).imp Nat.ne_of_lt).filter _
  · intro r hr
    obtain ⟨b, hb⟩ := mem_refs_iff.mp hr
    obtain ⟨i, hi⟩ := hP.valid.blockOffsets b r (hmem b r hb)
    exact ⟨i, hi, HasCode.mono (fun x hx => hx) (hP.code.records r i hi)⟩
  · intro b hb
    exact blockForm_eliminated hP hfn (by omega)
  · intro b hb hlast
    rw [instructionsAt_eliminated hP hfn] at hlast
    rcases hP.ended b (by omega) with hend | hfalls
    · refine absurd ?_ hlast
      obtain ⟨init, last, i, hblk, hi, hterm, -⟩ := hend.filter (usedInReachable P)
      rw [hblk, List.getLast?_append, List.getLast?_singleton, Option.some_or, Option.map_some]
      change some (((P.instrAt last).map Instr.isTerminator).getD false) = some true
      rw [hi]
      exact congrArg some hterm
    · refine ⟨by rw [hlen]; exact hfalls.lt, ?_⟩
      rw [instructionsAt_eliminated hP hfn]
      refine List.filter_eq_nil_iff.mpr fun r hr => ?_
      obtain ⟨i, hi, hphi⟩ := hfalls.phiFree r (List.mem_of_mem_filter hr)
      change ¬ ((P.instrAt r).map Instr.isPhi).getD false = true
      rw [hi]
      exact ne_true_of_eq_false hphi
  · intro b _ dst hdst
    rw [hlen]
    exact mem_blockSuccessors_eliminated hP hfn hdst
  · intro b _ dst _
    exact edgeForm_eliminated hP hfn b dst

end

end Proofs

end TidyTuples
