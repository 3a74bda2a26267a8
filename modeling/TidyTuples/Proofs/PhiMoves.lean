import TidyTuples.Lib.ParallelCopy
import TidyTuples.Proofs.Deferral

/-!
# The moves on an edge

The translator writes the moves for the PHIs of a block one after the other. They amount to a
parallel copy exactly if none reads a PHI that has been written and every operand has its register
by then.
-/

namespace TidyTuples

open Translator IRProgram

section

variable {V σ : Type} (M : Target V σ) (P : IRProgram) (fn : IRFunction)

/-- What an operand of a PHI is worth. -/
def Target.operand (regs : VReg → V) (x : IRValueRef) : V :=
  match P.constIntValue x with
  | some w => M.const w
  | none => regs (home P x)

/-- The moves on the edge from `src` to `dst` give every PHI its operand of before. -/
def IsParallelCopy (src dst : Nat) : Prop := ∀ s : VState V σ, ∃ s',
  M.execStraight (emitPhiMovesForEdge P fn (afterBlocks P fn (src + 1)) src dst) s = some s' ∧
  ∀ blk, fn.blocks[dst]? = some blk → ∀ ref ∈ P.phisOf blk.instructions,
    ∃ x, P.incoming src ref = some x ∧ s'.regs (.phi ref) = M.operand P s.regs x

/-- The definition of the operand is emitted before the end of block `src`. A parameter, for which
no code is emitted, must have been read. -/
def EmittedBy (src : Nat) : IRValueRef → Prop
  | .instr r => P.isPhiAt r = true ∨ ∃ k ≤ src, r ∈ fn.instructionsAt k ∧
      ∃ i, P.instrAt r = some i ∧ i.writesResult = true
  | x => ∃ k ≤ src, ∃ r ∈ fn.instructionsAt k, x ∈ P.readsAt r

/-- The operands have their registers, and no PHI takes one that stands before it, unless that
one keeps its value. -/
def SafeEdge (src dst : Nat) : Prop := ∀ blk, fn.blocks[dst]? = some blk →
  (∀ ref ∈ P.phisOf blk.instructions, ∀ x, P.incoming src ref = some x →
    P.constIntValue x = none → EmittedBy P fn src x) ∧
  (P.phisOf blk.instructions).Pairwise fun a b =>
    P.incoming src b = some (.instr a) → P.incoming src a = some (.instr a)

end

namespace Proofs

section

variable {P : IRProgram} {fn : IRFunction} {t : Translator} {src dst ref : Nat} {x : IRValueRef}

/-! ### The copies of an edge -/

def edgeCopies (P : IRProgram) (t : Translator) (src : Nat) (phis : List Nat) :
    List (VReg × (Word ⊕ VReg)) :=
  phis.filterMap fun ref => (phiSource P t src ref).map (VReg.phi ref, ·)

variable {V σ : Type} {M : Target V σ}

lemma execStraight_append (code code' : List VInstr) (s : VState V σ) :
    M.execStraight (code ++ code') s = (M.execStraight code s).bind (M.execStraight code') :=
  List.foldlM_append

/-- The moves are the copies in sequence. -/
lemma execStraight_phiMoves {phis : List Nat}
    (h : ∀ ref ∈ phis, t.phiRegs (.instr ref) = some (.phi ref)) (s : VState V σ) :
    M.execStraight (phis.flatMap (phiMove P t src)) s = some { s with
      regs := ParallelCopy.sequential M.const (edgeCopies P t src phis) s.regs } := by
  induction phis generalizing s with
  | nil => rfl
  | cons ref rest ih =>
    have hrest := ih fun r hr => h r (List.mem_cons_of_mem ref hr)
    rw [List.flatMap_cons, execStraight_append, phiMove_eq (h ref List.mem_cons_self), edgeCopies,
      List.filterMap_cons]
    cases phiSource P t src ref with
    | none => exact hrest s
    | some source =>
      cases source with
      | inl value => exact hrest (s.setReg (.phi ref) (M.const value))
      | inr reg => exact hrest (s.setReg (.phi ref) (s.regs reg))

/-! ### The registers of the operands -/

/-- The instructions of the first `n` blocks. -/
lemma mem_take_blocks {n : Nat} : (∃ blk ∈ fn.blocks.take n, ref ∈ blk.instructions) ↔
    ∃ k < n, ref ∈ fn.instructionsAt k := by
  constructor
  · rintro ⟨blk, hblk, href⟩
    obtain ⟨k, hk⟩ := List.mem_iff_getElem?.mp hblk
    rw [List.getElem?_take] at hk
    split_ifs at hk with hlt
    exact ⟨k, hlt, mem_instructionsAt.mpr ⟨blk, hk, href⟩⟩
  · rintro ⟨k, hlt, href⟩
    obtain ⟨blk, hk, href⟩ := mem_instructionsAt.mp href
    exact ⟨blk, List.mem_iff_getElem?.mpr ⟨k, by rw [List.getElem?_take_of_lt hlt, hk]⟩, href⟩

/-- Without deferred comparisons every operand has a register once it has been read. -/
structure Reading (R : IRValueRef → Prop) (t : Translator) : Prop where
  regMap : ∀ x, R x → t.regMap x ≠ none
  deferred : ∀ x, t.deferredCmps x = false

variable {R : IRValueRef → Prop} {W : Nat → Prop} {r b : Nat}

lemma Reading.mono {R' : IRValueRef → Prop} (h : Reading R t) (hR : ∀ x, R' x → R x) :
    Reading R' t := ⟨fun x hx => h.regMap x (hR x hx), h.deferred⟩

lemma Reading.after {i : Instr} (h : Reading R t) :
    Reading (fun x => R x ∨ x ∈ registerReads P i) (after P t r i) := by
  constructor
  · intro x hx
    rw [regMap_after]
    split_ifs with hself hread
    · exact Option.some_ne_none _
    · exact Option.some_ne_none _
    · exact h.regMap x (hx.resolve_right hread)
  · rw [deferredCmps_after]
    exact h.deferred

lemma Reading.emitImm64 (h : Reading R t) (value : Word) : Reading R (t.emitImm64 r value).2 := by
  unfold Translator.emitImm64
  cases t.regMap (.instr r) with
  | some reg => exact h
  | none =>
    constructor
    · intro x hx
      rw [regMap_assign, Function.update_apply]
      split_ifs
      · exact Option.some_ne_none _
      · exact h.regMap x hx
    · exact h.deferred

lemma translateInstr_reading (h : Reading R t) (ht : PhisMapped P fn t) :
    Reading (fun x => R x ∨ x ∈ P.readsAt r) (translateInstr P fn (fun _ _ => false) t r b).2 := by
  unfold IRProgram.readsAt
  cases hi : P.instrAt r with
  | none =>
    unfold translateInstr
    rw [hi]
    simpa using h
  | some i =>
    cases hterm : i.isTerminator with
    | true =>
      unfold translateInstr
      rw [hi]
      cases i with
      | branch target | ret value => simpa [registerReads] using h
      | condBranch cond b₁ b₂ =>
        dsimp only
        unfold translateCondBranch
        rw [if_neg (by rw [h.deferred]; exact Bool.false_ne_true), getValue_eq ht]
        constructor
        · intro x hx
          rw [regMap_request]
          split_ifs with hcond
          · exact Option.some_ne_none _
          · exact h.regMap x (hx.resolve_right fun hmem => hcond (List.mem_singleton.mp hmem))
        · exact h.deferred
      | _ => cases hterm
    | false =>
      cases hconst : i.isConst with
      | true =>
        unfold translateInstr
        rw [hi]
        cases i with
        | constInt ty value | constBool value => simpa [registerReads] using h.emitImm64 _
        | _ => cases hconst
      | false =>
        rw [translateInstr_eq ht hi hterm hconst fun _ => rfl]
        cases i with
        | branch target | condBranch cond b₁ b₂ | ret value => cases hterm
        | _ => exact Reading.after (r := r) h

lemma translateInstrs_reading (refs : List Nat) (h : Reading R t) (ht : Tracks P fn W t) :
    Reading (fun x => R x ∨ ∃ r ∈ refs, x ∈ P.readsAt r)
      (translateInstrs P fn (fun _ _ => false) b refs t).2 := by
  induction refs generalizing t R W with
  | nil => exact h.mono fun x hx => hx.resolve_right fun ⟨_, hr, _⟩ => nomatch hr
  | cons r rest ih =>
    apply (ih (translateInstr_reading h ht.toPhisMapped) (translateInstr_tracks ht)).mono
    rintro x (hx | ⟨r', hr', hx⟩)
    · exact .inl (.inl hx)
    · rcases List.mem_cons.mp hr' with rfl | hr'
      · exact .inl (.inr hx)
      · exact .inr ⟨r', hr', hx⟩

lemma translateBlocks_reading (first : Nat) (blks : List BasicBlock) (h : Reading R t)
    (ht : Tracks P fn W t) :
    Reading (fun x => R x ∨ ∃ blk ∈ blks, ∃ r ∈ blk.instructions, x ∈ P.readsAt r)
      (translateBlocks P fn (fun _ _ => false) first blks t).2 := by
  induction blks generalizing first t R W with
  | nil => exact h.mono fun x hx => hx.resolve_right fun ⟨_, hblk, _⟩ => nomatch hblk
  | cons blk rest ih =>
    have hblk : Tracks P fn _ (translateBlock P fn (fun _ _ => false) t first blk).2 :=
      translateInstrs_tracks blk.instructions ht
    apply (ih (first + 1) (translateInstrs_reading blk.instructions h ht) hblk).mono
    rintro x (hx | ⟨blk', hblk', hx⟩)
    · exact .inl (.inl hx)
    · rcases List.mem_cons.mp hblk' with rfl | hblk'
      · exact .inl (.inr hx)
      · exact .inr ⟨blk', hblk', hx⟩

/-- The translator without deferred comparisons behind the first `n` blocks. -/
def plainAfter (P : IRProgram) (fn : IRFunction) (n : Nat) : Translator :=
  (translateBlocks P fn (fun _ _ => false) 0 (fn.blocks.take n) (findPhis P fn)).2

lemma plainAfter_reading (n : Nat) : Reading
    (fun x => ∃ blk ∈ fn.blocks.take n, ∃ r ∈ blk.instructions, x ∈ P.readsAt r)
    (plainAfter P fn n) := by
  have hstart : Reading (fun _ => False) (findPhis P fn) := ⟨fun _ hno => hno.elim, fun _ => rfl⟩
  exact (translateBlocks_reading 0 (fn.blocks.take n) hstart findPhis_tracks).mono fun x => .inr

lemma afterBlocks_twin (hwf : P.WellFormedSSA fn) (b n : Nat) :
    Twin P fn (canDeferComparison P fn) b none (afterBlocks P fn n) (plainAfter P fn n) := by
  refine ((findPhis_twin.blocks (fun _ _ hd => hd) hwf fun k blk hk => ?_).2).toBlock b
  rw [List.getElem?_take] at hk
  split_ifs at hk
  rwa [Nat.zero_add]

/-- A parameter has a register once it has been read. -/
lemma regMap_param_iff (hwf : P.WellFormedSSA fn) (n f k : Nat) :
    (afterBlocks P fn n).regMap (.param f k) ≠ none ↔
      ∃ b < n, ∃ r ∈ fn.instructionsAt b, .param f k ∈ P.readsAt r := by
  have htracks : Tracks P fn _ (afterBlocks P fn n) := afterBlocks_tracks n
  have hblocks : (∃ blk ∈ fn.blocks.take n, ∃ r ∈ blk.instructions, .param f k ∈ P.readsAt r) ↔
      ∃ b < n, ∃ r ∈ fn.instructionsAt b, .param f k ∈ P.readsAt r := by
    have hiff : ∀ r, (∃ blk ∈ fn.blocks.take n, r ∈ blk.instructions) ↔
        ∃ k < n, r ∈ fn.instructionsAt k := fun r => mem_take_blocks
    constructor
    · rintro ⟨blk, hblk, r, hr, hread⟩
      obtain ⟨b, hb, hr⟩ := (hiff r).mp ⟨blk, hblk, hr⟩
      exact ⟨b, hb, r, hr, hread⟩
    · rintro ⟨b, hb, r, hr, hread⟩
      obtain ⟨blk, hblk, hr⟩ := (hiff r).mpr ⟨b, hb, hr⟩
      exact ⟨blk, hblk, r, hr, hread⟩
  rw [← hblocks]
  constructor
  · intro h
    obtain ⟨reg, hreg⟩ := Option.ne_none_iff_exists'.mp h
    have hrequested : Requested P _ (afterBlocks P fn n) :=
      translateBlocks_requested 0 (fn.blocks.take n) findPhis_requested findPhis_tracks
    rcases htracks.home_or_requested hreg with rfl | rfl
    · exact (hrequested.regMap _ hreg).resolve_left id
    · exact (hrequested.regMap _ hreg).resolve_left id
  · intro h
    have hnot : ¬ IsDeferred P fn (canDeferComparison P fn) (.param f k) := by
      rintro ⟨c, hc, -⟩
      cases hc
    have hsame := ((afterBlocks_twin hwf 0 n).regs _ hnot).resolve_right
      fun ⟨_, _, q, hq, _⟩ => nomatch hq
    rw [hsame]
    exact (plainAfter_reading n).regMap _ h

/-- An operand that the translator has met is found in its register. -/
lemma regMap_home_iff (hwf : P.WellFormedSSA fn) {phi : Nat} (hphi : phi ∈ fn.refs)
    (hphiAt : P.isPhiAt phi = true) (hx : P.incoming src phi = some x) (hnull : x ≠ .null)
    (hconst : P.constIntValue x = none) :
    (afterBlocks P fn (src + 1)).regMap x = some (home P x) ↔ EmittedBy P fn src x := by
  have htracks : Tracks P fn _ (afterBlocks P fn (src + 1)) := afterBlocks_tracks (src + 1)
  cases x with
  | null => exact absurd rfl hnull
  | param f k =>
    have hread : EmittedBy P fn src (.param f k) ↔ ∃ b < src + 1, ∃ r ∈ fn.instructionsAt b,
        .param f k ∈ P.readsAt r := by
      change (∃ b ≤ src, _) ↔ _
      simp only [Nat.lt_succ_iff]
    rw [hread, ← regMap_param_iff hwf]
    constructor
    · intro h
      rw [h]
      exact Option.some_ne_none _
    · intro h
      obtain ⟨reg, hreg⟩ := Option.ne_none_iff_exists'.mp h
      rcases htracks.home_or_requested hreg with rfl | rfl
      · exact hreg
      · exact hreg
  | instr r =>
    obtain ⟨i, hi, huse⟩ : ∃ i, P.instrAt phi = some i ∧ .instr r ∈ i.uses := by
      unfold IRProgram.incoming at hx
      split at hx
      · rename_i ty entries hi
        obtain ⟨entry, hentry, hval⟩ := Option.map_eq_some_iff.mp hx
        exact ⟨_, hi, List.mem_map.mpr ⟨entry, List.mem_of_find?_eq_some hentry, hval⟩⟩
      · cases hx
    have hr : r ∈ fn.refs := hwf.operands phi hphi (.instr r) (by rwa [IRProgram.usesAt, hi])
    by_cases hrphi : P.isPhiAt r = true
    · have hreg := htracks.regMap _ _ (htracks.phiRegs ▸ phiRegs_of_mem hr hrphi)
      have hhome : home P (.instr r) = .phi r := if_pos hrphi
      rw [hreg, hhome]
      exact ⟨fun _ => .inl hrphi, fun _ => rfl⟩
    · have hhome : home P (.instr r) = .result r := if_neg hrphi
      rw [hhome]
      constructor
      · intro hreg
        rcases htracks.range _ _ hreg with hr' | hr' | ⟨r', hr', -, k, blk, hblk, hmem, hwrites⟩
        · cases hr'
        · rw [htracks.phiRegs] at hr'
          obtain ⟨r', i', -, hr', -⟩ := phiRegs_eq_some hr'
          cases hr'
        · cases hr'
          obtain ⟨i', hi', hw, -⟩ := hwrites
          obtain ⟨k, hk, hmem⟩ := mem_take_blocks.mp ⟨blk, List.mem_of_getElem? hblk, hmem⟩
          exact .inr ⟨k, by omega, hmem, i', hi', hw⟩
      · rintro (hr' | ⟨k, hk, hmem, i', hi', hw⟩)
        · exact absurd hr' hrphi
        · have hdefer : canDeferComparison P fn r (0 + k) = false := by
            rw [← Bool.not_eq_true]
            intro hdefer
            obtain ⟨blk', last, b₁, b₂, -, -, hlast, honly⟩ := canDeferComparison_spec hdefer
            have heq := honly phi hphi i hi huse
            rw [heq, IRProgram.isPhiAt, hlast] at hphiAt
            cases hphiAt
          obtain ⟨blk, hblk, hmem⟩ := mem_instructionsAt.mp hmem
          have hwritten : WrittenIn P (canDeferComparison P fn) 0 (fn.blocks.take (src + 1)) r :=
            ⟨k, blk, by rw [List.getElem?_take_of_lt (by omega), hblk], hmem, i', hi', hw,
              by rw [hdefer, Bool.and_false]⟩
          obtain ⟨i'', hi'', -, hreg⟩ := htracks.written r hwritten
          rcases hreg with hreg | ⟨hc, -⟩
          · exact hreg
          · obtain ⟨value, hvalue⟩ := constIntValue_of_isConst hi'' hc
            rw [hvalue] at hconst
            cases hconst

/-! ### When the moves are a parallel copy -/

/-- The operand of a PHI as a source. -/
def operandSource (P : IRProgram) (x : IRValueRef) : Word ⊕ VReg :=
  match P.constIntValue x with
  | some value => .inl value
  | none => .inr (home P x)

lemma value_operandSource (regs : VReg → V) :
    ParallelCopy.value M.const regs (operandSource P x) = M.operand P regs x := by
  unfold operandSource Target.operand
  cases P.constIntValue x <;> rfl

lemma eq_instr_of_home {r : Nat} (h : home P x = .phi r) : x = .instr r := by
  cases x with
  | instr r' =>
    change (if P.isPhiAt r' then VReg.phi r' else .result r') = _ at h
    split_ifs at h
    rw [VReg.phi.inj h]
  | null => cases h
  | param f k => cases h

lemma blockSuccessors_lt (h : dst ∈ P.blockSuccessors fn src) : src < fn.blocks.length := by
  unfold IRProgram.blockSuccessors at h
  cases hblk : fn.blocks[src]? with
  | none =>
    rw [hblk] at h
    cases h
  | some blk => exact (List.getElem?_eq_some_iff.mp hblk).1

/-- A predecessor gives every PHI an operand. -/
lemma exists_incoming (hwf : P.WellFormedSSA fn) (hedge : dst ∈ P.blockSuccessors fn src)
    {blk : BasicBlock} (hblk : fn.blocks[dst]? = some blk)
    (href : ref ∈ P.phisOf blk.instructions) :
    ∃ x, P.incoming src ref = some x ∧ x ≠ .null := by
  obtain ⟨hmem, hphi⟩ := List.mem_filter.mp href
  cases hi : P.instrAt ref with
  | none =>
    rw [hi] at hphi
    cases hphi
  | some i =>
    rw [hi] at hphi
    cases i with
    | phi ty entries =>
      have hentries : P.phiEntries ref = entries := by rw [IRProgram.phiEntries, hi]
      have hblock : fn.instructionsAt dst = blk.instructions := by rw [IRFunction.instructionsAt, hblk]
      have hwfphi := hwf.phis dst (List.getElem?_eq_some_iff.mp hblk).1 ref (by rwa [hblock])
      have hsrc := hwfphi.complete src (blockSuccessors_lt hedge) hedge
      rw [hentries] at hsrc
      obtain ⟨entry, hentry, hsrc⟩ := List.mem_map.mp hsrc
      have hfind : ∃ e, entries.find? (fun entry => entry.2 == src) = some e :=
        Option.isSome_iff_exists.mp (List.find?_isSome.mpr ⟨entry, hentry, by simpa using hsrc⟩)
      obtain ⟨e, he⟩ := hfind
      refine ⟨e.1, ?_, hwfphi.values e (hentries ▸ List.mem_of_find?_eq_some he)⟩
      unfold IRProgram.incoming
      rw [hi]
      change (entries.find? fun entry => entry.2 == src).map Prod.fst = _
      rw [he]
      rfl
    | _ => cases hphi

/-- The PHIs `phis` of a well-formed block, each with its operand from `src`. -/
structure EdgePhis (P : IRProgram) (fn : IRFunction) (src : Nat) (phis : List Nat) : Prop where
  nodup : phis.Nodup
  mem : ∀ ref ∈ phis, ref ∈ fn.refs ∧ P.isPhiAt ref = true
  incoming : ∀ ref ∈ phis, ∃ x, P.incoming src ref = some x ∧ x ≠ .null

variable {phis : List Nat}

lemma edgePhis (hwf : P.WellFormedSSA fn) (hedge : dst ∈ P.blockSuccessors fn src)
    {blk : BasicBlock} (hblk : fn.blocks[dst]? = some blk) :
    EdgePhis P fn src (P.phisOf blk.instructions) := by
  constructor
  · have hsub : blk.instructions.Sublist fn.refs :=
      List.sublist_flatten_of_mem (List.mem_map_of_mem (List.mem_of_getElem? hblk))
    exact (hwf.nodup.sublist hsub).filter _
  · intro ref href
    obtain ⟨hmem, hphi⟩ := List.mem_filter.mp href
    exact ⟨mem_refs hblk hmem, hphi⟩
  · exact fun ref href => exists_incoming hwf hedge hblk href

/-- All operands are in their registers. -/
def AllHome (P : IRProgram) (t : Translator) (src : Nat) (phis : List Nat) : Prop :=
  ∀ ref ∈ phis, ∀ x, P.incoming src ref = some x → P.constIntValue x = none →
    t.regMap x = some (home P x)

lemma phiSource_of_home (hx : P.incoming src ref = some x) (hnull : x ≠ .null)
    (hhome : P.constIntValue x = none → t.regMap x = some (home P x)) :
    phiSource P t src ref = some (operandSource P x) := by
  unfold phiSource operandSource
  rw [hx]
  dsimp only
  rw [if_neg hnull]
  cases hconst : P.constIntValue x with
  | some value => rfl
  | none =>
    rw [hhome hconst]
    rfl

lemma edgeCopies_of_home (h : EdgePhis P fn src phis) (hhome : AllHome P t src phis) :
    edgeCopies P t src phis = phis.map fun ref =>
      (.phi ref, operandSource P ((P.incoming src ref).getD .null)) := by
  unfold edgeCopies
  rw [← List.filterMap_eq_map]
  apply List.filterMap_congr
  intro ref href
  obtain ⟨x, hx, hnull⟩ := h.incoming ref href
  rw [phiSource_of_home hx hnull (hhome ref href x hx), Function.comp_apply, hx]
  rfl

lemma map_fst_edgeCopies : ((edgeCopies P t src phis).map Prod.fst).Sublist (phis.map VReg.phi) := by
  induction phis with
  | nil => exact List.Sublist.slnil
  | cons ref rest ih =>
    unfold edgeCopies
    rw [List.filterMap_cons, List.map_cons]
    cases phiSource P t src ref with
    | none => exact ih.cons _
    | some source => exact ih.cons_cons _

lemma nodup_edgeCopies (h : phis.Nodup) : ((edgeCopies P t src phis).map Prod.fst).Nodup :=
  (h.map fun _ _ heq => VReg.phi.inj heq).sublist map_fst_edgeCopies

/-- What the copies of the PHIs leave in a PHI's register. -/
lemma sequential_phi {pre post : List Nat} (hnodup : (pre ++ ref :: post).Nodup) (regs : VReg → V) :
    ParallelCopy.sequential M.const (edgeCopies P t src (pre ++ ref :: post)) regs (.phi ref) =
      match phiSource P t src ref with
      | none => regs (.phi ref)
      | some source => ParallelCopy.value M.const
          (ParallelCopy.sequential M.const (edgeCopies P t src pre) regs) source := by
  have hnot : ∀ phis', ref ∉ phis' →
      VReg.phi ref ∉ (edgeCopies P t src phis').map Prod.fst := by
    intro phis' href hmem
    obtain ⟨r, hr, heq⟩ := List.mem_map.mp (map_fst_edgeCopies.subset hmem)
    rw [VReg.phi.inj heq] at hr
    exact href hr
  rw [List.nodup_append, List.nodup_cons] at hnodup
  have hpre : ref ∉ pre := fun h => hnodup.2.2 ref h ref List.mem_cons_self rfl
  have hsplit : edgeCopies P t src (pre ++ ref :: post) = edgeCopies P t src pre ++
      ((phiSource P t src ref).map (VReg.phi ref, ·)).toList ++ edgeCopies P t src post := by
    unfold edgeCopies
    rw [List.filterMap_append, List.filterMap_cons, List.append_assoc]
    cases phiSource P t src ref <;> rfl
  rw [hsplit]
  cases phiSource P t src ref with
  | none =>
    rw [Option.map_none, Option.toList_none, List.append_nil, ParallelCopy.sequential_append,
      ParallelCopy.sequential_of_notMem (hnot post hnodup.2.1.1),
      ParallelCopy.sequential_of_notMem (hnot pre hpre)]
  | some source =>
    rw [Option.map_some, Option.toList_some, List.append_assoc, List.singleton_append]
    exact ParallelCopy.sequential_split (hnot post hnodup.2.1.1)

lemma eq_of_forall_regs [Nontrivial V] {a b : VReg} (h : ∀ regs : VReg → V, regs a = regs b) :
    a = b := by
  by_contra hne
  obtain ⟨v, v', hv⟩ := exists_pair_ne V
  have hboth := h (Function.update (fun _ => v) a v')
  rw [Function.update_self, Function.update_of_ne (Ne.symm hne)] at hboth
  exact hv hboth.symm

/-- The copies of the PHIs give each its operand. -/
def CopiesOperands (M : Target V σ) (P : IRProgram) (t : Translator) (src : Nat)
    (phis : List Nat) : Prop := ∀ regs, ∀ ref ∈ phis, ∃ x, P.incoming src ref = some x ∧
  ParallelCopy.sequential M.const (edgeCopies P t src phis) regs (.phi ref) = M.operand P regs x

lemma CopiesOperands.allHome [Nontrivial V] {W : Nat → Prop} (hcopies : CopiesOperands M P t src phis)
    (h : EdgePhis P fn src phis) (ht : Tracks P fn W t) : AllHome P t src phis := by
  intro ref href x hx hconst
  obtain ⟨x', hx', hnull⟩ := h.incoming ref href
  rw [hx] at hx'
  cases hx'
  obtain ⟨pre, post, rfl⟩ := List.append_of_mem href
  have hvalue : ∀ regs : VReg → V, (match phiSource P t src ref with
      | none => regs (.phi ref)
      | some source => ParallelCopy.value M.const
          (ParallelCopy.sequential M.const (edgeCopies P t src pre) regs) source) =
        regs (home P x) := by
    intro regs
    obtain ⟨x', hx', hfinal⟩ := hcopies regs ref href
    rw [hx] at hx'
    cases hx'
    rw [sequential_phi h.nodup, Target.operand, hconst] at hfinal
    exact hfinal
  have hsource : phiSource P t src ref = (t.regMap x).map .inr := by
    unfold phiSource
    rw [hx]
    dsimp only
    rw [if_neg hnull, hconst]
  rw [hsource] at hvalue
  cases hreg : t.regMap x with
  | none =>
    rw [hreg] at hvalue
    obtain rfl := eq_instr_of_home (eq_of_forall_regs hvalue).symm
    obtain ⟨hmem, hphi⟩ := h.mem ref href
    have hself := ht.regMap _ _ (ht.phiRegs ▸ phiRegs_of_mem hmem hphi)
    rw [hreg] at hself
    cases hself
  | some reg =>
    rcases ht.home_or_requested hreg with rfl | rfl
    · rfl
    · rw [hreg] at hvalue
      have hrequested : ∀ regs : VReg → V, regs (.requested x) = regs (home P x) := by
        intro regs
        rw [← hvalue regs]
        refine (ParallelCopy.sequential_of_notMem fun hmem => ?_).symm
        obtain ⟨r, -, heq⟩ := List.mem_map.mp (map_fst_edgeCopies.subset hmem)
        cases heq
      rw [eq_of_forall_regs hrequested]

/-- With all operands in their registers the copies are the moves of `ParallelCopy`. -/
lemma copiesOperands_iff [Nontrivial V] (h : EdgePhis P fn src phis) (hhome : AllHome P t src phis) :
    CopiesOperands M P t src phis ↔ phis.Pairwise fun a b =>
      P.incoming src b = some (.instr a) → P.incoming src a = some (.instr a) := by
  have hcopies := edgeCopies_of_home h hhome
  have hpar : CopiesOperands M P t src phis ↔
      ParallelCopy.IsParallel M.const (edgeCopies P t src phis) := by
    constructor
    · intro hc regs copy hcopy
      rw [hcopies] at hcopy
      obtain ⟨ref, href, rfl⟩ := List.mem_map.mp hcopy
      obtain ⟨x, hx, hfinal⟩ := hc regs ref href
      dsimp only
      rw [hfinal, hx]
      exact (value_operandSource regs).symm
    · intro hp regs ref href
      obtain ⟨x, hx, -⟩ := h.incoming ref href
      refine ⟨x, hx, ?_⟩
      have hcopy := hp regs (.phi ref, operandSource P x) (by
        rw [hcopies]
        exact List.mem_map.mpr ⟨ref, href, by rw [hx]; rfl⟩)
      rw [← value_operandSource regs]
      exact hcopy
  rw [hpar, ParallelCopy.isParallel_iff (nodup_edgeCopies h.nodup), hcopies,
    ParallelCopy.Independent, List.pairwise_map]
  have hread : ∀ a ∈ phis, ∀ b ∈ phis,
      operandSource P ((P.incoming src b).getD .null) = .inr (.phi a) ↔
        P.incoming src b = some (.instr a) := by
    intro a ha b hb
    obtain ⟨x, hx, -⟩ := h.incoming b hb
    rw [hx, Option.getD_some, Option.some_inj]
    constructor
    · intro hsource
      unfold operandSource at hsource
      cases hconst : P.constIntValue x with
      | some value =>
        rw [hconst] at hsource
        cases hsource
      | none =>
        rw [hconst] at hsource
        exact eq_instr_of_home (Sum.inr.inj hsource)
    · rintro rfl
      obtain ⟨-, hphi⟩ := h.mem a ha
      have hhome : home P (.instr a) = .phi a := if_pos hphi
      unfold operandSource
      rw [constIntValue_of_isPhiAt hphi, hhome]
  apply List.Pairwise.iff_of_mem
  intro a b ha hb
  dsimp only
  rw [hread a ha b hb, hread a ha a ha]

/-- The moves on an edge of a function in SSA form are a parallel copy exactly if the edge is safe. -/
theorem isParallelCopy_iff [Nontrivial V] (M : Target V σ) (hwf : P.WellFormedSSA fn)
    (hedge : dst ∈ P.blockSuccessors fn src) (mem : σ) :
    IsParallelCopy M P fn src dst ↔ SafeEdge P fn src dst := by
  have ht : Tracks P fn _ (afterBlocks P fn (src + 1)) := afterBlocks_tracks (src + 1)
  cases hblk : fn.blocks[dst]? with
  | none =>
    constructor
    · intro _ blk hblk'
      rw [hblk] at hblk'
      cases hblk'
    · intro _ s
      refine ⟨s, ?_, fun blk hblk' => ?_⟩
      · unfold emitPhiMovesForEdge
        rw [hblk]
        rfl
      · rw [hblk] at hblk'
        cases hblk'
  | some blk =>
    have hphis := edgePhis hwf hedge hblk
    have hmoves : ∀ s : VState V σ, M.execStraight
        (emitPhiMovesForEdge P fn (afterBlocks P fn (src + 1)) src dst) s = some { s with
          regs := ParallelCopy.sequential M.const
            (edgeCopies P (afterBlocks P fn (src + 1)) src (P.phisOf blk.instructions)) s.regs } := by
      intro s
      unfold emitPhiMovesForEdge
      rw [hblk]
      change M.execStraight ((leadingPhis P blk.instructions).flatMap _) s = _
      rw [leadingPhis_eq (hwf.blocks blk (List.mem_of_getElem? hblk))]
      apply execStraight_phiMoves
      intro ref href
      rw [ht.phiRegs]
      exact phiRegs_of_mem (hphis.mem ref href).1 (hphis.mem ref href).2
    have hcopies : IsParallelCopy M P fn src dst ↔ CopiesOperands M P
        (afterBlocks P fn (src + 1)) src (P.phisOf blk.instructions) := by
      constructor
      · intro hpar regs ref href
        obtain ⟨s', hs', hall⟩ := hpar ⟨regs, mem, []⟩
        rw [hmoves] at hs'
        cases hs'
        exact hall blk hblk ref href
      · intro hc s
        refine ⟨_, hmoves s, fun blk' hblk' ref href => ?_⟩
        rw [hblk] at hblk'
        cases hblk'
        exact hc s.regs ref href
    have hhome : AllHome P (afterBlocks P fn (src + 1)) src (P.phisOf blk.instructions) ↔
        ∀ ref ∈ P.phisOf blk.instructions, ∀ x, P.incoming src ref = some x →
          P.constIntValue x = none → EmittedBy P fn src x := by
      have hiff : ∀ ref ∈ P.phisOf blk.instructions, ∀ x, P.incoming src ref = some x →
          P.constIntValue x = none → ((afterBlocks P fn (src + 1)).regMap x = some (home P x) ↔
            EmittedBy P fn src x) := by
        intro ref href x hx hconst
        obtain ⟨x', hx', hnull⟩ := hphis.incoming ref href
        rw [hx] at hx'
        cases hx'
        exact regMap_home_iff hwf (hphis.mem ref href).1 (hphis.mem ref href).2 hx hnull hconst
      exact ⟨fun h ref href x hx hc => (hiff ref href x hx hc).mp (h ref href x hx hc),
        fun h ref href x hx hc => (hiff ref href x hx hc).mpr (h ref href x hx hc)⟩
    rw [hcopies]
    constructor
    · intro hc blk' hblk'
      rw [hblk] at hblk'
      cases hblk'
      have hall := hc.allHome hphis ht
      exact ⟨hhome.mp hall, (copiesOperands_iff hphis hall).mp hc⟩
    · intro hsafe
      obtain ⟨hemitted, hpair⟩ := hsafe blk hblk
      exact (copiesOperands_iff hphis (hhome.mpr hemitted)).mpr hpair

end

instance : Nontrivial Value := ⟨.word 0, .word 1, by decide⟩

/-- One PHI takes the other's value, and that one is increased, in every round. -/
def delayProgram : IRProgram where
  instrData := [(120, .ret .null), (104, .condBranch (.instr 40) 1 2),
    (88, .binary .add .int64 (.instr 64) (.instr 0)),
    (64, .phi .int64 [(.instr 16, 0), (.instr 88, 1)]),
    (40, .phi .int64 [(.instr 0, 0), (.instr 64, 1)]),
    (32, .branch 1), (16, .constInt .int64 2), (0, .constInt .int64 1)]

def delayFunction : IRFunction where
  name := "delay"
  returnType := .void
  paramNames := []
  paramTypes := []
  blocks := [⟨"entry", [0, 16, 32]⟩, ⟨"loop", [40, 64, 88, 104]⟩, ⟨"done", [120]⟩]
  paramRefs := []

lemma delay_safeEdge : SafeEdge delayProgram delayFunction 1 1 := by
  intro blk hblk
  cases hblk
  have hphis : delayProgram.phisOf [40, 64, 88, 104] = [40, 64] := by decide
  rw [hphis]
  refine ⟨fun ref href x hx _ => ?_, by decide⟩
  rcases List.mem_pair.mp href with rfl | rfl
  · have hsource : delayProgram.incoming 1 40 = some (.instr 64) := by decide
    cases hsource.symm.trans hx
    exact .inl (by decide)
  · have hsource : delayProgram.incoming 1 64 = some (.instr 88) := by decide
    cases hsource.symm.trans hx
    exact .inr ⟨1, Nat.le_refl 1, by decide, _, rfl, by decide⟩

theorem isParallelCopy_iff_delay : IsParallelCopy Arch.x86.target delayProgram delayFunction 1 1 :=
  (isParallelCopy_iff Arch.x86.target (by decide) (by decide)
    ⟨fun _ => [], fun _ => {}, fun _ => [], fun _ => 0⟩).mpr delay_safeEdge

/-- Two PHIs that swap their values in every round. -/
def swapProgram : IRProgram where
  instrData := [(104, .ret .null), (88, .condBranch (.instr 40) 1 2),
    (64, .phi .int64 [(.instr 16, 0), (.instr 40, 1)]),
    (40, .phi .int64 [(.instr 0, 0), (.instr 64, 1)]),
    (32, .branch 1), (16, .constInt .int64 2), (0, .constInt .int64 1)]

def swapFunction : IRFunction where
  name := "swap"
  returnType := .void
  paramNames := []
  paramTypes := []
  blocks := [⟨"entry", [0, 16, 32]⟩, ⟨"loop", [40, 64, 88]⟩, ⟨"done", [104]⟩]
  paramRefs := []

theorem isParallelCopy_swap : ¬ ∀ (P : IRProgram) (fn : IRFunction) (src dst : Nat),
    P.WellFormedSSA fn → dst ∈ P.blockSuccessors fn src →
    IsParallelCopy Arch.x86.target P fn src dst := by
  intro h
  have hcopy := h swapProgram swapFunction 1 1 (by decide) (by decide)
  have hmoves : emitPhiMovesForEdge swapProgram swapFunction
      (afterBlocks swapProgram swapFunction 2) 1 1 =
        [.mov (.phi 40) (.phi 64), .mov (.phi 64) (.phi 40)] := by decide
  obtain ⟨s', hs', hall⟩ := hcopy
    ⟨fun r => if r = .phi 40 then .word 1 else .word 2,
      ⟨fun _ => [], fun _ => {}, fun _ => [], fun _ => 0⟩, []⟩
  rw [hmoves] at hs'
  cases hs'
  obtain ⟨x, hx, hvalue⟩ := hall ⟨"loop", [40, 64, 88]⟩ rfl 64 (by decide)
  cases hx
  exact absurd hvalue (by decide)

end Proofs

end TidyTuples
