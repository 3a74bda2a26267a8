import TidyTuples.Proofs.CodeLayout
import TidyTuples.Proofs.Execution
import TidyTuples.Proofs.Mirroring

/-!
# The code of a block does what the block does

In a run that reads no register before it is written, the code of a block goes where the IR
interpreter goes, with the same stores and calls, and the moves on the edge leave in the registers of
the PHIs what the interpreter gives them on entry.
-/

namespace TidyTuples

open Translator IRProgram

namespace IRProgram

/-- PHIs come first, a terminator comes last if there is one, and no value of the block is read
before it is computed. -/
structure BlockForm (P : IRProgram) (instructions : List Nat) : Prop where
  phisFirst : instructions.takeWhile P.isPhiAt = instructions.filter P.isPhiAt
  body : ∀ ref ∈ instructions.dropLast, P.isTerminatorAt ref = false
  ordered : instructions.Pairwise fun ref ref' =>
    P.isPhiAt ref = false → .instr ref' ∉ P.usesAt ref

/-- On the edge from `src` to `dst` the operands of the PHIs are constants, PHIs or computed in
code that stands before the end of `src`, and the moves amount to a parallel copy. -/
structure EdgeForm (P : IRProgram) (fn : IRFunction) (src dst : Nat) : Prop where
  operands : ∀ ref ∈ P.phisOf (fn.instructionsAt dst), ∀ x, P.incoming src ref = some x →
    P.constIntValue x = none → ∃ c ∈ fn.refs, x = .instr c ∧ (P.isPhiAt c = true ∨
      ∃ k ≤ src, c ∈ fn.instructionsAt k ∧ ∃ i, P.instrAt c = some i ∧ i.writesResult = true)
  parallel : (P.phisOf (fn.instructionsAt dst)).Pairwise fun a b =>
    P.incoming src b = some (.instr a) → P.incoming src a = some (.instr a)

/-- What the lowering of a function relies on. A block without a terminator falls through to a
block without PHIs. -/
structure Translatable (P : IRProgram) (fn : IRFunction) : Prop where
  nonempty : 0 < fn.blocks.length
  nodup : fn.refs.Nodup
  records : ∀ r ∈ fn.refs, ∃ i, P.instrAt r = some i ∧ P.HasCode i
  blocks : ∀ b < fn.blocks.length, P.BlockForm (fn.instructionsAt b)
  falls : ∀ b < fn.blocks.length, (fn.instructionsAt b).getLast?.map P.isTerminatorAt ≠ some true →
    b + 1 < fn.blocks.length ∧ P.phisOf (fn.instructionsAt (b + 1)) = []
  targets : ∀ b < fn.blocks.length, ∀ dst ∈ P.blockSuccessors fn b, dst < fn.blocks.length
  edges : ∀ b < fn.blocks.length, ∀ dst ∈ P.blockSuccessors fn b, P.EdgeForm fn b dst

end IRProgram

namespace Proofs

/-- The state in which the instructions of block `dst` begin, entered from `src`. -/
def entered {V σ : Type} (P : IRProgram) (fn : IRFunction) (src : Option Nat) (dst : Nat)
    (s : ExecState V σ) : ExecState V σ :=
  let s := s.emitEvent (.enter dst)
  match src with
  | none => s
  | some src => { s with regs := P.applyPhis src s.regs (P.phisOf (fn.instructionsAt dst)) s.regs }

section

variable {V σ : Type} {M : Target V σ} {P : IRProgram} {fn : IRFunction} {t : Translator}
  {D : Nat → Prop} {W : List VReg} {X : Nat → Prop} {s s' : ExecState V σ} {v v' : VState V σ}
  {src dst b r : Nat} {i : Instr}

lemma stepBlock_eq (hdst : dst < fn.blocks.length) (src : Option Nat) (s : ExecState V σ) :
    P.stepBlock M.toMachine fn src dst s =
      P.execInstrs M.toMachine dst (fn.instructionsAt dst) (entered P fn src dst s) := by
  have hblk : fn.blocks[dst]? = some fn.blocks[dst] := List.getElem?_eq_getElem hdst
  have hinstrs : fn.instructionsAt dst = fn.blocks[dst].instructions := by
    rw [IRFunction.instructionsAt, hblk]
  unfold IRProgram.stepBlock entered
  cases src <;> simp only [hblk, hinstrs]

/-! ### Entering a block -/

lemma visible_enter (trace : List (Event V)) (b : Nat) : visible (trace ++ [.enter b]) = visible trace := by
  unfold visible
  rw [List.filter_append, List.filter_cons_of_neg (by simp [Event.isEnter]), List.filter_nil,
    List.append_nil]

lemma Mirrors.enter (h : Mirrors M P D W s v) (b : Nat) :
    Mirrors M P D W (s.emitEvent (.enter b)) v :=
  ⟨⟨h.mem, h.trace.trans (visible_enter s.trace b).symm⟩, h.homes, h.unrequested, h.deferred,
    h.consts, h.booleans⟩

lemma isBooleanRef_of_isPhiAt (h : P.isPhiAt r = true) : P.isBooleanRef (.instr r) = false := by
  unfold IRProgram.isPhiAt at h
  unfold IRProgram.isBooleanRef IRProgram.getInstr
  dsimp only
  cases hi : P.instrAt r with
  | none => rfl
  | some i =>
    rw [hi] at h
    cases i <;> first | rfl | cases h

/-- The move of a PHI gives it the value that its operand has. -/
lemma phiMove_mirrors (h : Mirrors M P D W s v) (ht : Tracks P fn X t) {ref : Nat}
    {x : IRValueRef} (hphi : P.isPhiAt ref = true)
    (hreg : t.phiRegs (.instr ref) = some (.phi ref)) (hx : P.incoming src ref = some x)
    (hoperand : P.constIntValue x = none → ∃ c reg, x = .instr c ∧ t.regMap x = some reg)
    (hW : WrittenFirst W (phiMove P t src ref)) :
    ∃ v', Runs M (phiMove P t src ref) v v' ∧
      Mirrors M P D (writtenBy W (phiMove P t src ref)) (s.setReg ref (s.regs x)) v' := by
  have hhome : home P (.instr ref) = .phi ref := if_pos hphi
  have hset : ∀ value, value = s.regs x →
      Mirrors M P D (.phi ref :: W) (s.setReg ref (s.regs x)) (v.setReg (.phi ref) value) := by
    rintro value rfl
    rw [← hhome]
    refine h.setHome ref (fun c _ heq => ?_) (fun w hw => ?_) fun hbool => ?_
    · rw [hhome] at heq
      cases heq
    · rw [constIntValue_of_isPhiAt hphi] at hw
      cases hw
    · rw [isBooleanRef_of_isPhiAt hphi] at hbool
      cases hbool
  cases hconst : P.constIntValue x with
  | some w =>
    have hnull : x ≠ .null := by
      rintro rfl
      cases hconst
    have hmove : phiMove P t src ref = [.movImm (.phi ref) w] := by
      rw [phiMove_eq hreg, phiSource, hx]
      dsimp only
      rw [if_neg hnull, hconst]
    rw [hmove]
    exact ⟨_, runs_straight rfl rfl, hset _ (h.consts x w hconst).symm⟩
  | none =>
    obtain ⟨c, reg, rfl, hmap⟩ := hoperand hconst
    have hmove : phiMove P t src ref = [.mov (.phi ref) reg] := by
      rw [phiMove_eq hreg, phiSource, hx]
      dsimp only
      rw [if_neg (by simp), hconst, hmap]
      rfl
    rw [hmove] at hW ⊢
    have hmem : t.regOf (.instr c) ∈ W := by
      rw [regOf_of_some hmap]
      exact hW.1 _ List.mem_cons_self
    refine ⟨_, runs_straight rfl rfl, hset _ ?_⟩
    rw [← regOf_of_some hmap]
    exact (h.read ht hmem).1

/-- The moves of an edge, while the operands that are still to be moved have their old values. -/
lemma phiMoves_mirror (ht : Tracks P fn X t) (old : IRValueRef → V) {phis : List Nat}
    (hphis : ∀ ref ∈ phis, P.isPhiAt ref = true ∧ t.phiRegs (.instr ref) = some (.phi ref))
    (hoperands : ∀ ref ∈ phis, ∀ x, P.incoming src ref = some x → P.constIntValue x = none →
      ∃ c reg, x = .instr c ∧ t.regMap x = some reg)
    (hparallel : phis.Pairwise fun a b =>
      P.incoming src b = some (.instr a) → P.incoming src a = some (.instr a))
    (h : Mirrors M P D W s v)
    (hold : ∀ ref ∈ phis, ∀ x, P.incoming src ref = some x → s.regs x = old x)
    (hW : WrittenFirst W (phis.flatMap (phiMove P t src))) :
    ∃ v', Runs M (phis.flatMap (phiMove P t src)) v v' ∧
      Mirrors M P D (writtenBy W (phis.flatMap (phiMove P t src)))
        { s with regs := P.applyPhis src old phis s.regs } v' := by
  induction phis generalizing s v W with
  | nil => exact ⟨v, runs_nil, h⟩
  | cons ref rest ih =>
    obtain ⟨hphi, hreg⟩ := hphis ref List.mem_cons_self
    rw [List.flatMap_cons] at hW ⊢
    obtain ⟨hW₁, hW₂⟩ := writtenFirst_append.mp hW
    rw [writtenBy_append]
    have htail : ∀ ref' ∈ rest, ref' ∈ ref :: rest := fun _ => List.mem_cons_of_mem ref
    obtain ⟨hsafe, hparallel'⟩ := List.pairwise_cons.mp hparallel
    cases hx : P.incoming src ref with
    | none =>
      have hmove : phiMove P t src ref = [] := by
        unfold phiMove
        rw [hx]
      rw [hmove] at hW₂ ⊢
      rw [IRProgram.applyPhis, hx]
      exact ih (fun r hr => hphis r (htail r hr)) (fun r hr => hoperands r (htail r hr)) hparallel' h
        (fun r hr => hold r (htail r hr)) hW₂
    | some x =>
      obtain ⟨v₁, hruns, h₁⟩ := phiMove_mirrors h ht hphi hreg hx
        (hoperands ref List.mem_cons_self x hx) hW₁
      have hvalue : s.regs x = old x := hold ref List.mem_cons_self x hx
      have hold' : ∀ r ∈ rest, ∀ y, P.incoming src r = some y →
          (s.setReg ref (s.regs x)).regs y = old y := by
        intro r hr y hy
        change Function.update s.regs (.instr ref) (s.regs x) y = old y
        by_cases hyref : y = .instr ref
        · -- an operand that has been overwritten was moved to itself
          have hself := hsafe r hr (hyref ▸ hy)
          rw [hx] at hself
          rw [hyref, Function.update_self, hvalue, Option.some.inj hself]
        · rw [Function.update_of_ne hyref]
          exact hold r (htail r hr) y hy
      obtain ⟨v', hruns', h'⟩ := ih (fun r hr => hphis r (htail r hr))
        (fun r hr => hoperands r (htail r hr)) hparallel' h₁ hold' hW₂
      refine ⟨v', hruns.append hruns', ?_⟩
      rw [IRProgram.applyPhis, hx]
      dsimp only
      rw [← hvalue]
      exact h'

/-! ### Comparisons that wait -/

/-- Only comparisons are deferred. -/
lemma deferredCmps_translateInstr {d : Nat → Nat → Bool} (ht : PhisMapped P fn t)
    (hi : P.instrAt r = some i) {x : IRValueRef}
    (hx : (translateInstr P fn d t r b).2.deferredCmps x = true) :
    t.deferredCmps x = true ∨ (x = .instr r ∧ i.isCompare = true ∧ d r b = true) := by
  by_cases hterm : i.isTerminator = true
  · rw [translateInstr, hi] at hx
    cases i with
    | branch target => exact .inl hx
    | ret value => exact .inl hx
    | condBranch cond b₁ b₂ =>
      dsimp only [translateCondBranch] at hx
      split_ifs at hx
      · split at hx
        · rename_i op ty a a' _
          obtain ⟨-, -, hrequests⟩ := getValue_pair ht a a'
          dsimp only at hx
          rw [hrequests] at hx
          change Function.update (t.requestAll [a, a']).deferredCmps cond false x = true at hx
          rw [Function.update_apply, deferredCmps_requestAll] at hx
          split_ifs at hx
          exact .inl hx
        · exact .inl hx
      · rw [getValue_eq ht] at hx
        exact .inl hx
    | _ => cases hterm
  · rw [Bool.not_eq_true] at hterm
    by_cases hconst : i.isConst = true
    · rw [translateInstr, hi] at hx
      have himm : ∀ value, (t.emitImm64 r value).2.deferredCmps = t.deferredCmps := by
        intro value
        unfold Translator.emitImm64
        cases t.regMap (.instr r) <;> rfl
      cases i with
      | constInt ty value => exact .inl (himm value ▸ hx)
      | constBool value => exact .inl (himm _ ▸ hx)
      | _ => cases hconst
    · by_cases hdefer : (i.isCompare && d r b) = true
      · rw [Bool.and_eq_true] at hdefer
        rw [translateInstr_deferred hi hdefer.1 hdefer.2] at hx
        change Function.update t.deferredCmps (.instr r) true x = true at hx
        rw [Function.update_apply] at hx
        split_ifs at hx with hxr
        · exact .inr ⟨hxr, hdefer⟩
        · exact .inl hx
      · rw [translateInstr_eq ht hi hterm (by simpa using hconst)
          fun hcmp => by simpa [hcmp] using hdefer, deferredCmps_after] at hx
        exact .inl hx

/-- The branch of a deferred comparison is the end of its wait. -/
lemma deferredCmps_condBranch {d : Nat → Nat → Bool} {c b₁ b₂ : Nat} (ht : PhisMapped P fn t)
    (hr : P.instrAt r = some (.condBranch (.instr c) b₁ b₂)) (hi : P.instrAt c = some i)
    (hcmp : i.isCompare = true) :
    (translateInstr P fn d t r b).2.deferredCmps (.instr c) = false := by
  rw [translateInstr, hr]
  dsimp only [translateCondBranch]
  have hget : P.getInstr (.instr c) = some i := hi
  split_ifs with hdefer
  · rw [hget]
    cases i with
    | binary op ty a a' => exact Function.update_self _ _ _
    | _ => cases hcmp
  · rw [getValue_eq ht]
    rw [Bool.not_eq_true] at hdefer
    exact hdefer

/-- Inside a block the comparisons that wait stand before. -/
lemma deferredCmps_before (hrecords : ∀ r ∈ fn.refs, ∃ i, P.instrAt r = some i)
    (hstart : ∀ x, (afterBlocks P fn b).deferredCmps x = false) {pre post : List Nat}
    (hsplit : fn.instructionsAt b = pre ++ post) {x : IRValueRef}
    (hx : (before P fn b pre).deferredCmps x = true) : ∃ c ∈ pre, x = .instr c ∧
      canDeferComparison P fn c b = true ∧ ∃ i, P.instrAt c = some i ∧ i.isCompare = true := by
  induction pre using List.reverseRecOn generalizing post with
  | nil =>
    rw [before_nil, hstart] at hx
    cases hx
  | append_singleton pre r ih =>
    rw [List.append_assoc] at hsplit
    have hr : r ∈ fn.instructionsAt b := by simp [hsplit]
    obtain ⟨i, hi⟩ := hrecords r (mem_refs_of_mem hr)
    rw [before_concat] at hx
    rcases deferredCmps_translateInstr before_tracks.toPhisMapped hi hx with hx | ⟨rfl, hcmp, hdefer⟩
    · obtain ⟨c, hc, heq⟩ := ih hsplit hx
      exact ⟨c, List.mem_append_left _ hc, heq⟩
    · exact ⟨r, by simp, rfl, hdefer, i, hi, hcmp⟩

/-- At the start of a block no comparison waits. -/
lemma deferredCmps_afterBlocks (hrecords : ∀ r ∈ fn.refs, ∃ i, P.instrAt r = some i)
    (hb : b ≤ fn.blocks.length) (x : IRValueRef) :
    (afterBlocks P fn b).deferredCmps x = false := by
  induction b generalizing x with
  | zero => rfl
  | succ b ih =>
    have hstart := ih (Nat.le_of_succ_le hb)
    rw [afterBlocks_succ hb]
    by_contra hx
    rw [Bool.not_eq_false] at hx
    obtain ⟨c, hc, rfl, hdefer, i, hi, hcmp⟩ :=
      deferredCmps_before hrecords hstart (List.append_nil _).symm hx
    obtain ⟨blk, last, b₁, b₂, hblk, hlast, hrecord, -⟩ := canDeferComparison_spec hdefer
    have hinstrs : fn.instructionsAt b = blk.instructions := by rw [IRFunction.instructionsAt, hblk]
    have hsplit := (List.dropLast_append_getLast? last hlast).symm
    rw [← hinstrs] at hsplit
    rw [hsplit, before_concat, deferredCmps_condBranch before_tracks.toPhisMapped hrecord hi hcmp] at hx
    cases hx

/-- The comparisons that wait have been computed and their operands are as they were. -/
def Waiting (M : Target V σ) (P : IRProgram) (fn : IRFunction) (b : Nat) (pre : List Nat)
    (s : ExecState V σ) : Prop :=
  ∀ c ∈ pre, canDeferComparison P fn c b = true → ∀ op ty a a',
    P.instrAt c = some (.binary op ty a a') → op.isComparison = true →
    s.regs (.instr c) = M.binary op (s.regs a) (s.regs a')

/-! ### Edges -/

/-- What is computed before the end of a block has a register there. -/
lemma regMap_before {pre : List Nat} {last c : Nat} {j : Instr}
    (hsplit : fn.instructionsAt b = pre ++ [last]) (hlast : P.instrAt last = some j)
    (hterm : j.isTerminator = true) (hc : c ∈ fn.refs)
    (hdefer : ¬ Deferred P fn (canDeferComparison P fn) c)
    (h : P.isPhiAt c = true ∨
      ∃ k ≤ b, c ∈ fn.instructionsAt k ∧ ∃ i, P.instrAt c = some i ∧ i.writesResult = true) :
    ∃ reg, (before P fn b pre).regMap (.instr c) = some reg := by
  have ht : Tracks P fn _ (before P fn b pre) := before_tracks
  rcases h with hphi | ⟨k, hk, hmem, i, hi, hwrites⟩
  · exact ⟨_, ht.regMap _ _ (ht.phiRegs ▸ phiRegs_of_mem hc hphi)⟩
  · have hw : Writes P (canDeferComparison P fn) k c := by
      refine ⟨i, hi, hwrites, ?_⟩
      rw [← Bool.not_eq_true, Bool.and_eq_true]
      exact fun hd => hdefer ⟨k, hmem, hd.2, i, hi, hd.1⟩
    have hin : WrittenIn P (canDeferComparison P fn) 0 (fn.blocks.take b) c ∨
        (c ∈ pre ∧ Writes P (canDeferComparison P fn) b c) := by
      rcases Nat.lt_or_eq_of_le hk with hlt | rfl
      · obtain ⟨blk, hblk, hcblk⟩ := mem_instructionsAt.mp hmem
        exact .inl ⟨k, blk, by rw [List.getElem?_take_of_lt hlt, hblk], hcblk, by rwa [Nat.zero_add]⟩
      · rw [hsplit, List.mem_append, List.mem_singleton] at hmem
        refine .inr ⟨hmem.resolve_right ?_, hw⟩
        rintro rfl
        rw [hi] at hlast
        cases hlast
        rw [Instr.writesResult_of_isTerminator hterm] at hwrites
        cases hwrites
    obtain ⟨-, -, -, hreg | ⟨-, hreg⟩⟩ := ht.written c hin
    · exact ⟨_, hreg⟩
    · exact ⟨_, hreg⟩

/-- A target of the branch that ends a block. -/
lemma mem_blockSuccessors {pre : List Nat} {last : Nat} {j : Instr}
    (hsplit : fn.instructionsAt b = pre ++ [last]) (hlast : P.instrAt last = some j)
    (hdst : dst ∈ j.successors) : dst ∈ P.blockSuccessors fn b := by
  unfold IRFunction.instructionsAt at hsplit
  unfold IRProgram.blockSuccessors
  cases hblk : fn.blocks[b]? with
  | none =>
    rw [hblk] at hsplit
    simp at hsplit
  | some blk =>
    rw [hblk] at hsplit
    dsimp only at hsplit ⊢
    rw [hsplit, List.getLast?_append, List.getLast?_singleton]
    dsimp only [Option.some_or]
    rw [hlast]
    exact hdst

/-- The moves on an edge enter the next block. -/
lemma edge_mirrors (hP : P.Translatable fn) (hb : b < fn.blocks.length)
    (hdst : dst ∈ P.blockSuccessors fn b) (ht : Tracks P fn X t)
    (hregs : ∀ c ∈ fn.refs, ¬ Deferred P fn (canDeferComparison P fn) c → (P.isPhiAt c = true ∨
      ∃ k ≤ b, c ∈ fn.instructionsAt k ∧ ∃ i, P.instrAt c = some i ∧ i.writesResult = true) →
      ∃ reg, t.regMap (.instr c) = some reg)
    (h : Mirrors M P D W s v) (hW : WrittenFirst W (emitPhiMovesForEdge P fn t b dst)) :
    ∃ v', Runs M (emitPhiMovesForEdge P fn t b dst) v v' ∧
      Mirrors M P D (writtenBy W (emitPhiMovesForEdge P fn t b dst))
        (entered P fn (some b) dst s) v' := by
  have hlt := hP.targets b hb dst hdst
  have hblk : fn.blocks[dst]? = some fn.blocks[dst] := List.getElem?_eq_getElem hlt
  have hinstrs : fn.instructionsAt dst = fn.blocks[dst].instructions := by
    rw [IRFunction.instructionsAt, hblk]
  have hmoves : emitPhiMovesForEdge P fn t b dst =
      (P.phisOf (fn.instructionsAt dst)).flatMap (phiMove P t b) := by
    have hphis : leadingPhis P (fn.instructionsAt dst) = P.phisOf (fn.instructionsAt dst) :=
      (hP.blocks dst hlt).phisFirst
    unfold emitPhiMovesForEdge
    rw [hblk]
    dsimp only
    rw [← hinstrs, hphis]
  rw [hmoves] at hW ⊢
  have hedge := hP.edges b hb dst hdst
  have hphi : ∀ ref ∈ P.phisOf (fn.instructionsAt dst), ref ∈ fn.refs ∧ P.isPhiAt ref = true := by
    intro ref href
    obtain ⟨hmem, hphi⟩ := List.mem_filter.mp href
    exact ⟨mem_refs_of_mem hmem, hphi⟩
  refine phiMoves_mirror (s := s.emitEvent (.enter dst)) ht s.regs (fun ref href => ?_)
    (fun ref href x hx hconst => ?_) hedge.parallel (h.enter dst) (fun _ _ _ _ => rfl) hW
  · obtain ⟨hmem, hphi⟩ := hphi ref href
    exact ⟨hphi, ht.phiRegs ▸ phiRegs_of_mem hmem hphi⟩
  · obtain ⟨c, hc, rfl, hemitted⟩ := hedge.operands ref href x hx hconst
    have hnot := not_isDeferred_incoming (fun _ _ hd => hd) (hphi ref href).1 hx
    obtain ⟨reg, hreg⟩ := hregs c hc (fun hd => hnot ⟨c, rfl, hd⟩) hemitted
    exact ⟨c, reg, rfl, hreg⟩

/-! ### Where the code of a block goes -/

/-- Control at a label enters block `next` from block `b` next, behind the moves of a true edge if
the label is one. -/
inductive Arrives (M : Target V σ) (P : IRProgram) (fn : IRFunction) (D : Nat → Prop) (b next : Nat)
    (W : List VReg) (s : ExecState V σ) : Label → VState V σ → Prop
  | block {v : VState V σ} : Mirrors M P D W (entered P fn (some b) next s) v →
      Arrives M P fn D b next W s (.block next) v
  | edge {label : Label} {rest : List VInstr} {v v' : VState V σ} :
      Target.afterLabel (translateFunction P fn) label = some rest →
      M.execCode rest v = .goto (.block next) v' → SameEffects s v →
      Mirrors M P D (writtenBy W (M.executedIn rest v)) (entered P fn (some b) next s) v' →
      Arrives M P fn D b next W s label v

/-- The code at a place in block `b` ends as the interpreter does. -/
inductive Follows (M : Target V σ) (P : IRProgram) (fn : IRFunction) (D : Nat → Prop) (b : Nat)
    (W : List VReg) (rest : List VInstr) (v : VState V σ) : Outcome V σ → Prop
  | falls (code : List VInstr) {s : ExecState V σ} {v' : VState V σ} :
      (fn.instructionsAt b).getLast?.map P.isTerminatorAt ≠ some true → rest = code ++ codeFrom P fn (b + 1) → Runs M code v v' →
      Mirrors M P D (writtenBy W code) s v' → Follows M P fn D b W rest v (.goto (b + 1) s)
  | jumps {next : Nat} {s : ExecState V σ} {label : Label} {v' : VState V σ} :
      next ∈ P.blockSuccessors fn b → M.execCode rest v = .goto label v' →
      Arrives M P fn D b next (writtenBy W (M.executedIn rest v)) s label v' →
      Follows M P fn D b W rest v (.goto next s)
  | returns {value : Option V} {s : ExecState V σ} {v' : VState V σ} :
      M.execCode rest v = .returned v' → SameEffects s v' →
      Follows M P fn D b W rest v (.returned value s)
  | sticks {s : ExecState V σ} {v' : VState V σ} :
      M.execCode rest v = .stuck v' → SameEffects s v' → Follows M P fn D b W rest v (.stuck s)

/-- Code that control falls through goes before. -/
lemma Follows.prepend (code : List VInstr) {rest : List VInstr} {o : Outcome V σ} (hruns : Runs M code v v')
    (h : Follows M P fn D b (writtenBy W code) rest v' o) :
    Follows M P fn D b W (code ++ rest) v o := by
  cases h with
  | falls code' hfall heq hruns' hm =>
    refine .falls (code ++ code') hfall ?_ (hruns.append hruns') ?_
    · rw [heq, List.append_assoc]
    · rwa [writtenBy_append]
  | jumps hnext hexec harrives =>
    refine .jumps hnext ((hruns.exec rest).trans hexec) ?_
    rwa [hruns.log, writtenBy_append]
  | returns hexec heffects => exact .returns ((hruns.exec rest).trans hexec) heffects
  | sticks hexec heffects => exact .sticks ((hruns.exec rest).trans hexec) heffects

/-- Moves and a jump. -/
lemma execCode_jmp {code : List VInstr} (h : Runs M code v v') (label : Label) (rest : List VInstr) :
    M.execCode (code ++ .jmp label :: rest) v = .goto label v' ∧
      M.executedIn (code ++ .jmp label :: rest) v = code ++ [.jmp label] := by
  rw [h.exec, h.log]
  exact ⟨rfl, rfl⟩

lemma writtenBy_jmp {code : List VInstr} {label : Label} :
    writtenBy W (code ++ [.jmp label]) = writtenBy W code := by
  rw [writtenBy_append]
  rfl

/-! ### The end of a block -/

lemma phiMoves_isTotal {src dst : Nat} :
    ∀ c ∈ emitPhiMovesForEdge P fn t src dst, c.isTotal = true := by
  intro c hc
  unfold emitPhiMovesForEdge at hc
  cases hblk : fn.blocks[dst]? with
  | none =>
    rw [hblk] at hc
    cases hc
  | some target =>
    rw [hblk] at hc
    obtain ⟨ref, -, hc⟩ := List.mem_flatMap.mp hc
    unfold phiMove at hc
    cases hx : P.incoming src ref with
    | none =>
      rw [hx] at hc
      cases hc
    | some x =>
      rw [hx] at hc
      dsimp only at hc
      split_ifs at hc
      · cases hc
      · cases hconst : P.constIntValue x with
        | some value =>
          rw [hconst] at hc
          rw [List.mem_singleton.mp hc]
          rfl
        | none =>
          rw [hconst] at hc
          cases hreg : t.regMap x with
          | none =>
            rw [hreg] at hc
            cases hc
          | some reg =>
            rw [hreg] at hc
            rw [List.mem_singleton.mp hc]
            rfl

/-- The moves of an edge and the jump behind them. -/
lemma edge_jumps (hP : P.Translatable fn) (hb : b < fn.blocks.length)
    (hdst : dst ∈ P.blockSuccessors fn b) (ht : Tracks P fn X t)
    (hregs : ∀ c ∈ fn.refs, ¬ Deferred P fn (canDeferComparison P fn) c → (P.isPhiAt c = true ∨
      ∃ k ≤ b, c ∈ fn.instructionsAt k ∧ ∃ i, P.instrAt c = some i ∧ i.writesResult = true) →
      ∃ reg, t.regMap (.instr c) = some reg)
    (h : Mirrors M P D W s v) {rest : List VInstr}
    (hclean : CleanFrom M (translateFunction P fn) W
      (emitPhiMovesForEdge P fn t b dst ++ .jmp (.block dst) :: rest) v) :
    ∃ v', M.execCode (emitPhiMovesForEdge P fn t b dst ++ .jmp (.block dst) :: rest) v =
        .goto (.block dst) v' ∧
      Mirrors M P D (writtenBy W (M.executedIn
        (emitPhiMovesForEdge P fn t b dst ++ .jmp (.block dst) :: rest) v))
        (entered P fn (some b) dst s) v' := by
  have htotal : ∀ c ∈ emitPhiMovesForEdge P fn t b dst, c.isTotal = true := phiMoves_isTotal
  obtain ⟨v₁, hruns⟩ := total_runs (M := M) htotal v
  obtain ⟨v', hruns', h'⟩ := edge_mirrors hP hb hdst ht hregs h
    (hclean.executes ⟨_, hruns.log _⟩)
  obtain ⟨hexec, hlog⟩ := execCode_jmp hruns' (.block dst) rest
  refine ⟨v', hexec, ?_⟩
  rw [hlog, writtenBy_jmp]
  exact h'

/-- A conditional branch, its condition known to be `c`. -/
lemma edges_follow (hP : P.Translatable fn) (hb : b < fn.blocks.length) {pre : List Nat}
    {cond : IRValueRef} {b₁ b₂ : Nat} (hsplit : fn.instructionsAt b = pre ++ [r])
    (hi : P.instrAt r = some (.condBranch cond b₁ b₂)) {refs : List IRValueRef} {head : VInstr}
    (hcode : (translateInstr P fn (canDeferComparison P fn) (before P fn b pre) r b).1 =
      head :: emitEdges P fn ((before P fn b pre).requestAll refs) r b₁ b₂ b)
    (hhead : ∀ label, head ≠ .bind label) (hwrites : head.writes = none) {c : Bool}
    (htrue : c = true → ∀ rest, M.execCode (head :: rest) v = .goto (.trueEdge r) v ∧
      M.executedIn (head :: rest) v = [head])
    (hfalse : c = false → Runs M [head] v v) (h : Mirrors M P D W s v)
    (hclean : CleanFrom M (translateFunction P fn) W (codeBehind P fn b pre [r]) v) :
    Follows M P fn D b W (codeBehind P fn b pre [r]) v (.goto (if c then b₁ else b₂) s) := by
  let t := (before P fn b pre).requestAll refs
  have ht : Tracks P fn _ t := before_tracks.requestAll refs
  have hregs : ∀ c ∈ fn.refs, ¬ Deferred P fn (canDeferComparison P fn) c → (P.isPhiAt c = true ∨
      ∃ k ≤ b, c ∈ fn.instructionsAt k ∧ ∃ i, P.instrAt c = some i ∧ i.writesResult = true) →
      ∃ reg, t.regMap (.instr c) = some reg := by
    intro c hc hdefer hemitted
    change ∃ reg, ((before P fn b pre).requestAll refs).regMap _ = _
    rw [regMap_requestAll]
    split_ifs
    · exact ⟨_, rfl⟩
    · exact regMap_before hsplit hi rfl hc hdefer hemitted
  have hwritten : writtenBy W [head] = W := by
    change head.writes.toList ++ W = W
    rw [hwrites]
    rfl
  have htargets : b₁ ∈ P.blockSuccessors fn b ∧ b₂ ∈ P.blockSuccessors fn b :=
    ⟨mem_blockSuccessors hsplit hi (by simp [Instr.successors]),
      mem_blockSuccessors hsplit hi (by simp [Instr.successors])⟩
  let rest := codeBehind P fn b (pre ++ [r]) []
  have hplace : codeBehind P fn b pre [r] = head :: (emitPhiMovesForEdge P fn t b b₂ ++
      .jmp (.block b₂) :: .bind (.trueEdge r) :: (emitPhiMovesForEdge P fn t b b₁ ++
        .jmp (.block b₁) :: rest)) := by
    rw [codeBehind_cons, hcode]
    simp [emitEdges, t, rest]
  cases c with
  | false =>
    have hruns := hfalse rfl
    rw [hplace] at hclean ⊢
    rw [← List.singleton_append] at hclean ⊢
    have hclean' := hclean.of_runs hruns
    rw [hwritten] at hclean'
    obtain ⟨v', hexec, h'⟩ := edge_jumps hP hb htargets.2 ht hregs h hclean'
    refine Follows.prepend [head] hruns ?_
    rw [hwritten]
    exact .jumps htargets.2 hexec (.block h')
  | true =>
    have hlabel : Target.afterLabel (translateFunction P fn) (.trueEdge r) =
        some ((emitPhiMovesForEdge P fn t b b₁ ++ [.jmp (.block b₁)]) ++ rest) := by
      refine afterLabel_trueEdge hP.nodup hb hsplit (head :: (emitPhiMovesForEdge P fn t b b₂ ++
        [.jmp (.block b₂)])) _ ?_ ?_
      · rw [hcode]
        simp [emitEdges, t]
      · intro hmem
        rcases List.mem_cons.mp hmem with heq | hmem
        · exact hhead _ heq.symm
        · rcases List.mem_append.mp hmem with hmem | hmem
          · exact bind_notMem_moves hmem
          · cases List.mem_singleton.mp hmem
    rw [List.append_assoc, List.singleton_append] at hlabel
    rw [hplace] at hclean ⊢
    obtain ⟨hexec, hlog⟩ := htrue rfl _
    have hclean' := hclean.of_goto hexec hlabel
    refine .jumps htargets.1 hexec ?_
    rw [hlog, hwritten] at hclean' ⊢
    obtain ⟨v', hexec', h'⟩ := edge_jumps hP hb htargets.1 ht hregs h hclean'
    exact .edge hlabel hexec' h.toSameEffects h'

/-- The terminator of a block. -/
lemma terminator_follows (hP : P.Translatable fn) (hb : b < fn.blocks.length) {pre : List Nat}
    (hsplit : fn.instructionsAt b = pre ++ [r]) (hi : P.instrAt r = some i)
    (hterm : i.isTerminator = true) (h : Mirrors M P D W s v) (hwait : Waiting M P fn b pre s)
    (hclean : CleanFrom M (translateFunction P fn) W (codeBehind P fn b pre [r]) v) :
    Follows M P fn D b W (codeBehind P fn b pre [r]) v
      (P.execInstrs M.toMachine b [r] s) := by
  have ht : Tracks P fn _ (before P fn b pre) := before_tracks
  have hrecords : ∀ r ∈ fn.refs, ∃ i, P.instrAt r = some i := fun r hr => by
    obtain ⟨i, hi, -⟩ := hP.records r hr
    exact ⟨i, hi⟩
  cases i with
  | branch target =>
    have hcode : codeBehind P fn b pre [r] = emitPhiMovesForEdge P fn (before P fn b pre) b target ++
        .jmp (.block target) :: codeBehind P fn b (pre ++ [r]) [] := by
      rw [codeBehind_cons, translateInstr, hi]
      simp
    rw [hcode] at hclean ⊢
    have hdst : target ∈ P.blockSuccessors fn b :=
      mem_blockSuccessors hsplit hi (by simp [Instr.successors])
    obtain ⟨v', hexec, h'⟩ := edge_jumps hP hb hdst ht
      (fun c hc hdefer hemitted => regMap_before hsplit hi rfl hc hdefer hemitted) h hclean
    rw [IRProgram.execInstrs, hi]
    exact .jumps hdst hexec (.block h')
  | ret value =>
    have hcode : codeBehind P fn b pre [r] = .ret :: codeBehind P fn b (pre ++ [r]) [] := by
      rw [codeBehind_cons, translateInstr, hi]
      rfl
    rw [hcode, IRProgram.execInstrs, hi]
    exact .returns rfl h.toSameEffects
  | condBranch cond b₁ b₂ =>
    rw [IRProgram.execInstrs, hi]
    by_cases hdefer : (before P fn b pre).deferredCmps cond = true
    · -- the branch compares
      obtain ⟨c, hc, rfl, hcan, j, hj, hcmp⟩ := deferredCmps_before hrecords
        (deferredCmps_afterBlocks hrecords hb.le) hsplit hdefer
      cases j with
      | binary op ty a a' =>
        have hvalue := hwait c hc hcan op ty a a' hj hcmp
        obtain ⟨hra, hra', hrequests⟩ := getValue_pair ht.toPhisMapped a a'
        have hget : P.getInstr (.instr c) = some (.binary op ty a a') := hj
        have hcode : (translateInstr P fn (canDeferComparison P fn) (before P fn b pre) r b).1 =
            .cmpJumpTrue op ((before P fn b pre).regOf a) ((before P fn b pre).regOf a')
              (.trueEdge r) :: emitEdges P fn ((before P fn b pre).requestAll [a, a']) r b₁ b₂ b := by
          rw [translateInstr, hi]
          dsimp only [translateCondBranch]
          rw [if_pos hdefer, hget]
          dsimp only
          rw [hra, hra', hrequests]
        have hread : ∀ x ∈ [(before P fn b pre).regOf a, (before P fn b pre).regOf a'], x ∈ W := by
          have hfuel := hclean 0
          rw [Target.executedFrom, codeBehind_cons, hcode] at hfuel
          exact hfuel.1
        have ha := (h.read ht (hread _ List.mem_cons_self)).1
        have ha' := (h.read ht (hread _ (List.mem_cons_of_mem _ List.mem_cons_self))).1
        have htruthy : M.truthy (s.regs (.instr c)) = M.compare op (s.regs a) (s.regs a') := by
          rw [hvalue, M.binary_compare op _ _ hcmp, M.truthy_const]
          cases M.compare op (s.regs a) (s.regs a') <;> rfl
        dsimp only
        rw [htruthy]
        refine edges_follow hP hb hsplit hi hcode (fun label hlabel => by cases hlabel) rfl
          (fun hc rest => ?_) (fun hc => runs_compare (by rw [ha, ha', hc]) _) h hclean
        rw [Target.execCode, Target.executedIn, ha, ha', hc]
        exact ⟨rfl, rfl⟩
      | _ => cases hcmp
    · -- the branch tests the register of its condition
      have hcode : (translateInstr P fn (canDeferComparison P fn) (before P fn b pre) r b).1 =
          .testJumpTrue ((before P fn b pre).regOf cond) (.trueEdge r) ::
            emitEdges P fn ((before P fn b pre).requestAll [cond]) r b₁ b₂ b := by
        rw [translateInstr, hi]
        dsimp only [translateCondBranch]
        rw [if_neg hdefer, getValue_eq ht.toPhisMapped]
        rfl
      have hread : (before P fn b pre).regOf cond ∈ W := by
        have hfuel := hclean 0
        rw [Target.executedFrom, codeBehind_cons, hcode] at hfuel
        exact hfuel.1 _ List.mem_cons_self
      have hcond := (h.read ht hread).1
      refine edges_follow hP hb hsplit hi hcode (fun label hlabel => by cases hlabel) rfl
        (fun hc rest => ?_) (fun hc => runs_test (by rw [hcond, hc]) _) h hclean
      rw [Target.execCode, Target.executedIn, hcond, hc]
      exact ⟨rfl, rfl⟩
  | _ => cases hterm

end

end Proofs

end TidyTuples
