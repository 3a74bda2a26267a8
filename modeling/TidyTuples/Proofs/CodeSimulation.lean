import TidyTuples.Lib.Stuttering
import TidyTuples.Proofs.BlockLowering

/-!
# The code of a function simulates the function

Where the code reads no register before it is written, it returns if and only if the interpreter
does, is stuck if and only if the interpreter is, and makes the same stores and calls meanwhile.
-/

namespace TidyTuples

open Translator IRProgram

namespace Proofs

section

variable {V σ : Type} {M : Target V σ} {P : IRProgram} {fn : IRFunction} {t : Translator}
  {W : List VReg} {X : Nat → Prop} {s s' : ExecState V σ} {v v' v₀ : VState V σ}
  {b r : Nat} {i : Instr} {pre post : List Nat}

/-! ### The body of a block -/

/-- The code of an instruction is executed up to its last instruction at least. -/
lemma lowerInstr_executed (reg : IRValueRef → VReg) (i : Instr) (rest : List VInstr)
    (v : VState V σ) : ∃ log, M.executedIn (lowerInstr P reg r i ++ rest) v =
      lowerInstr P reg r i ++ log := by
  have hone : ∀ c : VInstr, c.isStraight = true →
      ∃ log, M.executedIn ([c] ++ rest) v = [c] ++ log := fun c hc =>
    executedIn_reaches [] (fun _ h => nomatch h) hc rest v
  have hunary : ∀ op a, ∃ log, M.executedIn (lowerUnary reg r op a ++ rest) v =
      lowerUnary reg r op a ++ log := by
    intro op a
    cases op <;> first | exact hone _ rfl | exact ⟨_, rfl⟩
  cases i with
  | constInt ty value => exact hone _ rfl
  | constBool value => exact hone _ rfl
  | binary op ty a b =>
    cases op <;> first | exact hone _ rfl | exact ⟨_, rfl⟩
  | unary op ty a => exact hunary op a
  | rotateRight a shift => exact hone _ rfl
  | gep base byteOffset => exact hone _ rfl
  | call ty callee args =>
    refine executedIn_reaches (argumentCode P r 0 args) (fun c hc => ?_) rfl rest v
    obtain ⟨⟨arg, k⟩, -, hw⟩ := List.mem_filterMap.mp hc
    obtain ⟨w, -, rfl⟩ := Option.map_eq_some_iff.mp hw
    rfl
  | _ => exact ⟨_, rfl⟩

/-- An instruction leaves what waits as it is, and a comparison that waits from now on has been
computed. -/
lemma Waiting.step (hP : P.Translatable fn) (hb : b < fn.blocks.length)
    (hsplit : fn.instructionsAt b = pre ++ r :: post) (h : Waiting M P fn b pre s)
    (hi : P.instrAt r = some i) (hs : execInstr M.toMachine r i s = some s') :
    Waiting M P fn b (pre ++ [r]) s' := by
  intro c hc hcan op ty a a' hrecord hop
  have huses := usesAt_of_compare hrecord hop
  have hspare : .instr r ∉ P.usesAt c →
      s'.regs a = s.regs a ∧ s'.regs a' = s.regs a' := by
    intro hnot
    rw [huses] at hnot
    simp only [List.mem_cons, List.not_mem_nil, or_false, not_or] at hnot
    exact ⟨execInstr_regs hs (Ne.symm hnot.1), execInstr_regs hs (Ne.symm hnot.2)⟩
  rcases List.mem_append.mp hc with hc | hc
  · have hblock := instructionsAt_nodup hP.nodup b
    rw [hsplit, List.nodup_append] at hblock
    have hne : c ≠ r := hblock.2.2 c hc r List.mem_cons_self
    have hordered := (hP.blocks b hb).ordered
    rw [hsplit, List.pairwise_append] at hordered
    have hphi : P.isPhiAt c = false := by
      rw [IRProgram.isPhiAt, hrecord]
      rfl
    obtain ⟨ha, ha'⟩ := hspare (hordered.2.2 c hc r List.mem_cons_self hphi)
    rw [execInstr_regs hs fun heq => hne (IRValueRef.instr.inj heq), ha, ha']
    exact h c hc hcan op ty a a' hrecord hop
  · cases List.mem_singleton.mp hc
    rw [hi] at hrecord
    cases hrecord
    obtain ⟨-, last, b₁, b₂, -, -, hlast, honly⟩ := canDeferComparison_spec hcan
    have hr : r ∈ fn.refs := mem_refs_of_mem (b := b) (by simp [hsplit])
    -- an operand of the comparison is not the comparison, whose only use is the branch
    have hself : .instr r ∉ P.usesAt r := by
      intro huse
      rw [IRProgram.usesAt, hi] at huse
      have heq := honly r hr _ hi huse
      rw [← heq, hi] at hlast
      cases hlast
    obtain ⟨ha, ha'⟩ := hspare hself
    have hbinary : op.isBinary = true := Opcode.isBinary_of_isComparison hop
    have hstore : op ≠ .store := by
      rintro rfl
      cases hop
    simp only [execInstr, hstore, if_false, hbinary, if_true, Option.some.injEq] at hs
    rw [ha, ha', ← hs]
    exact Function.update_self _ _ _

/-- A constant in its register, or in none if its operand has been requested before. -/
lemma emitImm64_mirrors {D : Nat → Prop} (h : Mirrors M P D W s v) (t : Translator)
    (hi : P.instrAt r = some i) (hphi : i.isPhi = false) (hD : ¬ D r) {value : Word}
    (hvalue : P.constIntValue (.instr r) = some value)
    (hbool : i.isBoolean = true → ∃ b, M.const value = M.const (wordOfBool b)) :
    ∃ v', Runs M (t.emitImm64 r value).1 v v' ∧ Mirrors M P D (writtenBy W (t.emitImm64 r value).1)
      (s.setReg r (M.const value)) v' := by
  unfold Translator.emitImm64
  cases t.regMap (.instr r) with
  | none =>
    refine ⟨_, runs_straight rfl rfl, h.setResult hi hphi hD (fun w hw => ?_) hbool⟩
    rw [hvalue] at hw
    rw [Option.some.inj hw]
  | some reg =>
    have hsame : s.setReg r (M.const value) = s := by
      unfold ExecState.setReg
      rw [← h.consts _ _ hvalue, Function.update_eq_self]
    rw [hsame]
    exact ⟨v, runs_nil, h⟩

/-- A comparison sets its result and does nothing else. -/
lemma execInstr_compare (hcmp : i.isCompare = true) (s : ExecState V σ) :
    ∃ value, execInstr M.toMachine r i s = some (s.setReg r value) := by
  cases i with
  | binary op ty a a' =>
    cases op with
    | cmpEq | cmpNe | cmpLt | cmpGt | cmpLe | cmpGe => exact ⟨_, rfl⟩
    | _ => cases hcmp
  | _ => cases hcmp

lemma execInstrs_cons (hi : P.instrAt r = some i) (hterm : i.isTerminator = false)
    (rest : List Nat) (s : ExecState V σ) :
    P.execInstrs M.toMachine b (r :: rest) s = match execInstr M.toMachine r i s with
      | none => .stuck s
      | some s => P.execInstrs M.toMachine b rest s := by
  rw [IRProgram.execInstrs, hi]
  cases i <;> first | rfl | cases hterm

/-- The rest of a block. -/
theorem body_follows (hP : P.Translatable fn) (hM : M.Logical) (hb : b < fn.blocks.length)
    (hsplit : fn.instructionsAt b = pre ++ post) (hpre : ∀ r ∈ pre, P.isTerminatorAt r = false)
    (h : Mirrors M P (Deferred P fn (canDeferComparison P fn)) W s v)
    (hwait : Waiting M P fn b pre s)
    (hclean : CleanFrom M (translateFunction P fn) W (codeBehind P fn b pre post) v) :
    Follows M P fn (Deferred P fn (canDeferComparison P fn)) b W (codeBehind P fn b pre post) v
      (P.execInstrs M.toMachine b post s) := by
  induction post generalizing pre W s v with
  | nil =>
    refine .falls [] ?_ rfl runs_nil h
    rw [hsplit, List.append_nil, Ne, Option.map_eq_some_iff]
    rintro ⟨last, hlast, hterm⟩
    rw [hpre last (List.mem_of_getLast? hlast)] at hterm
    cases hterm
  | cons r rest ih =>
    have hr : r ∈ fn.instructionsAt b := by simp [hsplit]
    obtain ⟨i, hi, hcode⟩ := hP.records r (mem_refs_of_mem hr)
    have ht : Tracks P fn _ (before P fn b pre) := before_tracks
    have hsplit' : fn.instructionsAt b = (pre ++ [r]) ++ rest := by
      rw [hsplit, List.append_assoc, List.singleton_append]
    cases hterm : i.isTerminator with
    | true =>
      cases rest with
      | nil => exact terminator_follows hP hb hsplit hi hterm h hwait hclean
      | cons r' rest =>
        have hbody := (hP.blocks b hb).body r (by
          rw [hsplit, List.dropLast_append_of_ne_nil (by simp)]
          simp)
        rw [IRProgram.isTerminatorAt, hi] at hbody
        change i.isTerminator = false at hbody
        rw [hterm] at hbody
        cases hbody
    | false =>
      have hpre' : ∀ r' ∈ pre ++ [r], P.isTerminatorAt r' = false := by
        intro r' hr'
        rcases List.mem_append.mp hr' with hr' | hr'
        · exact hpre r' hr'
        · rw [List.mem_singleton.mp hr', IRProgram.isTerminatorAt, hi]
          exact hterm
      -- code of an instruction that is executed whole, or stops the run
      have hstep : ∀ code : List VInstr,
          codeBehind P fn b pre (r :: rest) = code ++ codeBehind P fn b (pre ++ [r]) rest →
          (∀ s', execInstr M.toMachine r i s = some s' → ∃ v', Runs M code v v' ∧
            Mirrors M P (Deferred P fn (canDeferComparison P fn)) (writtenBy W code) s' v') →
          (execInstr M.toMachine r i s = none → ∃ v', Halts M code v v' ∧ SameEffects s v') →
          Follows M P fn (Deferred P fn (canDeferComparison P fn)) b W
            (codeBehind P fn b pre (r :: rest)) v (P.execInstrs M.toMachine b (r :: rest) s) := by
        intro code hplace hgoes hstops
        rw [execInstrs_cons hi hterm, hplace]
        rw [hplace] at hclean
        cases hs : execInstr M.toMachine r i s with
        | none =>
          obtain ⟨v', hstop, heffects⟩ := hstops hs
          exact .sticks (hstop.exec _) heffects
        | some s' =>
          obtain ⟨v', hruns, h'⟩ := hgoes s' hs
          exact (ih hsplit' hpre' h' (hwait.step hP hb hsplit hi hs) (hclean.of_runs hruns)).prepend code hruns
      cases hphi : i.isPhi with
      | true =>
        cases i with
        | phi ty entries =>
          refine hstep [] ?_ (fun s' hs => ⟨v, runs_nil, ?_⟩) fun hs => by cases hs
          · rw [codeBehind_cons, translateInstr, hi]
          · cases hs
            exact h
        | _ => cases hphi
      | false =>
        cases hconst : i.isConst with
        | true =>
          have hD : ¬ Deferred P fn (canDeferComparison P fn) r := by
            rintro ⟨-, -, -, j, hj, hcmp⟩
            rw [hi] at hj
            cases hj
            rw [(Instr.writesResult_of_isConst hconst).2] at hcmp
            cases hcmp
          cases i with
          | constInt ty value =>
            refine hstep ((before P fn b pre).emitImm64 r value).1 ?_ (fun s' hs => ?_)
              fun hs => by cases hs
            · rw [codeBehind_cons, translateInstr, hi]
            · cases hs
              exact emitImm64_mirrors h _ hi rfl hD (IRProgram.constIntValue_constInt hi)
                fun hbool => by cases hbool
          | constBool value =>
            refine hstep ((before P fn b pre).emitImm64 r (if value then 1 else 0)).1 ?_
              (fun s' hs => ?_) fun hs => by cases hs
            · rw [codeBehind_cons, translateInstr, hi]
            · cases hs
              exact emitImm64_mirrors h _ hi rfl hD (IRProgram.constIntValue_constBool hi)
                fun _ => ⟨value, rfl⟩
          | _ => cases hconst
        | false =>
          by_cases hdefer : i.isCompare = true ∧ canDeferComparison P fn r b = true
          · -- a comparison that waits has no code
            have hD : Deferred P fn (canDeferComparison P fn) r := ⟨b, hr, hdefer.2, i, hi, hdefer.1⟩
            obtain ⟨value, hvalue⟩ := execInstr_compare (M := M) (r := r) hdefer.1 s
            refine hstep [] ?_ (fun s' hs => ⟨v, runs_nil, ?_⟩) fun hs => ?_
            · rw [codeBehind_cons, translateInstr_deferred hi hdefer.1 hdefer.2]
            · rw [hvalue] at hs
              cases hs
              exact h.setUnwritten hi hphi hconst hD value
            · rw [hvalue] at hs
              cases hs
          · have hno : i.isCompare = true → canDeferComparison P fn r b = false := fun hcmp => by
              rw [← Bool.not_eq_true]
              exact fun hcan => hdefer ⟨hcmp, hcan⟩
            have hplace : codeBehind P fn b pre (r :: rest) =
                lowerInstr P (before P fn b pre).regOf r i ++ codeBehind P fn b (pre ++ [r]) rest := by
              rw [codeBehind_cons, translateInstr_eq ht.toPhisMapped hi hterm hconst hno]
            have hD : ¬ Deferred P fn (canDeferComparison P fn) r := by
              rintro ⟨b', hr', hcan, j, hj, hcmp⟩
              cases instructionsAt_unique hP.nodup hr hr'
              rw [hi] at hj
              cases hj
              exact hdefer ⟨hcmp, hcan⟩
            have hW : WrittenFirst W (lowerInstr P (before P fn b pre).regOf r i) := by
              rw [hplace] at hclean
              exact hclean.executes (lowerInstr_executed _ i _ v)
            obtain ⟨hgoes, hstops⟩ := lowerInstr_mirrors hM h ht hi hterm hphi hconst hcode hD hW
            exact hstep _ hplace hgoes hstops

/-! ### The whole function -/

/-- A step of the interpreter is a block. -/
def nextBlock (M : Target V σ) (P : IRProgram) (fn : IRFunction)
    (p : Option Nat × Nat × ExecState V σ) : (Option Nat × Nat × ExecState V σ) ⊕ Outcome V σ :=
  match P.stepBlock M.toMachine fn p.1 p.2.1 p.2.2 with
  | .goto next s => .inl (some p.2.1, next, s)
  | o => .inr o

/-- A step of the code leads from one label to the next. -/
def nextLabel (M : Target V σ) (code : List VInstr) (p : Label × VState V σ) :
    (Label × VState V σ) ⊕ CodeOutcome V σ :=
  match Target.afterLabel code p.1 with
  | none => .inr (.stuck p.2)
  | some rest =>
    match M.execCode rest p.2 with
    | .goto label v => .inl (label, v)
    | o => .inr o

lemma runBlocks_eq (n : Nat) (src : Option Nat) (blk : Nat) (s : ExecState V σ) :
    P.runBlocks M.toMachine fn n src blk s =
      (Stuttering.steps (nextBlock M P fn) n (src, blk, s)).elim (fun p => .goto p.2.1 p.2.2) id := by
  induction n generalizing src blk s with
  | zero => rfl
  | succ n ih =>
    rw [IRProgram.runBlocks, Stuttering.steps, nextBlock]
    cases P.stepBlock M.toMachine fn src blk s with
    | goto next s' => exact ih (some blk) next s'
    | returned value s' => rfl
    | stuck s' => rfl

lemma runCode_eq (code : List VInstr) (m : Nat) (label : Label) (v : VState V σ) :
    M.runCode code m label v =
      (Stuttering.steps (nextLabel M code) m (label, v)).elim (fun p => .goto p.1 p.2) id := by
  induction m generalizing label v with
  | zero => rfl
  | succ m ih =>
    rw [Target.runCode, Stuttering.steps, nextLabel]
    cases Target.afterLabel code label with
    | none => rfl
    | some rest =>
      dsimp only
      cases M.execCode rest v with
      | goto label' v' => exact ih label' v'
      | returned v' => rfl
      | stuck v' => rfl

/-- Both have gone on, returned or got stuck, with the same effects. -/
inductive SameRun : Outcome V σ → CodeOutcome V σ → Prop
  | goes {blk : Nat} {label : Label} {s : ExecState V σ} {v : VState V σ} :
      SameEffects s v → SameRun (.goto blk s) (.goto label v)
  | returns {value : Option V} {s : ExecState V σ} {v : VState V σ} :
      SameEffects s v → SameRun (.returned value s) (.returned v)
  | sticks {s : ExecState V σ} {v : VState V σ} : SameEffects s v → SameRun (.stuck s) (.stuck v)

lemma SameRun.code_returns {value : Option V} {s : ExecState V σ} {o : CodeOutcome V σ}
    (h : SameRun (.returned value s) o) : ∃ v, o = .returned v ∧ SameEffects s v := by
  cases h with
  | returns heffects => exact ⟨_, rfl, heffects⟩

lemma SameRun.function_returns {o : Outcome V σ} {v : VState V σ} (h : SameRun o (.returned v)) :
    ∃ value s, o = .returned value s ∧ SameEffects s v := by
  cases h with
  | returns heffects => exact ⟨_, _, rfl, heffects⟩

/-- The code stands before the instructions of the block that the interpreter enters, or before code
of blocks that have been left. -/
structure StandsAt (M : Target V σ) (P : IRProgram) (fn : IRFunction)
    (p : Option Nat × Nat × ExecState V σ) (q : Label × VState V σ) : Prop where
  lt : p.2.1 < fn.blocks.length
  place : ∃ code v W,
    Target.afterLabel (translateFunction P fn) q.1 =
      some (code ++ codeBehind P fn p.2.1 [] (fn.instructionsAt p.2.1)) ∧
    Runs M code q.2 v ∧
    Mirrors M P (Deferred P fn (canDeferComparison P fn)) W (entered P fn p.1 p.2.1 p.2.2) v ∧
    CleanFrom M (translateFunction P fn) W (codeBehind P fn p.2.1 [] (fn.instructionsAt p.2.1)) v

lemma sameEffects_of_entered {src : Option Nat} (h : SameEffects (entered P fn src b s) v) :
    SameEffects s v := by
  have hmem : (entered P fn src b s).mem = s.mem := by cases src <;> rfl
  have htrace : (entered P fn src b s).trace = s.trace ++ [.enter b] := by cases src <;> rfl
  refine ⟨h.mem.trans hmem, ?_⟩
  rw [h.trace, htrace, visible_enter]

/-- The code of a block follows the interpreter from wherever the code stands. -/
lemma StandsAt.follows (hP : P.Translatable fn) (hM : M.Logical)
    {p : Option Nat × Nat × ExecState V σ} {q : Label × VState V σ} (h : StandsAt M P fn p q) :
    ∃ code rest v W, Target.afterLabel (translateFunction P fn) q.1 = some (code ++ rest) ∧
      Runs M code q.2 v ∧ CleanFrom M (translateFunction P fn) W rest v ∧
      Follows M P fn (Deferred P fn (canDeferComparison P fn)) p.2.1 W rest v
        (P.stepBlock M.toMachine fn p.1 p.2.1 p.2.2) := by
  obtain ⟨hlt, code, v, W, hlabel, hruns, hm, hclean⟩ := h
  refine ⟨code, _, v, W, hlabel, hruns, hclean, ?_⟩
  rw [stepBlock_eq hlt]
  exact body_follows hP hM hlt (List.nil_append _).symm (fun _ hr => nomatch hr) hm
    (fun _ hc => nomatch hc) hclean

/-- Behind the label of a block. -/
lemma standsAt_block {src : Option Nat} (hb : b < fn.blocks.length)
    (hm : Mirrors M P (Deferred P fn (canDeferComparison P fn)) W (entered P fn src b s) v)
    (hclean : ∀ rest, Target.afterLabel (translateFunction P fn) (.block b) = some rest →
      CleanFrom M (translateFunction P fn) W rest v) :
    StandsAt M P fn (src, b, s) (.block b, v) := by
  have hlabel := afterLabel_block (P := P) hb
  exact ⟨hb, [], v, W, hlabel, runs_nil, hm, hclean _ hlabel⟩

/-- Before the label of the block that follows. -/
lemma standsAt_succ {code code' : List VInstr} {label : Label} (hb : b + 1 < fn.blocks.length)
    (hphis : P.phisOf (fn.instructionsAt (b + 1)) = [])
    (hlabel : Target.afterLabel (translateFunction P fn) label =
      some (code ++ (code' ++ codeFrom P fn (b + 1)))) (hruns : Runs M code v₀ v)
    (hruns' : Runs M code' v v')
    (hm : Mirrors M P (Deferred P fn (canDeferComparison P fn)) W s v')
    (hclean : CleanFrom M (translateFunction P fn) W (codeFrom P fn (b + 1)) v') :
    StandsAt M P fn (some b, b + 1, s) (label, v₀) := by
  refine ⟨hb, code ++ (code' ++ [.bind (.block (b + 1))]), v', W, ?_,
    hruns.append (hruns'.append (runs_bind _)), ?_, ?_⟩
  · rw [hlabel, codeFrom_eq hb]
    simp
  · unfold entered
    rw [hphis]
    exact hm.enter (b + 1)
  · rw [codeFrom_eq hb, ← List.singleton_append] at hclean
    exact hclean.of_runs (runs_bind _)

lemma nextLabel_eq {code rest : List VInstr} {label : Label}
    (hlabel : Target.afterLabel (translateFunction P fn) label = some (code ++ rest))
    (hruns : Runs M code v₀ v) : nextLabel M (translateFunction P fn) (label, v₀) =
      match M.execCode rest v with
      | .goto label v => .inl (label, v)
      | o => .inr o := by
  rw [nextLabel, hlabel]
  dsimp only
  rw [hruns.exec]

/-- A jump enters the next block, directly or over a true edge. -/
lemma Arrives.moves {next : Nat} {label : Label} {q : Label × VState V σ}
    (h : Arrives M P fn (Deferred P fn (canDeferComparison P fn)) b next W s label v)
    (hlt : next < fn.blocks.length)
    (hclean : ∀ rest, Target.afterLabel (translateFunction P fn) label = some rest →
      CleanFrom M (translateFunction P fn) W rest v)
    (hnext : nextLabel M (translateFunction P fn) q = .inl (label, v)) :
    ∃ k q', Stuttering.steps (nextLabel M (translateFunction P fn)) (k + 1) q = .inl q' ∧
      StandsAt M P fn (some b, next, s) q' ∧ SameEffects s q'.2 ∧ ∀ j, 0 < j → j ≤ k → ∀ u,
        Stuttering.steps (nextLabel M (translateFunction P fn)) j q = .inl u →
        SameEffects s u.2 := by
  cases h with
  | block hm =>
    refine ⟨0, (.block next, v), Stuttering.steps_succ_of_inl hnext 0, standsAt_block hlt hm hclean,
      sameEffects_of_entered hm.toSameEffects, fun j hj hk => ?_⟩
    omega
  | @edge _ rest _ v' hlabel hexec heffects hm =>
    have hnext' : nextLabel M (translateFunction P fn) (label, v) = .inl (.block next, v') := by
      rw [nextLabel_eq (List.nil_append rest ▸ hlabel) runs_nil, hexec]
    refine ⟨1, (.block next, v'), ?_, standsAt_block hlt hm fun rest' hrest' => ?_,
      sameEffects_of_entered hm.toSameEffects, fun j hj hk u hu => ?_⟩
    · rw [Stuttering.steps_succ_of_inl hnext, Stuttering.steps_succ_of_inl hnext']
      rfl
    · exact (hclean rest hlabel).of_goto hexec hrest'
    · obtain rfl : j = 1 := by omega
      rw [Stuttering.steps_succ_of_inl hnext] at hu
      cases hu
      exact heffects

/-- A block that goes on. -/
lemma StandsAt.moves (hP : P.Translatable fn) (hM : M.Logical)
    {p p' : Option Nat × Nat × ExecState V σ} {q : Label × VState V σ} (h : StandsAt M P fn p q)
    (hstep : nextBlock M P fn p = .inl p') :
    (StandsAt M P fn p' q ∧ fn.blocks.length - p'.2.1 < fn.blocks.length - p.2.1) ∨
    ∃ k q', Stuttering.steps (nextLabel M (translateFunction P fn)) (k + 1) q = .inl q' ∧
      StandsAt M P fn p' q' ∧ SameEffects p'.2.2 q'.2 ∧ ∀ j, 0 < j → j ≤ k → ∀ u,
        Stuttering.steps (nextLabel M (translateFunction P fn)) j q = .inl u →
        SameEffects p'.2.2 u.2 := by
  obtain ⟨src, blk, s⟩ := p
  obtain ⟨label, v₀⟩ := q
  have hlt : blk < fn.blocks.length := h.lt
  obtain ⟨code, rest, v, W, hlabel, hruns, hclean, hfollows⟩ := h.follows hP hM
  unfold nextBlock at hstep
  cases hblock : P.stepBlock M.toMachine fn src blk s with
  | returned value s' =>
    rw [hblock] at hstep
    cases hstep
  | stuck s' =>
    rw [hblock] at hstep
    cases hstep
  | goto next s' =>
    rw [hblock] at hstep hfollows
    cases hstep
    have hnext := nextLabel_eq hlabel hruns
    cases hfollows with
    | falls code' hfall heq hruns' hm =>
      obtain ⟨hlt', hphis⟩ := hP.falls blk hlt hfall
      rw [heq] at hlabel hclean
      refine .inl ⟨standsAt_succ hlt' hphis hlabel hruns hruns' hm (hclean.of_runs hruns'), ?_⟩
      dsimp only
      omega
    | jumps hmem hexec harrives =>
      rw [hexec] at hnext
      exact .inr (harrives.moves (hP.targets blk hlt next hmem)
        (fun rest' hrest' => hclean.of_goto hexec hrest') hnext)

/-- A block that ends the run. -/
lemma StandsAt.ends (hP : P.Translatable fn) (hM : M.Logical)
    {p : Option Nat × Nat × ExecState V σ} {q : Label × VState V σ} (h : StandsAt M P fn p q)
    {o : Outcome V σ} (hstep : nextBlock M P fn p = .inr o) :
    ∃ u, nextLabel M (translateFunction P fn) q = .inr u ∧ SameRun o u := by
  obtain ⟨src, blk, s⟩ := p
  obtain ⟨label, v₀⟩ := q
  obtain ⟨code, rest, v, W, hlabel, hruns, -, hfollows⟩ := h.follows hP hM
  have hnext := nextLabel_eq hlabel hruns
  unfold nextBlock at hstep
  cases hblock : P.stepBlock M.toMachine fn src blk s with
  | goto next s' =>
    rw [hblock] at hstep
    cases hstep
  | returned value s' =>
    rw [hblock] at hstep hfollows
    cases hstep
    cases hfollows with
    | returns hexec heffects =>
      rw [hexec] at hnext
      exact ⟨_, hnext, .returns heffects⟩
  | stuck s' =>
    rw [hblock] at hstep hfollows
    cases hstep
    cases hfollows with
    | sticks hexec heffects =>
      rw [hexec] at hnext
      exact ⟨_, hnext, .sticks heffects⟩

/-- A block and its code. -/
theorem simulation (hP : P.Translatable fn) (hM : M.Logical) :
    Stuttering.Simulation (nextBlock M P fn) (nextLabel M (translateFunction P fn))
      (StandsAt M P fn) (fun p q => SameEffects p.2.2 q.2) SameRun
      (fun p => fn.blocks.length - p.2.1) :=
  ⟨fun h hstep => h.ends hP hM hstep, fun h hstep => h.moves hP hM hstep⟩

/-- Before the first instruction. -/
lemma standsAt_start (hlen : 0 < fn.blocks.length)
    (hconsts : ∀ x w, P.constIntValue x = some w → s.regs x = M.const w) (h : SameEffects s v)
    (hclean : M.RunsClean (translateFunction P fn) v) :
    StandsAt M P fn (none, 0, s) (.block 0, v) := by
  have hm : Mirrors M P (Deferred P fn (canDeferComparison P fn)) [] s v :=
    ⟨h, fun _ hx => (nomatch hx), fun _ hx => (nomatch hx), fun _ _ hx => (nomatch hx), hconsts,
      fun _ _ hx => (nomatch hx)⟩
  refine standsAt_block hlen (hm.enter 0) fun rest hrest fuel => ?_
  rw [← executed_succ hrest]
  exact hclean (fuel + 1)

/-- The code does what the function does: whatever the interpreter does the code comes to do, and
the code does nothing else. -/
theorem translateFunction_simulates (M : Target V σ) (hM : M.Logical) (hP : P.Translatable fn)
    (s : ExecState V σ) (v : VState V σ)
    (hconsts : ∀ x w, P.constIntValue x = some w → s.regs x = M.const w) (h : SameEffects s v)
    (hclean : M.RunsClean (translateFunction P fn) v) :
    (∀ n, ∃ n' ≥ n, ∃ m, SameRun (P.runFunction M.toMachine fn n' s)
      (M.runCode (translateFunction P fn) m (.block 0) v)) ∧
    ∀ m, ∃ n, SameRun (P.runFunction M.toMachine fn n s)
      (M.runCode (translateFunction P fn) m (.block 0) v) := by
  have hrun : ∀ n m, Sum.LiftRel (fun p q => SameEffects p.2.2 q.2) SameRun
      (Stuttering.steps (nextBlock M P fn) n (none, 0, s))
      (Stuttering.steps (nextLabel M (translateFunction P fn)) m (.block 0, v)) →
      SameRun (P.runFunction M.toMachine fn n s)
        (M.runCode (translateFunction P fn) m (.block 0) v) := by
    intro n m hrel
    rw [IRProgram.runFunction, runBlocks_eq, runCode_eq]
    generalize Stuttering.steps (nextBlock M P fn) n (none, 0, s) = o at hrel ⊢
    generalize Stuttering.steps (nextLabel M (translateFunction P fn)) m (.block 0, v) = o' at hrel ⊢
    cases hrel with
    | inl hseen => exact .goes hseen
    | inr hsame => exact hsame
  have hsim := simulation (M := M) hP hM
  have hstart := standsAt_start hP.nonempty hconsts h hclean
  constructor
  · intro n
    obtain ⟨n', hn, m, hrel⟩ := hsim.forward hstart n
    exact ⟨n', hn, m, hrun n' m hrel⟩
  · intro m
    obtain ⟨n, hrel⟩ := hsim.backward hstart h m
    exact ⟨n, hrun n m hrel⟩

/-- A run that has ended stays as it is. -/
lemma runFunction_of_le {n n' : Nat} (hn : n ≤ n') {value : Option V}
    (h : P.runFunction M.toMachine fn n s = .returned value s') :
    P.runFunction M.toMachine fn n' s = .returned value s' := by
  rw [IRProgram.runFunction, runBlocks_eq] at h ⊢
  cases hsteps : Stuttering.steps (nextBlock M P fn) n (none, 0, s) with
  | inl p =>
    rw [hsteps] at h
    cases h
  | inr o =>
    rw [hsteps] at h
    rw [← Nat.add_sub_cancel' hn, Stuttering.steps_add_of_inr hsteps]
    exact h

/-- Of a function and code that come to do the same, one returns with the effects with which the
other returns. -/
lemma returned_iff {code : List VInstr} {s : ExecState V σ} {v : VState V σ}
    (hforward : ∀ n, ∃ n' ≥ n, ∃ m, SameRun (P.runFunction M.toMachine fn n' s)
      (M.runCode code m (.block 0) v))
    (hbackward : ∀ m, ∃ n, SameRun (P.runFunction M.toMachine fn n s) (M.runCode code m (.block 0) v))
    (mem : σ) (trace : List (Event V)) :
    (∃ n value s', P.runFunction M.toMachine fn n s = .returned value s' ∧ s'.mem = mem ∧
      visible s'.trace = trace) ↔
    ∃ m v', M.runCode code m (.block 0) v = .returned v' ∧ v'.mem = mem ∧ v'.trace = trace := by
  constructor
  · rintro ⟨n, value, s', hrun, rfl, rfl⟩
    obtain ⟨n', hn, m, hsame⟩ := hforward n
    rw [runFunction_of_le hn hrun] at hsame
    obtain ⟨v', hcode, heffects⟩ := hsame.code_returns
    exact ⟨m, v', hcode, heffects.mem, heffects.trace⟩
  · rintro ⟨m, v', hrun, rfl, rfl⟩
    obtain ⟨n, hsame⟩ := hbackward m
    rw [hrun] at hsame
    obtain ⟨value, s', hfunction, heffects⟩ := hsame.function_returns
    exact ⟨n, value, s', hfunction, heffects.mem.symm, heffects.trace.symm⟩

/-- The code returns with the effects with which the function returns, and only then. -/
theorem translateFunction_returns_iff (M : Target V σ) (hM : M.Logical) (hP : P.Translatable fn)
    (s : ExecState V σ) (v : VState V σ)
    (hconsts : ∀ x w, P.constIntValue x = some w → s.regs x = M.const w) (h : SameEffects s v)
    (hclean : M.RunsClean (translateFunction P fn) v) (mem : σ) (trace : List (Event V)) :
    (∃ n value s', P.runFunction M.toMachine fn n s = .returned value s' ∧ s'.mem = mem ∧
      visible s'.trace = trace) ↔
    ∃ m v', M.runCode (translateFunction P fn) m (.block 0) v = .returned v' ∧ v'.mem = mem ∧
      v'.trace = trace := by
  obtain ⟨hforward, hbackward⟩ := translateFunction_simulates M hM hP s v hconsts h hclean
  exact returned_iff hforward hbackward mem trace

end

end Proofs

end TidyTuples
