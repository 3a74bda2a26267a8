import TidyTuples.Proofs.Generators
import TidyTuples.Operators.Push

/-!
# Running generated code

`Reaches p s q s'`: in the finished program the code added between `p` and `q` leads from `s` to
`s'`. The registers of the code that was there before keep their values, and every constant has
its value everywhere.
-/

namespace TidyTuples.Proofs

open IRProgram

/-- Every constant reference denotes the constant it was requested for. -/
def ConstsDenote (P : IRProgram) : Prop :=
  ∀ q ∈ P.constRequests, P.instrAt q.offset = some (.constInt q.type q.value)

/-- A finished program with the function that is run. -/
structure Compiled where
  arch : Arch
  program : IRProgram
  fn : IRFunction
  isCurrent : program.functions[program.currentFnIdx]? = some fn
  denotes : ConstsDenote program

abbrev QueryState := ExecState Value Heap

/-- All registers of constants hold their constant. -/
def ConstRegs (P : IRProgram) (regs : IRValueRef → Value) : Prop :=
  ∀ off w, P.constIntValue (.instr off) = some w → regs (.instr off) = .word w

/-- `P` is finished from `p` on: code was only added to the current block, to new blocks and to
the pending ones. -/
structure Final (P p : IRProgram) (pending : List Nat) : Prop where
  ext : Extends p P
  sealed : ∀ b < p.blocks.length, b ≠ p.currentBlkIdx → b ∉ pending → P.blockAt b = p.blockAt b

lemma Final.of_local {P p q : IRProgram} {pending : List Nat} (h : Final P q pending)
    (hl : Local p q) : Final P p pending := by
  refine ⟨hl.toExtends.trans h.ext, fun b hb hne hnot => ?_⟩
  have hb' := hl.blocks
  have hcur := hl.current
  rw [h.sealed b (by omega) (by omega) hnot, hl.others b hb hne]

namespace Compiled

variable (C : Compiled)

/-- Go on in the middle of a block. -/
def run (fuel : Nat) (at' : Nat × List Nat) (s : QueryState) : Outcome Value Heap :=
  match C.program.execInstrs C.arch.machine at'.1 at'.2 s with
  | .goto next s' => C.program.runBlocks C.arch.machine C.fn fuel (some at'.1) next s'
  | o => o

def Steps (c : Nat × List Nat) (s : QueryState) (c' : Nat × List Nat) (s' : QueryState) : Prop :=
  ∃ n, ∀ fuel, C.run (fuel + n) c s = C.run fuel c' s'

/-- Where code generation stands, in the finished program. -/
def cursor (p : IRProgram) : Nat × List Nat :=
  (p.currentBlkIdx, (C.program.blockAt p.currentBlkIdx).drop (p.blockAt p.currentBlkIdx).length)

/-- The state on entry into block `b` from block `src`. -/
def enter (src b : Nat) (s : QueryState) : QueryState :=
  let s := s.emitEvent (.enter b)
  { s with regs := C.program.applyPhis src s.regs (C.program.phisOf (C.program.blockAt b)) s.regs }

structure Reaches (p : IRProgram) (s : QueryState) (q : IRProgram) (s' : QueryState) : Prop where
  steps : C.Steps (C.cursor p) s (C.cursor q) s'
  frame : ∀ off < p.dataSize, s'.regs (.instr off) = s.regs (.instr off)
  consts : ConstRegs C.program s'.regs

end Compiled

section

variable {C : Compiled} {p q r : IRProgram} {s s' s'' : QueryState} {pending : List Nat}

lemma Compiled.Steps.refl (c : Nat × List Nat) (s : QueryState) : C.Steps c s c s :=
  ⟨0, fun _ => rfl⟩

lemma Compiled.Steps.trans {c c' c'' : Nat × List Nat} (h : C.Steps c s c' s')
    (h' : C.Steps c' s' c'' s'') : C.Steps c s c'' s'' := by
  obtain ⟨n, hn⟩ := h
  obtain ⟨m, hm⟩ := h'
  refine ⟨m + n, fun fuel => ?_⟩
  rw [← Nat.add_assoc, hn, hm]

lemma Compiled.Reaches.refl (hc : ConstRegs C.program s.regs) : C.Reaches p s p s :=
  ⟨.refl _ _, fun _ _ => rfl, hc⟩

lemma Compiled.Reaches.trans (h : C.Reaches p s q s') (h' : C.Reaches q s' r s'')
    (hle : p.dataSize ≤ q.dataSize) : C.Reaches p s r s'' :=
  ⟨h.steps.trans h'.steps,
    fun off hoff => (h'.frame off (by omega)).trans (h.frame off hoff), h'.consts⟩

lemma Compiled.blocks_eq (C : Compiled) : C.program.blocks = C.fn.blocks := by
  simp only [IRProgram.blocks, C.isCurrent]

lemma Compiled.stepBlock_eq {b : Nat} (hb : b < C.program.blocks.length) (src : Nat) :
    C.program.stepBlock C.arch.machine C.fn (some src) b s =
      C.program.execInstrs C.arch.machine b (C.program.blockAt b) (C.enter src b s) := by
  have hget : C.fn.blocks[b]? = some C.program.blocks[b] := by
    rw [← C.blocks_eq, List.getElem?_eq_getElem hb]
  have hat : C.program.blockAt b = C.program.blocks[b].instructions := by
    simp only [IRProgram.blockAt, List.getElem?_eq_getElem hb]
  simp only [IRProgram.stepBlock, hget, Compiled.enter, hat]

/-- A jump takes one unit of fuel. -/
lemma Compiled.steps_goto {b t : Nat} {rest : List Nat} {s₁ : QueryState}
    (h : C.program.execInstrs C.arch.machine b rest s = .goto t s₁)
    (ht : t < C.program.blocks.length) :
    C.Steps (b, rest) s (t, C.program.blockAt t) (C.enter b t s₁) := by
  refine ⟨1, fun fuel => ?_⟩
  simp only [Compiled.run, h, IRProgram.runBlocks, C.stepBlock_eq ht]
  cases C.program.execInstrs C.arch.machine t (C.program.blockAt t) (C.enter b t s₁) <;> rfl

/-- Straight-line code takes none. -/
lemma Compiled.steps_instr {b off : Nat} {rest : List Nat} {i : Instr} {s₁ : QueryState}
    (hi : C.program.instrAt off = some i) (hphi : i.isPhi = false) (hterm : i.isTerminator = false)
    (hx : execInstr C.arch.machine off i s = some s₁) :
    C.Steps (b, off :: rest) s (b, rest) s₁ := by
  refine ⟨0, fun fuel => ?_⟩
  have hrun : C.program.execInstrs C.arch.machine b (off :: rest) s =
      C.program.execInstrs C.arch.machine b rest s₁ := by
    cases i <;> simp_all [IRProgram.execInstrs, Instr.isPhi, Instr.isTerminator]
  simp only [Compiled.run, hrun]
  rfl

lemma Compiled.steps_phi {b off : Nat} {rest : List Nat} {ty : IRType}
    {entries : List (IRValueRef × Nat)} (hi : C.program.instrAt off = some (.phi ty entries)) :
    C.Steps (b, off :: rest) s (b, rest) s := by
  refine ⟨0, fun fuel => ?_⟩
  simp only [Compiled.run, IRProgram.execInstrs, hi]
  rfl

/-! ### Registers -/

/-- An instruction writes its own register only. -/
lemma execInstr_regs {V σ : Type} {M : Machine V σ} {off : Nat} {i : Instr}
    {t t' : ExecState V σ} (h : execInstr M off i t = some t') {ref : IRValueRef}
    (hne : ref ≠ .instr off) : t'.regs ref = t.regs ref := by
  have hset : ∀ (u : ExecState V σ) v, (u.setReg off v).regs ref = u.regs ref := fun u v => by
    simp only [ExecState.setReg, Function.update_of_ne hne]
  cases i with
  | call ty fn args =>
    simp only [execInstr] at h
    split at h
    · cases h
    · simp only [Option.some.injEq] at h
      subst h
      split_ifs
      · rfl
      · exact hset _ _
  | _ =>
    simp only [execInstr] at h
    (try split_ifs at h) <;> cases h <;> first | rfl | exact hset _ _

lemma constIntValue_eq_none {P : IRProgram} {off : Nat} {i : Instr} (hi : P.instrAt off = some i)
    (hnot : i.isConst = false) : P.constIntValue (.instr off) = none := by
  cases i <;> simp_all [IRProgram.constIntValue, IRProgram.getInstr, Instr.isConst]

lemma ConstRegs.execInstr {P : IRProgram} {arch : Arch} {off : Nat} {i : Instr}
    (hc : ConstRegs P s.regs) (hi : P.instrAt off = some i)
    (hx : execInstr arch.machine off i s = some s') : ConstRegs P s'.regs := by
  intro o w hw
  by_cases ho : o = off
  · subst ho
    cases hconst : i.isConst with
    | false =>
      rw [constIntValue_eq_none hi hconst] at hw
      cases hw
    | true =>
      cases i <;> simp only [Instr.isConst, Bool.false_eq_true] at hconst <;>
        simp only [IRProgram.constIntValue, IRProgram.getInstr, hi, Option.some.injEq] at hw <;>
        simp only [TidyTuples.execInstr, Option.some.injEq] at hx <;> subst hx hw <;>
        simp [ExecState.setReg, Arch.machine]
  · rw [execInstr_regs hx (by simpa using ho)]
    exact hc o w hw

/-! ### One instruction -/

/-- One instruction that was put behind the code of `p`. -/
lemma reaches_instr {i : Instr} (hi : C.program.instrAt p.dataSize = some i)
    (hcur : q.currentBlkIdx = p.currentBlkIdx)
    (hat : q.blockAt p.currentBlkIdx = p.blockAt p.currentBlkIdx ++ [p.dataSize])
    (hpre : q.blockAt p.currentBlkIdx <+: C.program.blockAt p.currentBlkIdx)
    (hc : ConstRegs C.program s.regs) (hphi : i.isPhi = false) (hterm : i.isTerminator = false)
    (hx : execInstr C.arch.machine p.dataSize i s = some s') : C.Reaches p s q s' := by
  obtain ⟨tail, htail⟩ := hpre
  have hp : C.cursor p = (p.currentBlkIdx, p.dataSize :: tail) := by
    rw [Compiled.cursor, ← htail, hat, List.append_assoc, List.drop_left]
    rfl
  have hq : C.cursor q = (p.currentBlkIdx, tail) := by
    rw [Compiled.cursor, hcur, ← htail, List.drop_left]
  refine ⟨?_, fun off hoff => execInstr_regs hx (by simpa using hoff.ne), hc.execInstr hi hx⟩
  rw [hp, hq]
  exact Compiled.steps_instr hi hphi hterm hx

lemma emit_reaches (hv : Valid p) {i : Instr} (hext : Extends (p.emit i).2 C.program)
    (hc : ConstRegs C.program s.regs) (hphi : i.isPhi = false) (hterm : i.isTerminator = false)
    (hx : execInstr C.arch.machine p.dataSize i s = some s') : C.Reaches p s (p.emit i).2 s' := by
  have hi : C.program.instrAt p.dataSize = some i :=
    hext.records _ _ (emit_self i) (Instr.isComplete_of_not_phi hphi)
  exact reaches_instr hi rfl (by rw [emit_blockAt hv, if_pos rfl]) (hext.prefixes _) hc hphi hterm hx

/-! ### Ends of runs -/

/-- Behind `q` the program returns. -/
lemma run_return (hv : Valid q) (hC : C.program = (q.addReturn .null).2) (fuel : Nat)
    (s : QueryState) : C.run fuel (C.cursor q) s = .returned none s := by
  have hret : C.program.instrAt q.dataSize = some (.ret .null) := by
    rw [hC]
    exact emit_self _
  have hat : C.program.blockAt q.currentBlkIdx = q.blockAt q.currentBlkIdx ++ [q.dataSize] := by
    rw [hC]
    exact (emit_blockAt hv _ _).trans (if_pos rfl)
  rw [Compiled.cursor, hat, List.drop_left]
  simp only [Compiled.run, IRProgram.execInstrs, hret, if_true]

lemma final_return (hv : Valid q) (hC : C.program = (q.addReturn .null).2) :
    Final C.program q [] := by
  rw [hC]
  refine ⟨emit_extends hv rfl, fun b _ hne _ => ?_⟩
  exact (emit_blockAt hv _ b).trans (if_neg hne)

/-- A call whose behaviour is undefined. -/
lemma run_stuck (hv : Valid q) {t : IRType} {fn : RuntimeFn} {args : List IRValueRef}
    (hext : Extends (q.addCall t fn args).2 C.program)
    (hcall : callRuntime fn (args.map s.regs) s.mem = none) (fuel : Nat) :
    C.run fuel (C.cursor q) s = .stuck s := by
  have hi : C.program.instrAt q.dataSize = some (.call t fn args) :=
    hext.records _ _ (emit_self _) trivial
  obtain ⟨tail, htail⟩ := hext.prefixes q.currentBlkIdx
  have hat : (q.addCall t fn args).2.blockAt q.currentBlkIdx =
      q.blockAt q.currentBlkIdx ++ [q.dataSize] := (emit_blockAt hv _ _).trans (if_pos rfl)
  have hcursor : C.cursor q = (q.currentBlkIdx, q.dataSize :: tail) := by
    rw [Compiled.cursor, ← htail, hat, List.append_assoc, List.drop_left]
    rfl
  have hx : execInstr C.arch.machine q.dataSize (.call t fn args) s = none := by
    have hcall' : C.arch.machine.call fn (args.map s.regs) s.mem = none := hcall
    simp only [execInstr, hcall']
  rw [hcursor]
  simp only [Compiled.run, IRProgram.execInstrs, hi, hx]

/-- More fuel does not change a result. -/
lemma Compiled.run_mono {fuel : Nat} {c : Nat × List Nat} {v : Option Value} (n : Nat)
    (h : C.run fuel c s = .returned v s') : C.run (fuel + n) c s = .returned v s' := by
  have hblocks : ∀ fuel src blk s, C.program.runBlocks C.arch.machine C.fn fuel src blk s =
      .returned v s' → C.program.runBlocks C.arch.machine C.fn (fuel + n) src blk s =
        .returned v s' := by
    intro fuel
    induction fuel with
    | zero =>
      intro src blk s h
      cases h
    | succ fuel ih =>
      intro src blk s h
      rw [Nat.add_right_comm]
      simp only [IRProgram.runBlocks] at h ⊢
      cases hstep : C.program.stepBlock C.arch.machine C.fn src blk s with
      | goto next s₁ =>
        rw [hstep] at h
        exact ih _ _ _ h
      | returned w s₁ =>
        rw [hstep] at h
        exact h
      | stuck s₁ =>
        rw [hstep] at h
        cases h
  simp only [Compiled.run] at h ⊢
  cases hexec : C.program.execInstrs C.arch.machine c.1 c.2 s with
  | goto next s₁ =>
    rw [hexec] at h
    exact hblocks _ _ _ _ h
  | returned w s₁ =>
    rw [hexec] at h
    exact h
  | stuck s₁ =>
    rw [hexec] at h
    cases h

/-! ### Jumps -/

lemma cursor_of_prefix (off : Nat)
    (h : p.blockAt p.currentBlkIdx ++ [off] <+: C.program.blockAt p.currentBlkIdx) :
    ∃ rest, C.cursor p = (p.currentBlkIdx, off :: rest) := by
  obtain ⟨rest, hrest⟩ := h
  refine ⟨rest, ?_⟩
  rw [Compiled.cursor, ← hrest, List.append_assoc, List.drop_left]
  rfl

lemma cursor_of_nil (h : p.blockAt p.currentBlkIdx = []) :
    C.cursor p = (p.currentBlkIdx, C.program.blockAt p.currentBlkIdx) := by
  rw [Compiled.cursor, h]
  rfl

lemma phisOf_phiFree {P : IRProgram} {offsets : List Nat} (h : PhiFree P offsets) :
    P.phisOf offsets = [] := by
  rw [IRProgram.phisOf, List.filter_eq_nil_iff]
  intro off hoff
  obtain ⟨i, hi, hphi⟩ := h off hoff
  simp [hi, hphi]

/-- Into a block without PHIs. -/
lemma Compiled.steps_jump {b t : Nat} {rest : List Nat}
    (h : C.program.execInstrs C.arch.machine b rest s = .goto t s) (ht : t < C.program.blocks.length)
    (hphi : PhiFree C.program (C.program.blockAt t)) :
    ∃ s₁, C.Steps (b, rest) s (t, C.program.blockAt t) s₁ ∧ s₁.regs = s.regs ∧ s₁.mem = s.mem := by
  refine ⟨_, Compiled.steps_goto h ht, ?_, rfl⟩
  simp only [Compiled.enter, phisOf_phiFree hphi, IRProgram.applyPhis]
  rfl

/-- Into a block that starts with one PHI: it takes the value of the edge. -/
lemma Compiled.steps_jump_phi {b t phi : Nat} {rest tail : List Nat} {ty : IRType}
    {entries : List (IRValueRef × Nat)} {v : IRValueRef} {x : Nat}
    (h : C.program.execInstrs C.arch.machine b rest s = .goto t s) (ht : t < C.program.blocks.length)
    (hblk : C.program.blockAt t = phi :: tail) (hi : C.program.instrAt phi = some (.phi ty entries))
    (htail : PhiFree C.program tail) (hv : entries.find? (fun e => e.2 == b) = some (v, x)) :
    ∃ s₁, C.Steps (b, rest) s (t, tail) s₁ ∧ s₁.mem = s.mem ∧
      s₁.regs = Function.update s.regs (.instr phi) (s.regs v) := by
  have hphis : C.program.phisOf (C.program.blockAt t) = [phi] := by
    have htail' := phisOf_phiFree htail
    rw [IRProgram.phisOf] at htail' ⊢
    rw [hblk, List.filter_cons_of_pos (by simp [hi, Instr.isPhi]), htail']
  refine ⟨C.enter b t s, ?_, rfl, ?_⟩
  · have hstep := Compiled.steps_goto h ht
    rw [hblk] at hstep
    exact hstep.trans (Compiled.steps_phi hi)
  · simp only [Compiled.enter, hphis, IRProgram.applyPhis, IRProgram.incoming, hi, hv,
      Option.map_some]
    rfl

/-- A complete `if` in the finished program, opened at `p`, with its body up to `q` and closed to
`r`. -/
structure IfCode (C : Compiled) (cond : IRValueRef) (p q r : IRProgram) : Prop where
  branch : C.program.instrAt p.dataSize =
    some (.condBranch cond p.blocks.length (p.blocks.length + 1))
  jump : C.program.instrAt q.dataSize = some (.branch (p.blocks.length + 2))
  otherwise : C.program.blockAt (p.blocks.length + 1) = []
  free : ∀ b, p.blocks.length ≤ b → b < p.blocks.length + 3 →
    PhiFree C.program (C.program.blockAt b)
  length : p.blocks.length + 2 < C.program.blocks.length
  entryCursor : ∃ rest, C.cursor p = (p.currentBlkIdx, p.dataSize :: rest)
  bodyCursor : C.cursor (p.openIf cond) = (p.blocks.length, C.program.blockAt p.blocks.length)
  latchCursor : ∃ rest, C.cursor q = (q.currentBlkIdx, q.dataSize :: rest)
  exitCursor : C.cursor r = (p.blocks.length + 2, C.program.blockAt (p.blocks.length + 2))
  opened : p.dataSize ≤ (p.openIf cond).dataSize

lemma ifCode_of_final {cond : IRValueRef} (hv : Valid p) (hl : Local (p.openIf cond) q)
    (hvq : Valid q) (hoq : Open q)
    (hfin : Final C.program (q.closeIf (p.blocks.length + 2)) pending)
    (hpend : ∀ b ∈ pending, b < p.blocks.length) :
    IfCode C cond p q (q.closeIf (p.blocks.length + 2)) := by
  have hopen := openIf_spec hv cond
  have hb := hv.blkIdx
  have hlen := hopen.length
  have hblocks := hl.blocks
  have hcur := hl.current
  have hocur := hopen.current
  have hosize := hopen.size
  have hcl := closeIf_spec hvq hoq (m := p.blocks.length + 2) (by omega)
  generalize q.closeIf (p.blocks.length + 2) = r at *
  have hrlen := hcl.length
  have hrcur := hcl.current
  have hext : Extends (p.openIf cond) C.program := (hl.toExtends.trans hcl.weak).trans hfin.ext
  have hPlen := hfin.ext.blocks
  have hnil : ∀ b, p.blocks.length ≤ b → b < p.blocks.length + 3 →
      (p.openIf cond).blockAt b = [] := by
    intro b hle hlt
    rw [hopen.blockAt, if_neg (by omega), blockAt_of_length_le (by omega)]
  have hrnil : ∀ b, p.blocks.length < b → b < p.blocks.length + 3 → r.blockAt b = [] := by
    intro b hle hlt
    rw [hcl.blockAt, if_neg (by omega), hl.others _ (by omega) (by omega),
      hnil _ (by omega) (by omega)]
  exact {
    branch := hext.records _ _ (by rw [hopen.instrAt, if_pos rfl]) trivial
    jump := hfin.ext.records _ _ (by rw [hcl.instrAt, if_pos rfl]) trivial
    otherwise := by
      rw [hfin.sealed _ (by omega) (by omega) fun hmem => by have := hpend _ hmem; omega]
      exact hrnil _ (by omega) (by omega)
    free b hle hlt := hext.phiFree (by omega) (hnil b hle hlt ▸ phiFree_nil _)
    length := by omega
    entryCursor := cursor_of_prefix _ (by
      have hpre := hext.prefixes p.currentBlkIdx
      rw [hopen.blockAt, if_pos rfl] at hpre
      exact hpre)
    bodyCursor := by
      rw [cursor_of_nil (by rw [hocur]; exact hnil _ (by omega) (by omega)), hocur]
    latchCursor := cursor_of_prefix _ (by
      have hpre := hfin.ext.prefixes q.currentBlkIdx
      rw [hcl.blockAt, if_pos rfl] at hpre
      exact hpre)
    exitCursor := by
      rw [cursor_of_nil (by rw [hrcur]; exact hrnil _ (by omega) (by omega)), hrcur]
    opened := by omega }

lemma IfCode.goes {cond : IRValueRef} (h : IfCode C cond p q r) (s : QueryState) (rest : List Nat) :
    C.program.execInstrs C.arch.machine p.currentBlkIdx (p.dataSize :: rest) s =
      .goto (if s.regs cond != .word 0 then p.blocks.length else p.blocks.length + 1) s := by
  simp only [IRProgram.execInstrs, h.branch]
  rfl

/-- The false branch is empty and falls through to the merge block. -/
lemma IfCode.skips {cond : IRValueRef} (h : IfCode C cond p q r) (hc : ConstRegs C.program s.regs)
    (hzero : s.regs cond = .word 0) : ∃ s', C.Reaches p s r s' ∧ s'.mem = s.mem := by
  have hlen := h.length
  obtain ⟨rest, hrest⟩ := h.entryCursor
  have hgoto := h.goes s rest
  rw [if_neg (by simp [hzero])] at hgoto
  obtain ⟨s₁, hs₁, hregs₁, hmem₁⟩ := Compiled.steps_jump hgoto (by omega)
    (h.free _ (by omega) (by omega))
  rw [h.otherwise] at hs₁
  obtain ⟨s₂, hs₂, hregs₂, hmem₂⟩ := Compiled.steps_jump
    (show C.program.execInstrs C.arch.machine (p.blocks.length + 1) [] s₁ =
      .goto (p.blocks.length + 2) s₁ from rfl) (by omega) (h.free _ (by omega) (by omega))
  refine ⟨s₂, ⟨?_, fun off _ => by rw [hregs₂, hregs₁], by rw [hregs₂, hregs₁]; exact hc⟩,
    by rw [hmem₂, hmem₁]⟩
  rw [hrest, h.exitCursor]
  exact hs₁.trans hs₂

lemma IfCode.takes {cond : IRValueRef} (h : IfCode C cond p q r) (heap : Heap)
    (hzero : s.regs cond ≠ .word 0)
    (hbody : ∀ s₁ : QueryState, s₁.regs = s.regs → s₁.mem = s.mem →
      ∃ s₂, C.Reaches (p.openIf cond) s₁ q s₂ ∧ s₂.mem = heap) :
    ∃ s', C.Reaches p s r s' ∧ s'.mem = heap := by
  have hlen := h.length
  have hopened := h.opened
  obtain ⟨rest, hrest⟩ := h.entryCursor
  have hgoto := h.goes s rest
  rw [if_pos (by simpa using hzero)] at hgoto
  obtain ⟨s₁, hs₁, hregs₁, hmem₁⟩ := Compiled.steps_jump hgoto (by omega)
    (h.free _ (by omega) (by omega))
  obtain ⟨s₂, hr₂, hmem₂⟩ := hbody s₁ hregs₁ hmem₁
  obtain ⟨rest', hrest'⟩ := h.latchCursor
  have hgoto₂ : C.program.execInstrs C.arch.machine q.currentBlkIdx (q.dataSize :: rest') s₂ =
      .goto (p.blocks.length + 2) s₂ := by
    simp only [IRProgram.execInstrs, h.jump]
  obtain ⟨s₃, hs₃, hregs₃, hmem₃⟩ := Compiled.steps_jump hgoto₂ (by omega)
    (h.free _ (by omega) (by omega))
  refine ⟨s₃, ⟨?_, fun off hoff => ?_, by rw [hregs₃]; exact hr₂.consts⟩, by rw [hmem₃, hmem₂]⟩
  · have hsteps := hr₂.steps
    rw [h.bodyCursor, hrest'] at hsteps
    rw [hrest, h.exitCursor]
    exact (hs₁.trans hsteps).trans hs₃
  · rw [hregs₃, hr₂.frame off (by omega), hregs₁]

/-- An `if`: the body runs where the condition is not zero. -/
theorem ifThen_reaches {cond : IRValueRef} {v : Value} (heap : Heap) (hv : Valid p)
    (hl : Local (p.openIf cond) q) (hvq : Valid q) (hoq : Open q)
    (hfin : Final C.program (q.closeIf (p.blocks.length + 2)) pending)
    (hpend : ∀ b ∈ pending, b < p.blocks.length) (hc : ConstRegs C.program s.regs)
    (hcond : s.regs cond = v)
    (hbody : v ≠ .word 0 → ∀ s₁ : QueryState, s₁.regs = s.regs → s₁.mem = s.mem →
      ∃ s₂, C.Reaches (p.openIf cond) s₁ q s₂ ∧ s₂.mem = heap)
    (hskip : v = .word 0 → s.mem = heap) :
    ∃ s', C.Reaches p s (q.closeIf (p.blocks.length + 2)) s' ∧ s'.mem = heap := by
  have hcode := ifCode_of_final hv hl hvq hoq hfin hpend
  subst hcond
  by_cases hzero : s.regs cond = .word 0
  · rw [← hskip hzero]
    exact hcode.skips hc hzero
  · exact hcode.takes heap hzero (hbody hzero)

/-! ### Loops -/

/-- The reference is an older register with this value. -/
def Holds (p : IRProgram) (s : QueryState) (ref : IRValueRef) (v : Value) : Prop :=
  ∃ off, ref = .instr off ∧ off < p.dataSize ∧ s.regs ref = v

/-- The registers `p` knows are as in `s`. -/
def SameBelow (p : IRProgram) (s s' : QueryState) : Prop :=
  ∀ off < p.dataSize, s'.regs (.instr off) = s.regs (.instr off)

lemma Holds.same {ref : IRValueRef} {v : Value} (h : Holds p s ref v) (hs : SameBelow p s s') :
    s'.regs ref = v := by
  obtain ⟨off, rfl, hoff, hv⟩ := h
  rw [hs off hoff, hv]

lemma ConstRegs.update_phi {P : IRProgram} {regs : IRValueRef → Value} (hc : ConstRegs P regs)
    {phi : Nat} {ty : IRType} {entries : List (IRValueRef × Nat)}
    (hi : P.instrAt phi = some (.phi ty entries)) (v : Value) :
    ConstRegs P (Function.update regs (.instr phi) v) := by
  intro off w hw
  have hne : (IRValueRef.instr off) ≠ .instr phi := by
    rintro heq
    rw [heq, constIntValue_eq_none hi rfl] at hw
    cases hw
  rw [Function.update_of_ne hne]
  exact hc off w hw

lemma slt_ofNat {i n : Nat} (hi : i < 2 ^ 63) (hn : n < 2 ^ 63) :
    (BitVec.ofNat 64 i).slt (BitVec.ofNat 64 n) = decide (i < n) := by
  have h : ∀ k < 2 ^ 63, (BitVec.ofNat 64 k).toInt = k := fun k hk => by
    rw [BitVec.toInt_eq_toNat_of_lt] <;> rw [BitVec.toNat_ofNat] <;> omega
  simp [BitVec.slt, h i hi, h n hn]

/-- The comparison and the branch of a loop header. -/
lemma Compiled.steps_header {b cmp exit phi t f : Nat} {bound : IRValueRef} {i n : Nat}
    (hcmp : C.program.instrAt cmp = some (.binary .cmpLt .bool (.instr phi) bound))
    (hexit : C.program.instrAt exit = some (.condBranch (.instr cmp) t f))
    (ht : t < C.program.blocks.length) (hf : f < C.program.blocks.length)
    (htf : PhiFree C.program (C.program.blockAt t)) (hff : PhiFree C.program (C.program.blockAt f))
    (hc : ConstRegs C.program s.regs) (hi : s.regs (.instr phi) = .word (BitVec.ofNat 64 i))
    (hn : s.regs bound = .word (BitVec.ofNat 64 n)) (hilt : i < 2 ^ 63) (hnlt : n < 2 ^ 63) :
    ∃ s₁, C.Steps (b, [cmp, exit]) s (if i < n then t else f,
        C.program.blockAt (if i < n then t else f)) s₁ ∧
      (∀ ref, ref ≠ .instr cmp → s₁.regs ref = s.regs ref) ∧ ConstRegs C.program s₁.regs ∧
      s₁.mem = s.mem := by
  let s₁ := s.setReg cmp (.word (wordOfBool (decide (i < n))))
  have hx : execInstr C.arch.machine cmp (.binary .cmpLt .bool (.instr phi) bound) s = some s₁ := by
    simp only [execInstr, hi, hn, Opcode.isBinary]
    simp [Arch.machine, Arch.evalBinary, slt_ofNat hilt hnlt, s₁]
  have hstep : C.Steps (b, [cmp, exit]) s (b, [exit]) s₁ := Compiled.steps_instr hcmp rfl rfl hx
  have hcond : s₁.regs (.instr cmp) = .word (wordOfBool (decide (i < n))) := by
    simp [s₁, ExecState.setReg]
  have hgoto : C.program.execInstrs C.arch.machine b [exit] s₁ =
      .goto (if i < n then t else f) s₁ := by
    simp only [IRProgram.execInstrs, hexit, hcond]
    by_cases hlt : i < n <;> simp [Arch.machine, wordOfBool, hlt]
  obtain ⟨s₂, hs₂, hregs, hmem⟩ := Compiled.steps_jump hgoto (by split_ifs <;> assumption)
    (by split_ifs <;> assumption)
  refine ⟨s₂, hstep.trans hs₂, fun ref hne => ?_, ?_, hmem⟩
  · rw [hregs]
    exact execInstr_regs hx hne
  · rw [hregs]
    exact hc.execInstr hcmp hx

/-- A complete loop in the finished program, opened at `p`, with its body up to `q` and closed to
`r`. -/
structure LoopCode (C : Compiled) (name : String) (zero bound one : IRValueRef)
    (p q r : IRProgram) : Prop where
  header : C.program.blockAt p.blocks.length = [p.loopIndex, p.dataSize + 32, p.dataSize + 44]
  entry : C.program.instrAt p.dataSize = some (.branch p.blocks.length)
  phi : C.program.instrAt p.loopIndex =
    some (.phi .int64 [(zero, p.currentBlkIdx), (.instr q.dataSize, q.currentBlkIdx)])
  hasMore : C.program.instrAt (p.dataSize + 32) =
    some (.binary .cmpLt .bool (.instr p.loopIndex) bound)
  exit : C.program.instrAt (p.dataSize + 44) = some (.condBranch (.instr (p.dataSize + 32))
    (p.blocks.length + 1) (p.blocks.length + 2))
  next : C.program.instrAt q.dataSize = some (.binary .add .int64 (.instr p.loopIndex) one)
  back : C.program.instrAt (q.dataSize + 12) = some (.branch p.blocks.length)
  bodyFree : PhiFree C.program (C.program.blockAt (p.blocks.length + 1))
  exitFree : PhiFree C.program (C.program.blockAt (p.blocks.length + 2))
  length : p.blocks.length + 2 < C.program.blocks.length
  entryCursor : ∃ rest, C.cursor p = (p.currentBlkIdx, p.dataSize :: rest)
  bodyCursor : C.cursor (p.openLoop name zero bound) =
    (p.blocks.length + 1, C.program.blockAt (p.blocks.length + 1))
  latchCursor : ∃ rest, C.cursor q =
    (q.currentBlkIdx, q.dataSize :: (q.dataSize + 12) :: rest)
  exitCursor : C.cursor r = (p.blocks.length + 2, C.program.blockAt (p.blocks.length + 2))
  latch : p.currentBlkIdx ≠ q.currentBlkIdx
  opened : (p.openLoop name zero bound).dataSize = p.dataSize + 60
  size : p.dataSize + 60 ≤ q.dataSize

lemma loopCode_of_final {name : String} {zeroOff : Nat} {bound one : IRValueRef} (hv : Valid p)
    (hl : Local (p.openLoop name (.instr zeroOff) bound) q) (hvq : Valid q)
    (hclose : q.closeLoop p.blocks.length p.loopIndex one = some r)
    (hfin : Final C.program r pending) (hpend : ∀ b ∈ pending, b < p.blocks.length) :
    LoopCode C name (.instr zeroOff) bound one p q r := by
  have hopen := openLoop_spec hv name (.instr zeroOff) bound
  have hb := hv.blkIdx
  have hlen := hopen.length
  have hblocks := hl.blocks
  have hcur := hl.current
  have hocur := hopen.current
  have hsize := hl.size
  have hosize := hopen.size
  have hcl := loopBuilt_of_close hv hl hvq hclose
  have hlt := hcl.latch
  have hrcur := hcl.current
  have hrlen := hcl.length
  have hPlen := hfin.ext.blocks
  have hext : Extends (p.openLoop name (.instr zeroOff) bound) C.program :=
    (hl.toExtends.trans hcl.weak).trans hfin.ext
  have hnil : ∀ b, p.blocks.length < b → b < p.blocks.length + 3 →
      (p.openLoop name (.instr zeroOff) bound).blockAt b = [] := by
    intro b hle hlt
    rw [hopen.blockAt, if_neg (by omega), if_neg (by omega), blockAt_of_length_le (by omega)]
  have hfree : ∀ b, p.blocks.length < b → b < p.blocks.length + 3 →
      PhiFree C.program (C.program.blockAt b) := fun b hle hlt =>
    hext.phiFree (by omega) (hnil b hle hlt ▸ phiFree_nil _)
  have hlatch := hfin.ext.prefixes q.currentBlkIdx
  rw [hcl.blockAt, if_pos rfl] at hlatch
  exact {
    header := by
      rw [hfin.sealed _ (by omega) (by omega) (fun hmem => absurd (hpend _ hmem) (by omega)),
        hcl.headerAt]
    entry := hext.records _ _ hopen.entry trivial
    phi := hfin.ext.records _ _ hcl.patched (by simp [Instr.IsComplete])
    hasMore := hext.records _ _ hopen.hasMore trivial
    exit := hext.records _ _ hopen.exit trivial
    next := hfin.ext.records _ _ hcl.next trivial
    back := hfin.ext.records _ _ hcl.back trivial
    bodyFree := hfree _ (by omega) (by omega)
    exitFree := hfree _ (by omega) (by omega)
    length := by omega
    entryCursor := cursor_of_prefix _ (by
      have hpre := hext.prefixes p.currentBlkIdx
      rw [hopen.blockAt, if_pos rfl] at hpre
      exact hpre)
    bodyCursor := by
      rw [cursor_of_nil (by rw [hocur]; exact hnil _ (by omega) (by omega)), hocur]
    latchCursor := by
      obtain ⟨tail, htail⟩ := hlatch
      refine ⟨tail, ?_⟩
      rw [Compiled.cursor, ← htail, List.append_assoc, List.drop_left]
      rfl
    exitCursor := by
      rw [cursor_of_nil (by rw [hrcur]; exact hcl.exitAt), hrcur]
    latch := by omega
    opened := hosize
    size := hcl.opened }

namespace LoopCode

variable {name : String} {zero bound one : IRValueRef} {n : Nat}
  {body : Nat → Heap → Option Heap}

lemma headerFree (h : LoopCode C name zero bound one p q r) :
    PhiFree C.program [p.dataSize + 32, p.dataSize + 44] := by
  intro off hoff
  rcases List.mem_pair.mp hoff with rfl | rfl
  · exact ⟨_, h.hasMore, rfl⟩
  · exact ⟨_, h.exit, rfl⟩

/-- The state in front of the comparison of round `i`. -/
structure AtRound (C : Compiled) (p : IRProgram) (s : QueryState) (i : Nat) (t : QueryState) :
    Prop where
  same : SameBelow p s t
  consts : ConstRegs C.program t.regs
  index : t.regs (.instr p.loopIndex) = .word (BitVec.ofNat 64 i)

lemma loopIndex_eq (p : IRProgram) : p.loopIndex = p.dataSize + 8 := rfl

/-- From the branch into the loop to its first round. -/
lemma enters (h : LoopCode C name zero bound one p q r) (hc : ConstRegs C.program s.regs)
    (hzero : Holds p s zero (.word 0)) :
    ∃ t, C.Steps (C.cursor p) s (p.blocks.length, [p.dataSize + 32, p.dataSize + 44]) t ∧
      AtRound C p s 0 t ∧ t.mem = s.mem := by
  obtain ⟨rest, hrest⟩ := h.entryCursor
  have hlen := h.length
  have hgoto : C.program.execInstrs C.arch.machine p.currentBlkIdx (p.dataSize :: rest) s =
      .goto p.blocks.length s := by
    simp only [IRProgram.execInstrs, h.entry]
  obtain ⟨t, hsteps, hmem, hregs⟩ := Compiled.steps_jump_phi hgoto (by omega) h.header h.phi
    h.headerFree (v := zero) (x := p.currentBlkIdx) (List.find?_cons_of_pos (by simp))
  rw [hzero.same fun _ _ => rfl] at hregs
  refine ⟨t, hrest ▸ hsteps, ⟨fun off hoff => ?_, ?_, ?_⟩, hmem⟩
  · rw [hregs, Function.update_of_ne (by simp [loopIndex_eq]; omega)]
  · rw [hregs]
    exact hc.update_phi h.phi _
  · rw [hregs, Function.update_self]
    rfl

/-- From the end of the body to the next round. -/
lemma continues (h : LoopCode C name zero bound one p q r) {t : QueryState} {i : Nat}
    (ht : AtRound C p s i t) (hone : Holds p s one (.word 1)) :
    ∃ t', C.Steps (C.cursor q) t (p.blocks.length, [p.dataSize + 32, p.dataSize + 44]) t' ∧
      AtRound C p s (i + 1) t' ∧ t'.mem = t.mem := by
  obtain ⟨rest, hrest⟩ := h.latchCursor
  have hlen := h.length
  have hsize := h.size
  have hidx := loopIndex_eq p
  let t₁ := t.setReg q.dataSize (.word (BitVec.ofNat 64 (i + 1)))
  have hx : execInstr C.arch.machine q.dataSize (.binary .add .int64 (.instr p.loopIndex) one) t =
      some t₁ := by
    simp only [execInstr, ht.index, hone.same ht.same, Opcode.isBinary]
    simp [Arch.machine, Arch.evalBinary, t₁, BitVec.ofNat_add]
  have hstep : C.Steps (q.currentBlkIdx, q.dataSize :: (q.dataSize + 12) :: rest) t
      (q.currentBlkIdx, (q.dataSize + 12) :: rest) t₁ := Compiled.steps_instr h.next rfl rfl hx
  have hgoto : C.program.execInstrs C.arch.machine q.currentBlkIdx ((q.dataSize + 12) :: rest) t₁ =
      .goto p.blocks.length t₁ := by
    simp only [IRProgram.execInstrs, h.back]
  obtain ⟨t', hsteps, hmem, hregs⟩ := Compiled.steps_jump_phi hgoto (by omega) h.header h.phi
    h.headerFree (v := .instr q.dataSize) (x := q.currentBlkIdx) (by
      rw [List.find?_cons_of_neg (by simpa using h.latch), List.find?_cons_of_pos (by simp)])
  have hnext : t₁.regs (.instr q.dataSize) = .word (BitVec.ofNat 64 (i + 1)) := by
    simp [t₁, ExecState.setReg]
  rw [hnext] at hregs
  refine ⟨t', hrest ▸ hstep.trans hsteps, ⟨fun off hoff => ?_, ?_, ?_⟩, hmem⟩
  · rw [hregs, Function.update_of_ne (by simp; omega), execInstr_regs hx (by simp; omega),
      ht.same off hoff]
  · rw [hregs]
    exact (ht.consts.execInstr h.next hx).update_phi h.phi _
  · rw [hregs, Function.update_self]

/-- What the body does in one round. -/
def BodyRuns (C : Compiled) (name : String) (zero bound : IRValueRef) (p q : IRProgram)
    (s : QueryState) (n : Nat) (body : Nat → Heap → Option Heap) : Prop :=
  ∀ i < n, ∀ (t : QueryState) heap, AtRound C p s i t → body i t.mem = some heap →
    ∃ t', C.Reaches (p.openLoop name zero bound) t q t' ∧ t'.mem = heap

/-- The rounds that are left, by induction on their number. -/
lemma rounds (h : LoopCode C name zero bound one p q r) (hn : n < 2 ^ 63)
    (hbound : Holds p s bound (.word (BitVec.ofNat 64 n))) (hone : Holds p s one (.word 1))
    (hbody : BodyRuns C name zero bound p q s n body) {heap : Heap} (k i : Nat) (t : QueryState)
    (hik : i + k = n) (ht : AtRound C p s i t)
    (hrun : (List.range' i k).foldlM (fun heap i => body i heap) t.mem = some heap) :
    ∃ t', C.Steps (p.blocks.length, [p.dataSize + 32, p.dataSize + 44]) t (C.cursor r) t' ∧
      SameBelow p s t' ∧ ConstRegs C.program t'.regs ∧ t'.mem = heap := by
  have hlen := h.length
  have hidx := loopIndex_eq p
  induction k generalizing i t with
  | zero =>
    obtain ⟨t₁, hs₁, hregs₁, hc₁, hm₁⟩ := Compiled.steps_header (b := p.blocks.length) h.hasMore
      h.exit (by omega) h.length h.bodyFree h.exitFree ht.consts ht.index (hbound.same ht.same)
      (by omega) hn
    rw [if_neg (by omega)] at hs₁
    refine ⟨t₁, h.exitCursor ▸ hs₁, fun off hoff => ?_, hc₁, ?_⟩
    · rw [hregs₁ _ (by simp; omega), ht.same off hoff]
    · rw [hm₁]
      simpa using hrun
  | succ k ih =>
    rw [List.range'_succ, List.foldlM_cons] at hrun
    obtain ⟨heap₁, hheap₁, hrun⟩ := Option.bind_eq_some_iff.mp hrun
    obtain ⟨t₁, hs₁, hregs₁, hc₁, hm₁⟩ := Compiled.steps_header (b := p.blocks.length) h.hasMore
      h.exit (by omega) h.length h.bodyFree h.exitFree ht.consts ht.index (hbound.same ht.same)
      (by omega) hn
    rw [if_pos (by omega), ← h.bodyCursor] at hs₁
    have ht₁ : AtRound C p s i t₁ := ⟨fun off hoff => by rw [hregs₁ _ (by simp; omega), ht.same off hoff],
      hc₁, by rw [hregs₁ _ (by simp; omega), ht.index]⟩
    obtain ⟨t₂, hr₂, hm₂⟩ := hbody i (by omega) t₁ heap₁ ht₁ (hm₁ ▸ hheap₁)
    have hopened := h.opened
    have ht₂ : AtRound C p s i t₂ := ⟨fun off hoff => by rw [hr₂.frame off (by omega), ht₁.same off hoff],
      hr₂.consts, by rw [hr₂.frame _ (by omega), ht₁.index]⟩
    obtain ⟨t₃, hs₃, ht₃, hm₃⟩ := h.continues ht₂ hone
    obtain ⟨t', hs', hdone⟩ := ih (i + 1) t₃ (by omega) ht₃ (by rw [hm₃, hm₂]; exact hrun)
    exact ⟨t', ((hs₁.trans hr₂.steps).trans hs₃).trans hs', hdone⟩

/-- A counted loop runs its body for every index below the bound. -/
theorem reaches (h : LoopCode C name zero bound one p q r) (hc : ConstRegs C.program s.regs)
    (hzero : Holds p s zero (.word 0)) (hbound : Holds p s bound (.word (BitVec.ofNat 64 n)))
    (hone : Holds p s one (.word 1)) (hbody : BodyRuns C name zero bound p q s n body) {heap : Heap}
    (hrun : countedEffect n body s.mem = some heap) : ∃ s', C.Reaches p s r s' ∧ s'.mem = heap := by
  unfold countedEffect at hrun
  split_ifs at hrun with hn
  rw [List.range_eq_range'] at hrun
  obtain ⟨t, hsteps, ht, hmem⟩ := h.enters hc hzero
  obtain ⟨t', hsteps', hsame, hc', hmem'⟩ := h.rounds hn hbound hone hbody n 0 t (by omega) ht
    (hmem ▸ hrun)
  exact ⟨t', ⟨hsteps.trans hsteps', hsame, hc'⟩, hmem'⟩

end LoopCode

end

end TidyTuples.Proofs
