import TidyTuples.Proofs.Generators
import TidyTuples.Sql.Runner

/-!
# Generated control flow is well formed

A derivation adds a region to a program: the block it starts in and new blocks. All blocks of a
region but the one it ends in are closed, and they branch to new blocks only, so the edges into
the header of a loop are known when the loop is closed.
-/

namespace TidyTuples.Proofs

open IRProgram

/-! ### Edges -/

/-- Where control goes from block `b` with this last instruction. -/
def flowTargets (b : Nat) : Option Instr → List Nat
  | some (.branch target) => [target]
  | some (.condBranch _ trueBlock falseBlock) => [trueBlock, falseBlock]
  | some (.ret _) => []
  | _ => [b + 1]

/-- The targets of the branch that ends `b`; without one the next block. -/
def flowSuccessors (P : IRProgram) (b : Nat) : List Nat :=
  flowTargets b ((P.blockAt b).getLast?.bind P.instrAt)

/-- `path` leads from the entry block to `b`. -/
inductive FlowPath (P : IRProgram) : List Nat → Nat → Prop
  | entry : FlowPath P [0] 0
  | step {path : List Nat} {b c : Nat} : FlowPath P path b → c ∈ flowSuccessors P b →
      FlowPath P (path ++ [c]) c

/-- On every path to the end of block `b` the value has been computed. -/
def DefinedAtEnd (P : IRProgram) (value : IRValueRef) (b : Nat) : Prop :=
  ∃ off, value = .instr off ∧ ∀ path, FlowPath P path b → ∃ c ∈ path, off ∈ P.blockAt c

/-- A predecessor of `b` among the blocks of the function. -/
def IsPredecessor (P : IRProgram) (b pred : Nat) : Prop :=
  pred < P.blocks.length ∧ b ∈ flowSuccessors P pred

structure WellFormedFlow (P : IRProgram) : Prop where
  terminators : ∀ b, ∀ off ∈ (P.blockAt b).dropLast, ∀ i, P.instrAt off = some i →
    i.isTerminator = false
  phisFirst : ∀ b, ∃ phis rest, P.blockAt b = phis ++ rest ∧
    (∀ off ∈ phis, ∃ i, P.instrAt off = some i ∧ i.isPhi = true) ∧
    ∀ off ∈ rest, ∃ i, P.instrAt off = some i ∧ i.isPhi = false
  phis : ∀ b, ∀ off ∈ P.blockAt b, ∀ ty entries, P.instrAt off = some (.phi ty entries) →
    (∀ entry ∈ entries, entry.1 ≠ .null) ∧ (entries.map Prod.snd).Nodup ∧
    (∀ pred, pred ∈ entries.map Prod.snd ↔ IsPredecessor P b pred) ∧
    ∀ entry ∈ entries, DefinedAtEnd P entry.1 entry.2

/-! ### Regions -/

def InRegion (p q : IRProgram) (b : Nat) : Prop :=
  b = p.currentBlkIdx ∨ (p.blocks.length ≤ b ∧ b < q.blocks.length)

/-- A block of the region that is closed. -/
def ClosedIn (p q : IRProgram) (b : Nat) : Prop := InRegion p q b ∧ b ≠ q.currentBlkIdx

/-- The PHI of block `b`, whose entry and back edge lie in the region. -/
def LoopPhi (p q : IRProgram) (b : Nat) (entries : List (IRValueRef × Nat)) : Prop :=
  ∃ z e next latch, entries = [(.instr z, e), (.instr next, latch)] ∧
    q.constIntCache.lookup (constKey 0 .int64) = some z ∧ next ∈ q.blockAt latch ∧ e ≠ latch ∧
    ClosedIn p q e ∧ ClosedIn p q latch ∧
    ∀ x, ClosedIn p q x → (b ∈ flowSuccessors q x ↔ x = e ∨ x = latch)

structure Region (p q : IRProgram) : Prop where
  ended : ∀ b, ClosedIn p q b → ∀ off ∈ (q.blockAt b).dropLast, ∀ i, q.instrAt off = some i →
    i.isTerminator = false
  targets : ∀ b, ClosedIn p q b → ∀ t ∈ flowSuccessors q b,
    p.blocks.length ≤ t ∧ t < q.blocks.length
  current : p.blocks.length ≤ q.currentBlkIdx → PhiFree q (q.blockAt q.currentBlkIdx)
  heads : ∀ b, p.blocks.length ≤ b → b ≠ q.currentBlkIdx → PhiFree q (q.blockAt b) ∨
    ∃ off rest ty entries, q.blockAt b = off :: rest ∧ PhiFree q rest ∧
      q.instrAt off = some (.phi ty entries) ∧ LoopPhi p q b entries

section

variable {p q r : IRProgram}

/-- Block `b` is the same in both programs. -/
structure SameBlock (q r : IRProgram) (b : Nat) : Prop where
  offsets : r.blockAt b = q.blockAt b
  records : ∀ off ∈ q.blockAt b, r.instrAt off = q.instrAt off

lemma SameBlock.refl (q : IRProgram) (b : Nat) : SameBlock q q b :=
  ⟨rfl, fun _ _ => rfl⟩

lemma SameBlock.flow {b : Nat} (h : SameBlock q r b) : flowSuccessors r b = flowSuccessors q b := by
  simp only [flowSuccessors, h.offsets]
  cases hlast : (q.blockAt b).getLast? with
  | none => rfl
  | some off => simp only [Option.bind_some, h.records off (List.mem_of_getLast? hlast)]

lemma SameBlock.ended {b : Nat} (h : SameBlock q r b)
    (hq : ∀ off ∈ (q.blockAt b).dropLast, ∀ i, q.instrAt off = some i → i.isTerminator = false) :
    ∀ off ∈ (r.blockAt b).dropLast, ∀ i, r.instrAt off = some i → i.isTerminator = false := by
  intro off hoff i hi
  rw [h.offsets] at hoff
  rw [h.records off (List.mem_of_mem_dropLast hoff)] at hi
  exact hq off hoff i hi

lemma SameBlock.phiFree {b : Nat} (h : SameBlock q r b) (hq : PhiFree q (q.blockAt b)) :
    PhiFree r (r.blockAt b) := by
  intro off hoff
  rw [h.offsets] at hoff
  rw [h.records off hoff]
  exact hq off hoff

lemma Local.sameBlock (h : Local p q) (hv : Valid p) {b : Nat} (hb : b < p.blocks.length)
    (hne : b ≠ p.currentBlkIdx) : SameBlock p q b := by
  refine ⟨h.others b hb hne, fun off hoff => ?_⟩
  obtain ⟨i, hi⟩ := hv.blockOffsets b off hoff
  rw [hi, h.allRecords off i hi]

/-- Straight-line code closes no block. -/
lemma Region.straight (hv : Valid p) (hlen : q.blocks.length = p.blocks.length)
    (hcur : q.currentBlkIdx = p.currentBlkIdx) : Region p q := by
  have hb := hv.blkIdx
  have hnone : ∀ b, ¬ ClosedIn p q b := by
    rintro b ⟨hin | hin, hne⟩ <;> omega
  refine ⟨fun b h => absurd h (hnone b), fun b h => absurd h (hnone b), fun h => by omega,
    fun b hle _ => .inl ?_⟩
  rw [blockAt_of_length_le (by omega)]
  exact phiFree_nil _

/-- The header of a loop inside a region keeps its predecessors when no other block of the larger
region branches to it. -/
lemma LoopPhi.mono {p' : IRProgram} {b : Nat} {entries : List (IRValueRef × Nat)}
    (h : LoopPhi p q b entries) (hsame : ∀ x, ClosedIn p q x → SameBlock q r x)
    (hcache : ∀ key off, q.constIntCache.lookup key = some off →
      r.constIntCache.lookup key = some off)
    (hin : ∀ x, ClosedIn p q x → ClosedIn p' r x)
    (hout : ∀ x, ClosedIn p' r x → ¬ ClosedIn p q x → b ∉ flowSuccessors r x) :
    LoopPhi p' r b entries := by
  obtain ⟨z, e, next, latch, hent, hz, hnext, hne, hce, hcl, hpred⟩ := h
  refine ⟨z, e, next, latch, hent, hcache _ _ hz, ?_, hne, hin e hce, hin latch hcl, fun x hx => ?_⟩
  · rw [(hsame latch hcl).offsets]
    exact hnext
  · by_cases hc : ClosedIn p q x
    · rw [(hsame x hc).flow]
      exact hpred x hc
    · refine iff_of_false (hout x hx hc) ?_
      rintro (rfl | rfl)
      · exact hc hce
      · exact hc hcl

/-- Block `b` starts with no PHI but that of a loop. -/
def Head (p q : IRProgram) (b : Nat) : Prop :=
  PhiFree q (q.blockAt b) ∨ ∃ off rest ty entries, q.blockAt b = off :: rest ∧ PhiFree q rest ∧
    q.instrAt off = some (.phi ty entries) ∧ LoopPhi p q b entries

lemma Head.mono {p' : IRProgram} {b : Nat} (h : Head p q b) (hs : SameBlock q r b)
    (hloop : ∀ entries, LoopPhi p q b entries → LoopPhi p' r b entries) : Head p' r b := by
  rcases h with hfree | ⟨off, rest, ty, entries, hblk, hrest, hphi, hl⟩
  · exact .inl (hs.phiFree hfree)
  · refine .inr ⟨off, rest, ty, entries, hs.offsets.trans hblk, fun o ho => ?_, ?_, hloop entries hl⟩
    · rw [hs.records o (hblk ▸ List.mem_cons_of_mem off ho)]
      exact hrest o ho
    · rw [hs.records off (hblk ▸ List.mem_cons_self), hphi]

lemma Head.phisFirst {b : Nat} (h : Head p q b) : ∃ phis rest, q.blockAt b = phis ++ rest ∧
    (∀ off ∈ phis, ∃ i, q.instrAt off = some i ∧ i.isPhi = true) ∧
    ∀ off ∈ rest, ∃ i, q.instrAt off = some i ∧ i.isPhi = false := by
  rcases h with hfree | ⟨off, rest, ty, entries, hblk, hrest, hphi, -⟩
  · exact ⟨[], q.blockAt b, rfl, by simp, hfree⟩
  · exact ⟨[off], rest, hblk, by simp [hphi, Instr.isPhi], hrest⟩

/-- A PHI of such a block is that of a loop. -/
lemma Head.loopPhi {b off : Nat} {ty : IRType} {entries : List (IRValueRef × Nat)} (h : Head p q b)
    (hoff : off ∈ q.blockAt b) (hent : q.instrAt off = some (.phi ty entries)) :
    LoopPhi p q b entries := by
  have hnot : ∀ offsets, PhiFree q offsets → off ∉ offsets := by
    intro offsets hfree hmem
    obtain ⟨i, hi, hphi⟩ := hfree off hmem
    rw [hent] at hi
    cases hi
    cases hphi
  rcases h with hfree | ⟨off', rest, ty', entries', hblk, hrest, hphi, hloop⟩
  · exact absurd hoff (hnot _ hfree)
  · rw [hblk] at hoff
    rcases List.mem_cons.mp hoff with rfl | hmem
    · rw [hent] at hphi
      cases hphi
      exact hloop
    · exact absurd hmem (hnot rest hrest)

theorem Region.trans (h : Region p q) (h' : Region q r) (hv : Valid p) (hvq : Valid q)
    (hl : Local p q) (hl' : Local q r) : Region p r := by
  have hb := hv.blkIdx
  have hbq := hvq.blkIdx
  have hlen := hl.blocks
  have hlen' := hl'.blocks
  have hcur := hl.current
  have hcur' := hl'.current
  have hsplit : ∀ b, ClosedIn p r b ↔ ClosedIn p q b ∨ ClosedIn q r b := by
    intro b
    simp only [ClosedIn, InRegion]
    omega
  have hsame : ∀ b, b < q.blocks.length → b ≠ q.currentBlkIdx → SameBlock q r b :=
    fun b hb hne => hl'.sameBlock hvq hb hne
  have hsame' : ∀ b, ClosedIn p q b → SameBlock q r b := by
    intro b hc
    refine hsame b ?_ hc.2
    rcases hc.1 with rfl | hc <;> omega
  refine ⟨fun b hc => ?_, fun b hc t ht => ?_, fun hle => ?_, fun b hle hne => ?_⟩
  · rcases (hsplit b).mp hc with hc | hc
    · exact (hsame' b hc).ended (h.ended b hc)
    · exact h'.ended b hc
  · rcases (hsplit b).mp hc with hc | hc
    · rw [(hsame' b hc).flow] at ht
      have := h.targets b hc t ht
      omega
    · have := h'.targets b hc t ht
      omega
  · rcases hcur' with hc | hc
    · rw [hc] at hle ⊢
      exact hl'.phiFree hbq (h.current hle)
    · exact h'.current hc
  · by_cases hold : b < q.blocks.length
    · by_cases hbc : b = q.currentBlkIdx
      · subst hbc
        exact .inl (hl'.phiFree hbq (h.current hle))
      · -- the second region branches to its own blocks only
        refine Head.mono (h.heads b hle hbc) (hsame b hold hbc) fun entries hloop =>
          hloop.mono hsame' hl'.cache (fun x hx => (hsplit x).mpr (.inl hx)) fun x hx hnot hmem => ?_
        have := h'.targets x (((hsplit x).mp hx).resolve_left hnot) b hmem
        omega
    · refine Head.mono (h'.heads b (by omega) hne) (.refl r b) fun entries hloop =>
        hloop.mono (fun x _ => .refl r x) (fun _ _ hk => hk) (fun x hx => (hsplit x).mpr (.inr hx))
          fun x hx hnot hmem => ?_
      have hc := ((hsplit x).mp hx).resolve_right hnot
      rw [(hsame' x hc).flow] at hmem
      have := h.targets x hc b hmem
      omega

/-- A construct with the region `o`, `q` as its body is a region, if its own blocks branch to each
other only. -/
theorem Region.enclose {o : IRProgram} (h : Region o q) (hpo : p.blocks.length ≤ o.blocks.length)
    (hoq : o.blocks.length ≤ q.blocks.length) (hqr : r.blocks.length = q.blocks.length)
    (hcache : r.constIntCache = q.constIntCache) (hin : ∀ b, ClosedIn o q b → ClosedIn p r b)
    (hsame : ∀ b, b = o.currentBlkIdx ∨ o.blocks.length ≤ b → b ≠ q.currentBlkIdx →
      SameBlock q r b)
    (hended : ∀ b, ClosedIn p r b → ¬ ClosedIn o q b → ∀ off ∈ (r.blockAt b).dropLast, ∀ i,
      r.instrAt off = some i → i.isTerminator = false)
    (htargets : ∀ b, ClosedIn p r b → ¬ ClosedIn o q b → ∀ t ∈ flowSuccessors r b,
      p.blocks.length ≤ t ∧ t < o.blocks.length)
    (hcurrent : PhiFree r (r.blockAt r.currentBlkIdx))
    (hbody : o.blocks.length ≤ q.currentBlkIdx → PhiFree r (r.blockAt q.currentBlkIdx))
    (hheads : ∀ b, p.blocks.length ≤ b → b < o.blocks.length → Head p r b) : Region p r := by
  have hclosed : ∀ b, ClosedIn o q b → SameBlock q r b := fun b hc =>
    hsame b (hc.1.imp id And.left) hc.2
  refine ⟨fun b hc => ?_, fun b hc t ht => ?_, fun _ => hcurrent, fun b hle _ => ?_⟩
  · by_cases hc' : ClosedIn o q b
    · exact (hclosed b hc').ended (h.ended b hc')
    · exact hended b hc hc'
  · by_cases hc' : ClosedIn o q b
    · rw [(hclosed b hc').flow] at ht
      have := h.targets b hc' t ht
      omega
    · have := htargets b hc hc' t ht
      omega
  · by_cases hnew : o.blocks.length ≤ b
    · by_cases hbc : b = q.currentBlkIdx
      · exact .inl (hbc ▸ hbody (hbc ▸ hnew))
      · refine Head.mono (h.heads b hnew hbc) (hsame b (.inr hnew) hbc) fun entries hloop =>
          hloop.mono hclosed (fun _ _ hk => hcache ▸ hk) hin fun x hx hnot hmem => ?_
        have := htargets x hx hnot b hmem
        omega
    · exact hheads b hle (by omega)

lemma flow_append {b off : Nat} {xs : List Nat} {i : Instr} (hb : q.blockAt b = xs ++ [off])
    (hi : q.instrAt off = some i) : flowSuccessors q b = flowTargets b (some i) := by
  simp only [flowSuccessors, hb, List.getLast?_append, List.getLast?_singleton, Option.some_or,
    Option.bind_some, hi]

lemma flow_nil {b : Nat} (hb : q.blockAt b = []) : flowSuccessors q b = [b + 1] := by
  simp only [flowSuccessors, hb]
  rfl

lemma ended_append {b off : Nat} {xs : List Nat} (hb : q.blockAt b = xs ++ [off])
    (hxs : ∀ o ∈ xs, ∀ i, q.instrAt o = some i → i.isTerminator = false) :
    ∀ o ∈ (q.blockAt b).dropLast, ∀ i, q.instrAt o = some i → i.isTerminator = false := by
  rw [hb, List.dropLast_concat]
  exact hxs

theorem region_ifThen {cond : IRValueRef} (hv : Valid p) (ho : Open p)
    (h : Region (p.openIf cond) q) (hl : Local (p.openIf cond) q) (hvq : Valid q) (hoq : Open q) :
    Region p (q.closeIf (p.blocks.length + 2)) := by
  have hopen := openIf_spec hv cond
  have hb := hv.blkIdx
  have hlen := hopen.length
  have hlb := hl.blocks
  have hcl := closeIf_spec hvq hoq (m := p.blocks.length + 2) (by omega)
  have hcur := hl.current
  have hoc := hopen.current
  generalize q.closeIf (p.blocks.length + 2) = r at hcl
  generalize p.openIf cond = o at *
  have hrc := hcl.current
  have hrlen := hcl.length
  -- every block but the one the body ends in is as it was
  have hsame : ∀ b, b ≠ q.currentBlkIdx → SameBlock q r b := by
    intro b hne
    refine ⟨by rw [hcl.blockAt, if_neg hne], fun off hoff => ?_⟩
    rw [hcl.instrAt, if_neg (hvq.offset_lt hoff).ne]
  have hold : ∀ b, b < p.blocks.length + 3 → b ≠ p.blocks.length → SameBlock o r b := by
    intro b hlt hne
    have h₁ := hl.sameBlock hopen.valid (b := b) (by omega) (by omega)
    have h₂ := hsame b (by omega)
    exact ⟨h₂.offsets.trans h₁.offsets, fun off hoff =>
      (h₂.records off (h₁.offsets ▸ hoff)).trans (h₁.records off hoff)⟩
  have hfalse : r.blockAt (p.blocks.length + 1) = [] := by
    rw [(hold _ (by omega) (by omega)).offsets, hopen.blockAt, if_neg (by omega),
      blockAt_of_length_le (by omega)]
  have hmerge : r.blockAt (p.blocks.length + 2) = [] := by
    rw [(hold _ (by omega) (by omega)).offsets, hopen.blockAt, if_neg (by omega),
      blockAt_of_length_le (by omega)]
  have hentry : r.blockAt p.currentBlkIdx = p.blockAt p.currentBlkIdx ++ [p.dataSize] := by
    rw [(hold _ (by omega) (by omega)).offsets, hopen.blockAt, if_pos rfl]
  have hentryAt : ∀ off ∈ p.blockAt p.currentBlkIdx ++ [p.dataSize], r.instrAt off = o.instrAt off :=
    fun off hoff => (hold p.currentBlkIdx (by omega) (by omega)).records off
      (by rw [hopen.blockAt, if_pos rfl]; exact hoff)
  have hbranch : r.instrAt p.dataSize =
      some (.condBranch cond p.blocks.length (p.blocks.length + 1)) := by
    rw [hentryAt _ (by simp), hopen.instrAt, if_pos rfl]
  have hlast : r.blockAt q.currentBlkIdx = q.blockAt q.currentBlkIdx ++ [q.dataSize] := by
    rw [hcl.blockAt, if_pos rfl]
  have hjump : r.instrAt q.dataSize = some (.branch (p.blocks.length + 2)) := by
    rw [hcl.instrAt, if_pos rfl]
  have hflow_c := flow_append hentry hbranch
  have hflow_l := flow_append hlast hjump
  have hflow_f := flow_nil hfalse
  have hcases : ∀ b, ClosedIn p r b → b = p.currentBlkIdx ∨ b = p.blocks.length + 1 ∨
      b = q.currentBlkIdx ∨ ClosedIn o q b := by
    intro b hc
    simp only [ClosedIn, InRegion] at hc ⊢
    omega
  have hin : ∀ b, ClosedIn o q b → ClosedIn p r b := by
    intro b hc
    simp only [ClosedIn, InRegion] at hc ⊢
    omega
  refine h.enclose (by omega) (by omega) hrlen hcl.cache hin (fun b _ hne => hsame b hne)
    (fun b hc hnot => ?_) (fun b hc hnot t ht => ?_) ?_ (fun hle => ?_) fun b hle hlt => .inl ?_
  · rcases hcases b hc with rfl | rfl | rfl | hc'
    · refine ended_append hentry fun off hoff i hi => ?_
      rw [hentryAt off (by simp [hoff]), hopen.instrAt, if_neg (hv.offset_lt hoff).ne] at hi
      exact ho off hoff i hi
    · rw [hfalse]
      simp
    · refine ended_append hlast fun off hoff i hi => ?_
      rw [hcl.instrAt, if_neg (hvq.offset_lt hoff).ne] at hi
      exact hoq off hoff i hi
    · exact absurd hc' hnot
  · rcases hcases b hc with rfl | rfl | rfl | hc'
    · rw [hflow_c] at ht
      simp only [flowTargets, List.mem_cons, List.not_mem_nil, or_false] at ht
      omega
    · rw [hflow_f] at ht
      simp only [List.mem_singleton] at ht
      omega
    · rw [hflow_l] at ht
      simp only [flowTargets, List.mem_singleton] at ht
      omega
    · exact absurd hc' hnot
  · rw [hrc, hmerge]
    exact phiFree_nil _
  · exact hcl.weak.phiFree hvq.blkIdx (h.current hle)
  · refine hcl.weak.phiFree (by omega) (hl.phiFree (by omega) ?_)
    rw [hopen.blockAt, if_neg (by omega), blockAt_of_length_le hle]
    exact phiFree_nil _

/-- The PHI of a loop stands in its header only. -/
lemma loopIndex_not_mem {name : String} {zero bound : IRValueRef} (hv : Valid p)
    (hl : Local (p.openLoop name zero bound) q) {b : Nat} (hne : b ≠ p.blocks.length) :
    p.loopIndex ∉ q.blockAt b := by
  have hopen := openLoop_spec hv name zero bound
  have hsize := hopen.size
  have hidx : p.loopIndex = p.dataSize + 8 := rfl
  intro hmem
  by_cases hold : p.loopIndex ∈ (p.openLoop name zero bound).blockAt b
  · have hlt := @Valid.offset_lt p hv b p.loopIndex
    rw [hopen.blockAt, if_neg hne] at hold
    split_ifs at hold
    · rcases List.mem_append.mp hold with hold | hold
      · have := hlt hold
        omega
      · have := List.mem_singleton.mp hold
        omega
    · have := hlt hold
      omega
  · have := hl.addedOffsets b _ hmem hold
    omega

theorem region_loop {name : String} {zeroOff : Nat} {bound one : IRValueRef} (hv : Valid p)
    (ho : Open p) (hz : p.constIntCache.lookup (constKey 0 .int64) = some zeroOff)
    (h : Region (p.openLoop name (.instr zeroOff) bound) q)
    (hl : Local (p.openLoop name (.instr zeroOff) bound) q) (hvq : Valid q) (hoq : Open q)
    (hclose : q.closeLoop p.blocks.length p.loopIndex one = some r) : Region p r := by
  have hopen := openLoop_spec hv name (.instr zeroOff) bound
  have hphi := fun b => loopIndex_not_mem (b := b) hv hl
  have hb := hv.blkIdx
  have hlen := hopen.length
  have hlb := hl.blocks
  have hosize := hopen.size
  have hcl := loopBuilt_of_close hv hl hvq hclose
  have hcur := hcl.latch
  have hqsize := hcl.opened
  have hqlen := hcl.behind
  have hoc := hopen.current
  generalize p.openLoop name (.instr zeroOff) bound = o at *
  have hrc := hcl.current
  have hrlen := hcl.length
  have hidx : p.loopIndex = p.dataSize + 8 := rfl
  have hsame : ∀ b, b ≠ q.currentBlkIdx → b ≠ p.blocks.length → SameBlock q r b := by
    intro b hne hneB
    refine ⟨by rw [hcl.blockAt, if_neg hne], fun off hoff => ?_⟩
    exact hcl.old off (hvq.offset_lt hoff) fun heq => hphi b hneB (heq ▸ hoff)
  have hheader' : r.blockAt p.blocks.length =
      [p.loopIndex, p.dataSize + 32] ++ [p.dataSize + 44] := hcl.headerAt
  have hrec : ∀ off < p.dataSize + 60, off ≠ p.loopIndex → ∀ i, o.instrAt off = some i →
      r.instrAt off = some i := by
    intro off hlt hne i hi
    rw [hcl.old off (by omega) hne, hl.allRecords off i hi]
  have hbranch := hrec _ (by omega) (by omega) _ hopen.entry
  have hmore := hrec _ (by omega) (by omega) _ hopen.hasMore
  have hout := hrec _ (by omega) (by omega) _ hopen.exit
  have hlast : r.blockAt q.currentBlkIdx =
      q.blockAt q.currentBlkIdx ++ [q.dataSize] ++ [q.dataSize + 12] := by
    rw [hcl.blockAt, if_pos rfl, List.append_assoc]
    rfl
  have hflow_c := flow_append hcl.entryAt hbranch
  have hflow_h := flow_append (b := p.blocks.length) hheader' hout
  have hflow_l := flow_append hlast hcl.back
  have hcases : ∀ b, ClosedIn p r b → b = p.currentBlkIdx ∨ b = p.blocks.length ∨
      b = q.currentBlkIdx ∨ ClosedIn o q b := by
    intro b hc
    simp only [ClosedIn, InRegion] at hc ⊢
    omega
  have hin : ∀ b, ClosedIn o q b → ClosedIn p r b ∧ b ≠ q.currentBlkIdx ∧ b ≠ p.blocks.length := by
    intro b hc
    simp only [ClosedIn, InRegion] at hc ⊢
    omega
  have hflow : ∀ x, ClosedIn p r x → ¬ ClosedIn o q x → ∀ t ∈ flowSuccessors r x,
      (t = p.blocks.length ∧ (x = p.currentBlkIdx ∨ x = q.currentBlkIdx)) ∨
      (x = p.blocks.length ∧ (t = p.blocks.length + 1 ∨ t = p.blocks.length + 2)) := by
    intro x hx hnot t ht
    rcases hcases x hx with rfl | rfl | rfl | hx'
    · rw [hflow_c] at ht
      exact .inl ⟨List.mem_singleton.mp ht, .inl rfl⟩
    · rw [hflow_h] at ht
      exact .inr ⟨rfl, List.mem_pair.mp ht⟩
    · rw [hflow_l] at ht
      exact .inl ⟨List.mem_singleton.mp ht, .inr rfl⟩
    · exact absurd hx' hnot
  refine h.enclose (by omega) (by omega) hrlen hcl.cache (fun b hc => (hin b hc).1)
    (fun b hb hne => hsame b hne (by omega)) (fun b hc hnot => ?_)
    (fun b hc hnot t ht => by have := hflow b hc hnot t ht; omega) ?_ (fun hle => ?_)
    fun b hle hlt => ?_
  · rcases hcases b hc with rfl | rfl | rfl | hc'
    · refine ended_append hcl.entryAt fun off hoff i hi => ?_
      obtain ⟨j, hj⟩ := hv.blockOffsets _ off hoff
      have hlt := hv.instrAt_lt hj
      rw [hrec off (by omega) (by omega) j (by rw [hopen.old off hlt, hj])] at hi
      exact ho off hoff i (hj.trans hi)
    · refine ended_append hheader' fun off hoff i hi => ?_
      rcases List.mem_pair.mp hoff with rfl | rfl
      · rw [hcl.patched] at hi
        cases hi
        rfl
      · rw [hmore] at hi
        cases hi
        rfl
    · refine ended_append hlast fun off hoff i hi => ?_
      rcases List.mem_append.mp hoff with hoff | hoff
      · rw [hcl.old off (hvq.offset_lt hoff) fun heq => hphi _ (by omega) (heq ▸ hoff)] at hi
        exact hoq off hoff i hi
      · rw [List.mem_singleton.mp hoff, hcl.next] at hi
        cases hi
        rfl
    · exact absurd hc' hnot
  · rw [hrc, hcl.exitAt]
    exact phiFree_nil _
  · exact hcl.weak.phiFree hvq.blkIdx (h.current hle)
  · by_cases hbB : b = p.blocks.length
    · subst hbB
      refine .inr ⟨p.loopIndex, _, _, _, hcl.headerAt, fun off hoff => ?_, hcl.patched,
        zeroOff, p.currentBlkIdx, q.dataSize, q.currentBlkIdx, rfl, ?_, ?_, by omega, ?_, ?_, ?_⟩
      · rcases List.mem_pair.mp hoff with rfl | rfl
        · exact ⟨_, hmore, rfl⟩
        · exact ⟨_, hout, rfl⟩
      · rw [hcl.cache]
        exact hl.cache _ _ (hopen.cache ▸ hz)
      · rw [hlast]
        simp
      · exact ⟨.inl rfl, by omega⟩
      · have hbq := hvq.blkIdx
        exact ⟨.inr ⟨by omega, by omega⟩, by omega⟩
      · intro x hx
        constructor
        · intro hmem
          by_cases hc' : ClosedIn o q x
          · rw [(hsame x (hin x hc').2.1 (hin x hc').2.2).flow] at hmem
            have := h.targets x hc' _ hmem
            omega
          · have := hflow x hx hc' _ hmem
            omega
        · rintro (rfl | rfl)
          · rw [hflow_c]
            simp [flowTargets]
          · rw [hflow_l]
            simp [flowTargets]
    · refine .inl (hcl.weak.phiFree (by omega) (hl.phiFree (by omega) ?_))
      rw [hopen.blockAt, if_neg (by omega), if_neg hbB, blockAt_of_length_le hle]
      exact phiFree_nil _

end

/-- What a derivation adds is a region. -/
theorem Emits.region {strict : Prop} {p q : IRProgram} (h : Emits strict p q) (hv : Valid p)
    (ho : Open p) : Region p q := by
  induction h with
  | refl p => exact .straight hv rfl rfl
  | trans e e' ih ih' =>
    obtain ⟨hl, hv', ho'⟩ := e.grows hv ho
    obtain ⟨hl', -, -⟩ := e'.grows hv' ho'
    exact (ih hv ho).trans (ih' hv' ho') hv hv' hl hl'
  | const p v t =>
    exact .straight hv (addConstInt_length hv.fnIdx v t) (addConstInt_currentBlkIdx v t)
  | @plain p i =>
    exact .straight hv (emit_length hv.fnIdx i) rfl
  | @ifThen p q cond _ _ e ih =>
    have hopen := openIf_spec hv cond
    obtain ⟨hl, hvq, hoq⟩ := e.grows hopen.valid hopen.isOpen
    exact region_ifThen hv ho (ih hopen.valid hopen.isOpen) hl hvq hoq
  | @loop p q r name zeroOff bound one hz _ _ e hclose ih =>
    have hopen := openLoop_spec hv name (.instr zeroOff) bound
    obtain ⟨hl, hvq, hoq⟩ := e.grows hopen.valid hopen.isOpen
    exact region_loop hv ho hz (ih hopen.valid hopen.isOpen) hl hvq hoq hclose

/-! ### The function of a query -/

lemma queryProgram_valid : Valid queryProgram where
  offsets := by simp [queryProgram, IRProgram.beginFunction]
  fnIdx := by decide
  blkIdx := by decide
  blockOffsets b off hoff := by
    cases b with
    | zero => cases hoff
    | succ b =>
      rw [blockAt_of_length_le (Nat.le_add_left 1 b)] at hoff
      cases hoff
  cache key off h := by cases h
  requests q h := by cases h

lemma queryProgram_open : Open queryProgram := fun off hoff => by cases hoff

/-- The code of an operator tree behind the constant 0, and the return. -/
lemma run_generateCode {root : Operator} {self : Word} {outputIUs : List IU}
    {ctx ctx' : CompilationContext} (h : generateCode root self outputIUs ctx = .ok ((), ctx')) :
    ∃ ctx₁, root.produce (printConsume self outputIUs) ctx = .ok ((), ctx₁) ∧
      ctx' = ctx₁.withProgram (ctx₁.program.addReturn .null).2 := by
  obtain ⟨⟨⟩, ctx₁, hproduce, hret⟩ := run_bind_ok h
  cases hret
  exact ⟨ctx₁, hproduce, rfl⟩

lemma FlowPath.mem {P : IRProgram} {path : List Nat} {b : Nat} (h : FlowPath P path b) :
    0 ∈ path ∧ b ∈ path := by
  induction h with
  | entry => simp
  | step _ _ ih => exact ⟨List.mem_append_left _ ih.1, by simp⟩

/-- The PHI of a loop in a function whose blocks are closed but for the last, which returns. -/
lemma LoopPhi.wellFormed {P : IRProgram} {b : Nat} {entries : List (IRValueRef × Nat)}
    (h : LoopPhi queryProgram P b entries)
    (hclosed : ∀ x, ClosedIn queryProgram P x ↔ x < P.blocks.length ∧ x ≠ P.currentBlkIdx)
    (hflow : flowSuccessors P P.currentBlkIdx = []) (hzero : 0 ∈ P.blockAt 0)
    (hcache : P.constIntCache.lookup (constKey 0 .int64) = some 0) :
    (∀ entry ∈ entries, entry.1 ≠ .null) ∧ (entries.map Prod.snd).Nodup ∧
      (∀ pred, pred ∈ entries.map Prod.snd ↔ IsPredecessor P b pred) ∧
      ∀ entry ∈ entries, DefinedAtEnd P entry.1 entry.2 := by
  obtain ⟨z, e, next, latch, rfl, hz, hnext, hne, hce, hcl, hpred⟩ := h
  rw [hcache] at hz
  cases hz
  refine ⟨by simp, by simpa using hne, fun pred => ?_, fun entry hentry => ?_⟩
  · simp only [IsPredecessor, List.map_cons, List.map_nil, List.mem_cons, List.not_mem_nil, or_false]
    constructor
    · intro hmem
      have hc : ClosedIn queryProgram P pred := by
        rcases hmem with rfl | rfl
        · exact hce
        · exact hcl
      exact ⟨((hclosed pred).mp hc).1, (hpred pred hc).mpr hmem⟩
    · rintro ⟨hlt, hmem⟩
      refine (hpred pred ((hclosed pred).mpr ⟨hlt, ?_⟩)).mp hmem
      rintro rfl
      rw [hflow] at hmem
      cases hmem
  · rcases List.mem_pair.mp hentry with rfl | rfl
    · exact ⟨0, rfl, fun path hpath => ⟨0, hpath.mem.1, hzero⟩⟩
    · exact ⟨next, rfl, fun path hpath => ⟨latch, hpath.mem.2, hnext⟩⟩

/-- A function of one region, closed by a return. -/
theorem wellFormedFlow_of_region {q : IRProgram} (hv : Valid q) (ho : Open q)
    (hl : Local queryProgram q) (h : Region queryProgram q) (hzero : 0 ∈ q.blockAt 0)
    (hcache : q.constIntCache.lookup (constKey 0 .int64) = some 0) :
    WellFormedFlow (q.addReturn .null).2 := by
  have hP := emit_appended hv (.ret .null)
  have hlP : Local q (q.addReturn .null).2 := emit_local hv rfl
  change Appended (.ret .null) q (q.addReturn .null).2 at hP
  generalize (q.addReturn .null).2 = P at *
  have hret : P.instrAt q.dataSize = some (.ret .null) := by rw [hP.instrAt, if_pos rfl]
  have hlen := hP.length
  have hPcur := hP.current
  have hblocks := hl.blocks
  have hcur := hv.blkIdx
  have hone : queryProgram.blocks.length = 1 := rfl
  have hfirst : queryProgram.currentBlkIdx = 0 := rfl
  have hsame : ∀ b < q.blocks.length, b ≠ q.currentBlkIdx → SameBlock q P b :=
    fun b hb hne => hlP.sameBlock hv hb hne
  have hclosed : ∀ b, ClosedIn queryProgram q b ↔ b < q.blocks.length ∧ b ≠ q.currentBlkIdx := by
    intro b
    simp only [ClosedIn, InRegion]
    omega
  have hclosedP : ∀ b, ClosedIn queryProgram P b ↔ b < P.blocks.length ∧ b ≠ P.currentBlkIdx := by
    intro b
    simp only [ClosedIn, InRegion]
    omega
  have hexit : P.blockAt q.currentBlkIdx = q.blockAt q.currentBlkIdx ++ [q.dataSize] := by
    rw [hP.blockAt, if_pos rfl]
  have hflow : flowSuccessors P P.currentBlkIdx = [] := hPcur ▸ flow_append hexit hret
  have hhead : ∀ b, Head queryProgram P b := by
    intro b
    by_cases hb : b = 0
    · refine .inl (hb ▸ (hl.trans hlP).phiFree (b := 0) (by omega) ?_)
      exact phiFree_nil _
    by_cases hlt : b < q.blocks.length
    · by_cases hbc : b = q.currentBlkIdx
      · exact .inl (hlP.phiFree hlt (hbc ▸ h.current (by omega)))
      · refine Head.mono (h.heads b (by omega) hbc) (hsame b hlt hbc) fun entries hloop =>
          hloop.mono (fun x hx => ?_) hlP.cache (fun x hx => ?_) fun x hx hnot => ?_
        · exact hsame x ((hclosed x).mp hx).1 hx.2
        · rw [hclosedP, hlen, hPcur]
          exact (hclosed x).mp hx
        · rw [hclosedP, hlen, hPcur] at hx
          exact absurd ((hclosed x).mpr hx) hnot
    · refine .inl ?_
      rw [blockAt_of_length_le (by omega)]
      exact phiFree_nil _
  refine ⟨fun b => ?_, fun b => (hhead b).phisFirst, fun b off hoff ty entries hent => ?_⟩
  · by_cases hbc : b = q.currentBlkIdx
    · subst hbc
      refine ended_append hexit fun off hoff i hi => ?_
      obtain ⟨j, hj⟩ := hv.blockOffsets _ off hoff
      rw [hlP.allRecords off j hj] at hi
      exact ho off hoff i (hj.trans hi)
    · by_cases hlt : b < q.blocks.length
      · exact (hsame b hlt hbc).ended (h.ended b ((hclosed b).mpr ⟨hlt, hbc⟩))
      · rw [blockAt_of_length_le (by omega)]
        simp
  · exact ((hhead b).loopPhi hoff hent).wellFormed hclosedP hflow ((hlP.prefixes 0).subset hzero)
      (hlP.cache _ _ hcache)

/-- Whatever the operator tree, the control flow of its function is well formed. -/
theorem generateCode_wellFormedFlow (root : Operator) (self : Word) (outputIUs : List IU)
    {ctx ctx' : CompilationContext} (hctx : ctx.program = queryProgram)
    (h : generateCode root self outputIUs ctx = .ok ((), ctx')) : WellFormedFlow ctx'.program := by
  obtain ⟨ctx₁, hproduce, rfl⟩ := run_generateCode h
  have hv : Valid ctx.program := hctx ▸ queryProgram_valid
  have ho : Open ctx.program := hctx ▸ queryProgram_open
  have e : Emits False _ _ :=
    produce_emits root (print_emits self outputIUs) False.elim hv ho hproduce
  rw [hctx] at e hv ho
  have hz : (queryProgram.addConstInt 0 .int64).2.blockAt 0 = [0] := rfl
  have hc : (queryProgram.addConstInt 0 .int64).2.constIntCache.lookup (constKey 0 .int64) = some 0 :=
    addConstInt_cache 0 .int64
  obtain ⟨hl₀, hv₀, ho₀⟩ := (Emits.const queryProgram 0 .int64 : Emits False _ _).grows hv ho
  obtain ⟨hl, hv₁, ho₁⟩ := e.grows hv₀ ho₀
  exact wellFormedFlow_of_region hv₁ ho₁ (hl₀.trans hl)
    (((Emits.const queryProgram 0 .int64).trans e).region hv ho)
    ((hl.prefixes 0).subset (hz ▸ List.mem_singleton_self 0)) (hl.cache _ _ hc)

/-- Two tables joined under a filter. -/
def sampleJoin : Operator :=
  .select 3 (.hashJoin 2 (.scan ⟨0, ⟨"a", 2, [⟨"x", .integer, 4096, [5, 7]⟩]⟩, 0⟩)
      (.scan ⟨1, ⟨"b", 1, [⟨"y", .integer, 4160, [5]⟩]⟩, 1⟩) [⟨"a.x", .integer, 0⟩]
      [⟨"b.y", .integer, 1⟩] 16384)
    ⟨[.binOp .lt (.colRef ⟨"a", "x"⟩) (.intLit 9)], fun _ => .ok ⟨"a.x", .integer, 0⟩⟩

def sampleHeap : Heap where
  columns := fun addr => if addr = 4096 then [5, 7] else if addr = 4160 then [5] else []
  hashTables _ := {}
  rows _ := []
  cells _ := 0

lemma exists_of_isOk {α : Type} {x : Except CppError (Unit × α)} (h : x.isOk = true) :
    ∃ a, x = .ok ((), a) := by
  cases x with
  | error e => cases h
  | ok r => exact ⟨r.2, rfl⟩

theorem generateCode_wellFormedFlow_sampleJoin : ∃ ctx',
    generateCode sampleJoin 8192 [⟨"b.y", .integer, 1⟩] ⟨queryProgram, sampleHeap, 2, 4⟩ =
      .ok ((), ctx') ∧ WellFormedFlow ctx'.program := by
  obtain ⟨ctx', h⟩ := exists_of_isOk (x := generateCode sampleJoin 8192 [⟨"b.y", .integer, 1⟩]
    ⟨queryProgram, sampleHeap, 2, 4⟩) (by decide +kernel)
  exact ⟨ctx', h, generateCode_wellFormedFlow _ _ _ rfl h⟩

end TidyTuples.Proofs
