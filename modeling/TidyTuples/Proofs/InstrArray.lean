import TidyTuples.Proofs.RecordBytes

/-!
# The instruction array

The records lie behind each other in the array, in the order of their emission, whatever the calls.
So a record is never written again but by `patchPhiEntry`, and a walk from record to record finds
all of them exactly when `addBinary` and `addUnary` got opcodes of their layout.
-/

namespace TidyTuples

open Bytes (Packed Holds)

/-- The builder writes the struct that the opcode stands for, or one of its size. -/
def BuilderCall.Fits : BuilderCall → Prop
  | .addBinary op _ _ _ => op.isBinary = true ∨ op = .rotateRight
  | .addUnary op _ a => op.isUnary = true ∨ op = .branch ∨ op = .ret ∨ op = .phi ∧ a.raw = 0
  | _ => True

namespace ByteProgram

def Step.Fits : Step → Prop
  | .call c => c.Fits
  | .eliminateDeadCode => True

section

variable (addr : RuntimeFn → Word) (p : ByteProgram)

/-- The record of a constant that has not been requested before. -/
def newConstInt (value : Word) (t : IRType) : Option Record :=
  if (p.constIntCache.lookup (IRProgram.constKey value t)).isSome then none
  else some ⟨.constInt, t, .constInt value⟩

/-- A binary operation on two constants stands for the constant it is folded to. -/
def newBinary (op : Opcode) (resultType : IRType) (a b : Raw) : Option Record :=
  match (p.constOperands a b).join.bind fun v => IRProgram.foldConstants op resultType v.1 v.2 with
  | some (result, rtype) =>
    if rtype = .bool then some ⟨.constBool, .bool, .constBool (result != 0)⟩
    else p.newConstInt result rtype
  | none => some ⟨op, resultType, .binary a b⟩

/-- The record that a call is to append, of its arguments. -/
def newRecord : BuilderCall → Option Record
  | .addConstInt value t => p.newConstInt value t
  | .addConstBool value => some ⟨.constBool, .bool, .constBool value⟩
  | .addBinary op resultType a b => p.newBinary op resultType a.raw b.raw
  | .addUnary op resultType a => some ⟨op, resultType, .unary a.raw⟩
  | .addRotateRight val shift =>
    some ⟨.rotateRight, .uint64, .rotateRight val.raw (BitVec.ofNat 32 shift)⟩
  | .addGEP base byteOffset =>
    if byteOffset = 0 then none else some ⟨.gep, .ptr, .gep base.raw byteOffset⟩
  | .addLoad resultType ptr => some ⟨.load, resultType, .unary ptr.raw⟩
  | .addStore ptr value => some ⟨.store, .void, .binary ptr.raw value.raw⟩
  | .addBranch targetBlock => some ⟨.branch, .void, .branch (BitVec.ofNat 32 targetBlock)⟩
  | .addCondBranch cond trueBlock falseBlock =>
    some ⟨.condBranch, .void,
      .condBranch cond.raw (BitVec.ofNat 32 trueBlock) (BitVec.ofNat 32 falseBlock)⟩
  | .addReturn value => some ⟨.ret, .void, .ret value.raw⟩
  | .addPhi resultType incoming =>
    some ⟨.phi, resultType, .phi (incoming.map fun entry => (entry.1.raw, BitVec.ofNat 32 entry.2))⟩
  | .addCall resultType funcPtr args =>
    some ⟨.call, resultType, .call (addr funcPtr) (args.map IRValueRef.raw)⟩
  | _ => none

def Step.newRecord : Step → Option Record
  | .call c => p.newRecord addr c
  | .eliminateDeadCode => none

end

/-- A patch of the PHI at an offset. -/
def Step.Patches (off : Nat) : Step → Prop
  | .call (.patchPhiEntry phiRef _ _ _) => phiRef.raw.toNat = off
  | _ => False

end ByteProgram

namespace Proofs

open ByteProgram

/-- The records lie behind each other from `lo` to `hi`. -/
def Contiguous : Nat → List (Nat × Record) → Nat → Prop
  | lo, [], hi => lo = hi
  | lo, x :: records, hi => x.1 = lo ∧ Contiguous (lo + x.2.body.size) records hi

/-- The array holds the records. -/
structure Recorded (p : ByteProgram) : Prop where
  contiguous : Contiguous 0 p.records p.instrData.length
  holds : ∀ x ∈ p.records, Holds p.instrData x.1 x.2.fields
  own : ∀ x ∈ p.records, x.2.Own

section

variable {pad : Nat → UInt8} {addr : RuntimeFn → Word} {p q : ByteProgram}

/-! ### What a call does -/

/-- What a call does to the array and the records, and what it returns where it appends one. -/
inductive CallOutcome (pad : Nat → UInt8) (addr : RuntimeFn → Word) (p : ByteProgram) (s : Step)
    (out : Option Raw) (q : ByteProgram) : Prop
  | same (hnew : s.newRecord addr p = none) (hdata : q.instrData = p.instrData)
    (hrecords : q.records = p.records) (hfits : s.Fits) (hpatch : ∀ off, ¬ s.Patches off)
  | emitted (r : Record) (hnew : s.newRecord addr p = some r) (hout : out = some p.nextRef)
    (hown : r.Own)
    (hdata : q.instrData =
      Bytes.storeFields (Bytes.grow pad p.instrData r.body.size) p.nextOffset r.fields)
    (hrecords : q.records = p.records ++ [(p.nextOffset, r)])
    (hfits : r.body.size ≤ 2 ^ 32 → (r.Fits ↔ s.Fits)) (hpatch : ∀ off, ¬ s.Patches off)
  | patched (off entryIdx : Nat) (entry : Raw × Raw) (hnew : s.newRecord addr p = none)
    (hphi : ∃ x ∈ p.records, x.1 = off ∧ x.2.body.type = .phi)
    (hdata : q.instrData =
      Bytes.storeFields p.instrData off (entryFields (8 + 8 * entryIdx) [entry]))
    (hrecords : q.records = p.records.map (patchRecord off entryIdx entry))
    (hidx : ∃ n, loadRaw p.instrData (off + 4) = some n ∧ entryIdx < n.toNat)
    (hfits : s.Fits) (hpatch : s.Patches off)

lemma returning_eq {r : Option (Raw × ByteProgram)} {out : Option Raw}
    (h : returning r = some (out, q)) : ∃ ref, r = some (ref, q) ∧ out = some ref := by
  obtain ⟨x, hx, heq⟩ := Option.map_eq_some_iff.mp h
  cases heq
  exact ⟨x.1, hx, rfl⟩

lemma emit_outcome {r : Record} {s : Step} {out : Option Raw}
    (h : returning (p.emit pad r) = some (out, q)) (hnew : s.newRecord addr p = some r) (hown : r.Own)
    (hfits : r.body.size ≤ 2 ^ 32 → (r.Fits ↔ s.Fits)) (hpatch : ∀ off, ¬ s.Patches off) :
    CallOutcome pad addr p s out q := by
  obtain ⟨ref, hemit, hout⟩ := returning_eq h
  unfold emit at hemit
  split_ifs at hemit with hpoint
  cases hemit
  exact .emitted r hnew hout hown rfl rfl hfits hpatch

/-- A record of a struct with its own opcode fits if its list is not too long. -/
lemma fits_of_op {r : Record} {op : Opcode} (h : r.body.type.op = some op)
    (hsize : r.body.size ≤ 2 ^ 32) : r.Fits := by
  obtain ⟨op', t, body⟩ := r
  cases body with
  | binary arg0 arg1 => cases h
  | unary arg0 => cases h
  | phi entries =>
    change 8 + 8 * entries.length ≤ 2 ^ 32 at hsize
    show entries.length < 2 ^ 32
    omega
  | call funcPtr args =>
    change 24 + 4 * args.length ≤ 2 ^ 32 at hsize
    show args.length < 2 ^ 32
    omega
  | _ => trivial

lemma emit_own_outcome {r : Record} {s : Step} {out : Option Raw}
    (h : returning (p.emit pad r) = some (out, q)) (hnew : s.newRecord addr p = some r)
    (hop : r.body.type.op = some r.op) (hfits : s.Fits) (hpatch : ∀ off, ¬ s.Patches off) :
    CallOutcome pad addr p s out q := by
  apply emit_outcome h hnew
  · intro op hop'
    rw [hop] at hop'
    exact Option.some.inj hop'
  · intro hsize
    exact iff_of_true (fits_of_op hop hsize) hfits
  · exact hpatch

lemma addConstInt_outcome {value : Word} {t : IRType} {s : Step} {out : Option Raw}
    (h : returning (p.addConstInt pad value t) = some (out, q))
    (hnew : s.newRecord addr p = p.newConstInt value t) (hfits : s.Fits)
    (hpatch : ∀ off, ¬ s.Patches off) : CallOutcome pad addr p s out q := by
  obtain ⟨ref, hadd, rfl⟩ := returning_eq h
  unfold ByteProgram.addConstInt at hadd
  unfold newConstInt at hnew
  dsimp only at hadd
  cases hlookup : p.constIntCache.lookup (IRProgram.constKey value t) with
  | some off =>
    rw [hlookup] at hadd hnew
    cases hadd
    exact .same hnew rfl rfl hfits hpatch
  | none =>
    rw [hlookup] at hadd hnew
    obtain ⟨⟨ref', q'⟩, hemit, hq⟩ := Option.bind_eq_some_iff.mp hadd
    cases hq
    have hreturn : returning (p.emit pad ⟨.constInt, t, .constInt value⟩) = some (some ref', q') := by
      rw [hemit]
      rfl
    -- the cache is not part of the array
    cases emit_own_outcome hreturn hnew rfl hfits hpatch with
    | same hnew' => cases hnew.symm.trans hnew'
    | emitted r hnew hout hown hdata hrecords hfits =>
      exact .emitted r hnew hout hown hdata hrecords hfits hpatch
    | patched off _ _ _ _ _ _ _ _ hp => exact absurd hp (hpatch off)

/-- Only binary opcodes are folded. -/
lemma foldConstants_isBinary {op : Opcode} {t : IRType} {va vb : Word} {r : Word × IRType}
    (h : IRProgram.foldConstants op t va vb = some r) : op.isBinary = true := by
  cases op <;> first | rfl | cases h

lemma addBinary_outcome {op : Opcode} {t : IRType} {a b : IRValueRef} {out : Option Raw}
    (h : returning (p.addBinary pad op t a.raw b.raw) = some (out, q)) :
    CallOutcome pad addr p (.call (.addBinary op t a b)) out q := by
  obtain ⟨ref, hbinary, rfl⟩ := returning_eq h
  obtain ⟨v, hv, hbinary⟩ := Option.bind_eq_some_iff.mp hbinary
  dsimp only at hbinary
  have hnew : Step.newRecord addr p (.call (.addBinary op t a b)) =
      match v.bind fun v => IRProgram.foldConstants op t v.1 v.2 with
      | some (result, rtype) =>
        if rtype = .bool then some ⟨.constBool, .bool, .constBool (result != 0)⟩
        else p.newConstInt result rtype
      | none => some ⟨op, t, .binary a.raw b.raw⟩ := by
    change p.newBinary op t a.raw b.raw = _
    unfold newBinary
    rw [hv]
    rfl
  cases hfold : v.bind fun v => IRProgram.foldConstants op t v.1 v.2 with
  | some folded =>
    obtain ⟨result, rtype⟩ := folded
    have hfits : op.isBinary = true := by
      obtain ⟨vals, -, hfold⟩ := Option.bind_eq_some_iff.mp hfold
      exact foldConstants_isBinary hfold
    rw [hfold] at hbinary hnew
    dsimp only at hbinary hnew
    split_ifs at hbinary hnew
    · exact emit_own_outcome (by rw [← ByteProgram.addConstBool, hbinary]; rfl) hnew rfl (.inl hfits)
        fun _ => id
    · exact addConstInt_outcome (by rw [hbinary]; rfl) hnew (.inl hfits) fun _ => id
  | none =>
    rw [hfold] at hbinary hnew
    apply emit_outcome (congrArg returning hbinary) hnew
    · exact fun op hop => by cases hop
    · exact fun _ => Iff.rfl
    · exact fun _ => id

lemma patchPhiEntry_outcome {phiRef newValue : IRValueRef} {entryIdx fromBlock : Nat}
    {out : Option Raw}
    (h : p.patchPhiEntry phiRef.raw entryIdx newValue.raw (BitVec.ofNat 32 fromBlock) = some q)
    (hproper : p.Proper (.call (.patchPhiEntry phiRef entryIdx newValue fromBlock))) :
    CallOutcome pad addr p (.call (.patchPhiEntry phiRef entryIdx newValue fromBlock)) out q := by
  obtain ⟨code, -, h⟩ := Option.bind_eq_some_iff.mp h
  obtain ⟨numEntries, hnum, h⟩ := Option.bind_eq_some_iff.mp h
  split_ifs at h with hassert
  obtain rfl := Option.some.inj h
  exact .patched phiRef.raw.toNat entryIdx _ rfl hproper rfl rfl ⟨numEntries, hnum, hassert.2⟩ trivial rfl

lemma apply_outcome {c : BuilderCall} {out : Option Raw} (h : p.apply pad addr c = some (out, q))
    (hproper : p.Proper (.call c)) : CallOutcome pad addr p (.call c) out q := by
  cases c with
  | beginFunction name returnType params =>
    cases h
    exact .same rfl rfl rfl trivial fun _ => id
  | addBlock name =>
    obtain ⟨ref, hadd, rfl⟩ := returning_eq h
    unfold ByteProgram.addBlock at hadd
    split_ifs at hadd
    cases hadd
    exact .same rfl rfl rfl trivial fun _ => id
  | setInsertionPoint fnIdx blkIdx =>
    cases h
    exact .same rfl rfl rfl trivial fun _ => id
  | addConstInt value t => exact addConstInt_outcome h rfl trivial fun _ => id
  | addBinary op t a b => exact addBinary_outcome h
  | addUnary op t a =>
    apply emit_outcome h rfl
    · exact fun op hop => by cases hop
    · exact fun _ => Iff.rfl
    · exact fun _ => id
  | addLoad t ptr =>
    apply emit_outcome h rfl
    · exact fun op hop => by cases hop
    · exact fun _ => iff_of_true (.inl rfl) trivial
    · exact fun _ => id
  | addStore ptr value =>
    apply emit_outcome h rfl
    · exact fun op hop => by cases hop
    · exact fun _ => iff_of_true (.inl rfl) trivial
    · exact fun _ => id
  | addGEP base byteOffset =>
    have hnew : Step.newRecord addr p (.call (.addGEP base byteOffset)) =
      if byteOffset = 0 then none else some ⟨.gep, .ptr, .gep base.raw byteOffset⟩ := rfl
    change returning (p.addGEP pad base.raw byteOffset) = some (out, q) at h
    unfold ByteProgram.addGEP at h
    split_ifs at h hnew
    · cases h
      exact .same hnew rfl rfl trivial fun _ => id
    · exact emit_own_outcome h hnew rfl trivial fun _ => id
  | patchPhiEntry phiRef entryIdx newValue fromBlock =>
    obtain ⟨q', hpatch, hq⟩ := Option.bind_eq_some_iff.mp h
    cases hq
    exact patchPhiEntry_outcome hpatch hproper
  | _ => exact emit_own_outcome h rfl rfl trivial fun _ => id

theorem step_outcome {s : Step} {out : Option Raw} (h : p.stepReturning pad addr s = some (out, q)) :
    CallOutcome pad addr p s out q := by
  unfold ByteProgram.stepReturning at h
  split_ifs at h with hproper
  cases s with
  | call c => exact apply_outcome h hproper
  | eliminateDeadCode =>
    cases h
    exact .same rfl rfl rfl trivial fun _ => id

/-- What a step returns is left out. -/
lemma step_returns {s : Step} (h : p.step pad addr s = some q) :
    ∃ out, p.stepReturning pad addr s = some (out, q) := by
  obtain ⟨⟨out, q'⟩, hstep, rfl⟩ := Option.map_eq_some_iff.mp h
  exact ⟨out, hstep⟩

/-! ### The records -/

lemma Contiguous.append {lo mid : Nat} {records : List (Nat × Record)}
    (h : Contiguous lo records mid) (r : Record) :
    Contiguous lo (records ++ [(mid, r)]) (mid + r.body.size) := by
  induction records generalizing lo with
  | nil => exact ⟨h.symm, congrArg (· + _) h⟩
  | cons x records ih => exact ⟨h.1, ih h.2⟩

/-- A patch leaves the sizes alone. -/
lemma patchRecord_size (off entryIdx : Nat) (entry : Raw × Raw) (x : Nat × Record) :
    (patchRecord off entryIdx entry x).2.body.size = x.2.body.size := by
  obtain ⟨o, op, t, body⟩ := x
  cases body with
  | phi entries =>
    change 8 + 8 * (if o = off then entries.set entryIdx entry else entries).length =
      8 + 8 * entries.length
    split_ifs
    · rw [List.length_set]
    · rfl
  | _ => rfl

lemma patchRecord_fst (off entryIdx : Nat) (entry : Raw × Raw) (x : Nat × Record) :
    (patchRecord off entryIdx entry x).1 = x.1 := by
  obtain ⟨o, op, t, body⟩ := x
  cases body <;> rfl

lemma patchRecord_own {off entryIdx : Nat} {entry : Raw × Raw} {x : Nat × Record} (h : x.2.Own) :
    (patchRecord off entryIdx entry x).2.Own := by
  obtain ⟨o, op, t, body⟩ := x
  cases body <;> exact h

lemma patchRecord_fits (off entryIdx : Nat) (entry : Raw × Raw) (x : Nat × Record) :
    (patchRecord off entryIdx entry x).2.Fits ↔ x.2.Fits := by
  obtain ⟨o, op, t, body⟩ := x
  cases body with
  | phi entries =>
    change (if o = off then entries.set entryIdx entry else entries).length < 2 ^ 32 ↔
      entries.length < 2 ^ 32
    split_ifs
    · rw [List.length_set]
    · rfl
  | _ => rfl

lemma patchRecord_of_ne {off entryIdx : Nat} {entry : Raw × Raw} {x : Nat × Record}
    (h : x.1 ≠ off) : patchRecord off entryIdx entry x = x := by
  obtain ⟨o, op, t, body⟩ := x
  cases body with
  | phi entries =>
    change (o, (⟨op, t, .phi (if o = off then _ else entries)⟩ : Record)) = _
    rw [if_neg h]
  | _ => rfl

lemma Contiguous.map_patchRecord {off entryIdx : Nat} {entry : Raw × Raw} {lo hi : Nat}
    {records : List (Nat × Record)} (h : Contiguous lo records hi) :
    Contiguous lo (records.map (patchRecord off entryIdx entry)) hi := by
  induction records generalizing lo with
  | nil => exact h
  | cons x records ih =>
    refine ⟨?_, ?_⟩
    · rw [patchRecord_fst]
      exact h.1
    · rw [patchRecord_size]
      exact ih h.2

lemma Contiguous.le {lo hi : Nat} {records : List (Nat × Record)} (h : Contiguous lo records hi) :
    lo ≤ hi := by
  induction records generalizing lo with
  | nil => exact Nat.le_of_eq h
  | cons x records ih =>
    have hrest := ih h.2
    omega

lemma Contiguous.mem {lo hi : Nat} {records : List (Nat × Record)} (h : Contiguous lo records hi)
    {x : Nat × Record} (hx : x ∈ records) : lo ≤ x.1 ∧ x.1 + x.2.body.size ≤ hi := by
  induction records generalizing lo with
  | nil => cases hx
  | cons y records ih =>
    have hlo := h.1
    have hhi := Contiguous.le h.2
    rcases List.mem_cons.mp hx with rfl | hx
    · exact ⟨by omega, by omega⟩
    · have hrest := ih h.2 hx
      exact ⟨by omega, hrest.2⟩

lemma Contiguous.disjoint {lo hi : Nat} {records : List (Nat × Record)}
    (h : Contiguous lo records hi) {x y : Nat × Record} (hx : x ∈ records) (hy : y ∈ records) :
    x = y ∨ x.1 + x.2.body.size ≤ y.1 ∨ y.1 + y.2.body.size ≤ x.1 := by
  induction records generalizing lo with
  | nil => cases hx
  | cons z records ih =>
    have hz := h.1
    rcases List.mem_cons.mp hx with rfl | hx' <;> rcases List.mem_cons.mp hy with rfl | hy'
    · exact .inl rfl
    · have hrest := (Contiguous.mem h.2 hy').1
      exact .inr (.inl (by omega))
    · have hrest := (Contiguous.mem h.2 hx').1
      exact .inr (.inr (by omega))
    · exact ih h.2 hx' hy'

/-! ### One call -/

lemma Recorded.in_array (h : Recorded p) {x : Nat × Record} (hx : x ∈ p.records) :
    x.1 + x.2.body.size ≤ p.instrData.length :=
  (Contiguous.mem h.contiguous hx).2

/-- Below 4 GiB the cast keeps the offset. -/
lemma nextOffset_eq (h : p.instrData.length < 2 ^ 32) : p.nextOffset = p.instrData.length :=
  Nat.mod_eq_of_lt h

lemma Recorded.emitted (h : Recorded p) {r : Record} (hown : r.Own)
    (hdata : q.instrData =
      Bytes.storeFields (Bytes.grow pad p.instrData r.body.size) p.nextOffset r.fields)
    (hrecords : q.records = p.records ++ [(p.nextOffset, r)])
    (hsmall : q.instrData.length ≤ 2 ^ 32) : Recorded q := by
  have hpos := body_size_pos r.body
  have hlen : q.instrData.length = p.instrData.length + r.body.size := by
    rw [hdata, Bytes.length_storeFields, Bytes.length_grow]
  rw [nextOffset_eq (by omega)] at hdata hrecords
  have happend : q.instrData = Bytes.append pad p.instrData r.body.size r.fields := hdata
  constructor
  · rw [hrecords, hlen]
    exact h.contiguous.append r
  · intro x hx
    rw [happend]
    rw [hrecords] at hx
    rcases List.mem_append.mp hx with hx | hx
    · exact (h.holds x hx).append pad r.body.size r.fields (fields_packed x.2) (h.in_array hx)
        (fields_packed r)
    · obtain rfl := List.mem_singleton.mp hx
      exact Bytes.append_holds pad p.instrData r.body.size r.fields (fields_packed r)
  · intro x hx
    rw [hrecords] at hx
    rcases List.mem_append.mp hx with hx | hx
    · exact h.own x hx
    · obtain rfl := List.mem_singleton.mp hx
      exact hown

/-- The fields of a patched PHI are those of the new entry, or old ones beside it. -/
lemma mem_entryFields_set {entries : List (Raw × Raw)} {d i : Nat} {entry : Raw × Raw}
    {field : Bytes.Field} (h : field ∈ entryFields d (entries.set i entry)) :
    field ∈ entryFields (d + 8 * i) [entry] ∨ field ∈ entryFields d entries ∧
      (field.distance + field.width ≤ d + 8 * i ∨ d + 8 * i + 8 ≤ field.distance) := by
  induction entries generalizing d i with
  | nil => cases h
  | cons first entries ih =>
    cases i with
    | zero =>
      change field ∈ rawField d entry.1 :: rawField (d + 4) entry.2 :: entryFields (d + 8) entries at h
      rcases List.mem_cons.mp h with rfl | h
      · exact .inl List.mem_cons_self
      rcases List.mem_cons.mp h with rfl | h
      · exact .inl (List.mem_cons_of_mem _ List.mem_cons_self)
      · have hbehind := (entryFields_packed entries (Nat.le_refl (d + 8))).mem h
        exact .inr ⟨List.mem_cons_of_mem _ (List.mem_cons_of_mem _ h), .inr hbehind.1⟩
    | succ i =>
      change field ∈ rawField d first.1 :: rawField (d + 4) first.2 ::
        entryFields (d + 8) (entries.set i entry) at h
      rcases List.mem_cons.mp h with rfl | h
      · refine .inr ⟨List.mem_cons_self, .inl ?_⟩
        change d + 4 ≤ d + 8 * (i + 1)
        omega
      rcases List.mem_cons.mp h with rfl | h
      · refine .inr ⟨List.mem_cons_of_mem _ List.mem_cons_self, .inl ?_⟩
        change d + 4 + 4 ≤ d + 8 * (i + 1)
        omega
      · have hdist : d + 8 + 8 * i = d + 8 * (i + 1) := by omega
        have hrest := ih h
        rw [hdist] at hrest
        rcases hrest with hnew | ⟨hmem, hbeside⟩
        · exact .inl hnew
        · exact .inr ⟨List.mem_cons_of_mem _ (List.mem_cons_of_mem _ hmem), hbeside⟩

/-- The bytes of the entry that is patched. -/
lemma entry_packed (entryIdx : Nat) (entry : Raw × Raw) :
    Packed (entryFields (8 + 8 * entryIdx) [entry]) (8 + 8 * entryIdx) (8 + 8 * entryIdx + 8) :=
  entryFields_packed [entry] (Nat.le_refl _)

lemma holds_patched_phi {data : List UInt8} {off entryIdx : Nat} {op : Opcode} {t : IRType}
    {entries : List (Raw × Raw)} {entry : Raw × Raw}
    (h : Holds data off (Record.fields ⟨op, t, .phi entries⟩))
    (hin : off + (8 + 8 * entryIdx + 8) ≤ data.length) :
    Holds (Bytes.storeFields data off (entryFields (8 + 8 * entryIdx) [entry])) off
      (Record.fields ⟨op, t, .phi (entries.set entryIdx entry)⟩) := by
  apply h.patch (entry_packed entryIdx entry) hin
  intro field hf
  change field ∈ [_, _] ++ _ :: entryFields 8 (entries.set entryIdx entry) at hf
  rcases List.mem_append.mp hf with hf | hf
  · -- the header
    have hheader : field.distance + field.width ≤ 2 := by
      simp only [List.mem_cons, List.not_mem_nil, or_false] at hf
      rcases hf with rfl | rfl <;> exact Nat.le_of_ble_eq_true rfl
    exact .inr ⟨List.mem_append_left _ hf, .inl (by omega)⟩
  rcases List.mem_cons.mp hf with rfl | hf
  · -- the number of entries
    rw [List.length_set]
    refine .inr ⟨List.mem_append_right _ List.mem_cons_self, .inl ?_⟩
    change 4 + 4 ≤ 8 + 8 * entryIdx
    omega
  · rcases mem_entryFields_set hf with hnew | ⟨hmem, hbeside⟩
    · exact .inl hnew
    · exact .inr ⟨List.mem_append_right _ (List.mem_cons_of_mem _ hmem), hbeside⟩

/-- A PHI record and its entry count, as `patchPhiEntry` reads it. -/
lemma Recorded.phi_at (h : Recorded p) {off entryIdx : Nat}
    (hphi : ∃ x ∈ p.records, x.1 = off ∧ x.2.body.type = .phi)
    (hidx : ∃ n, loadRaw p.instrData (off + 4) = some n ∧ entryIdx < n.toNat) :
    ∃ op t entries, (off, (⟨op, t, .phi entries⟩ : Record)) ∈ p.records ∧
      entryIdx < entries.length := by
  obtain ⟨⟨o, op, t, body⟩, hx, ho, htype⟩ := hphi
  obtain rfl : o = off := ho
  obtain ⟨n, hn, hlt⟩ := hidx
  cases body with
  | phi entries =>
    refine ⟨op, t, entries, hx, ?_⟩
    have hnum := loadRaw_of_holds (body_holds (h.holds _ hx)) List.mem_cons_self
    rw [hn, Option.some.injEq] at hnum
    rw [hnum, BitVec.toNat_ofNat] at hlt
    exact Nat.lt_of_lt_of_le hlt (Nat.mod_le _ _)
  | _ => cases htype

lemma Recorded.patched (h : Recorded p) {off entryIdx : Nat} {entry : Raw × Raw}
    (hphi : ∃ x ∈ p.records, x.1 = off ∧ x.2.body.type = .phi)
    (hdata : q.instrData =
      Bytes.storeFields p.instrData off (entryFields (8 + 8 * entryIdx) [entry]))
    (hrecords : q.records = p.records.map (patchRecord off entryIdx entry))
    (hidx : ∃ n, loadRaw p.instrData (off + 4) = some n ∧ entryIdx < n.toNat) : Recorded q := by
  obtain ⟨op, t, entries, hx, hlt⟩ := h.phi_at hphi hidx
  have hin := h.in_array hx
  change off + (8 + 8 * entries.length) ≤ _ at hin
  constructor
  · rw [hrecords, hdata, Bytes.length_storeFields]
    exact Contiguous.map_patchRecord h.contiguous
  · rw [hrecords, hdata]
    intro y hy
    obtain ⟨x, hx', rfl⟩ := List.mem_map.mp hy
    rcases h.contiguous.disjoint hx' hx with rfl | hbeside
    · -- the PHI itself
      change Holds _ off (Record.fields ⟨op, t, .phi (if off = off then _ else entries)⟩)
      rw [if_pos rfl]
      exact holds_patched_phi (h.holds _ hx) (by omega)
    · -- another record lies beside it
      change x.1 + x.2.body.size ≤ off ∨ off + (8 + 8 * entries.length) ≤ x.1 at hbeside
      have hpos := body_size_pos x.2.body
      rw [patchRecord_of_ne (by omega)]
      apply (h.holds x hx').congr (fields_packed x.2)
      · rw [Bytes.length_storeFields]
        exact h.in_array hx'
      · intro a ha ha'
        exact Bytes.getD_storeFields_of_outside (entry_packed entryIdx entry) (by omega)
  · rw [hrecords]
    intro y hy
    obtain ⟨x, hx', rfl⟩ := List.mem_map.mp hy
    exact patchRecord_own (h.own x hx')

/-- A call keeps the records in the array. -/
lemma Recorded.step (h : Recorded p) {s : Step} (hstep : p.step pad addr s = some q)
    (hsmall : q.instrData.length ≤ 2 ^ 32) : Recorded q := by
  obtain ⟨out, hout⟩ := step_returns hstep
  cases step_outcome hout with
  | same hnew hdata hrecords =>
    constructor
    · rw [hdata, hrecords]
      exact h.contiguous
    · rw [hdata, hrecords]
      exact h.holds
    · rw [hrecords]
      exact h.own
  | emitted r hnew hout hown hdata hrecords => exact h.emitted hown hdata hrecords hsmall
  | patched off entryIdx entry hnew hphi hdata hrecords hidx => exact h.patched hphi hdata hrecords hidx

lemma step_length_le {s : Step} (hstep : p.step pad addr s = some q) :
    p.instrData.length ≤ q.instrData.length := by
  obtain ⟨out, hout⟩ := step_returns hstep
  cases step_outcome hout with
  | same hnew hdata => rw [hdata]
  | emitted r hnew hout hown hdata =>
    rw [hdata, Bytes.length_storeFields, Bytes.length_grow]
    exact Nat.le_add_right _ _
  | patched off entryIdx entry hnew hphi hdata => rw [hdata, Bytes.length_storeFields]

/-! ### Any sequence of calls -/

lemma run_cons {s : Step} {steps : List Step} (h : run pad addr (s :: steps) p = some q) :
    ∃ mid, p.step pad addr s = some mid ∧ run pad addr steps mid = some q := by
  unfold run at h
  rw [List.foldlM_cons] at h
  exact Option.bind_eq_some_iff.mp h

lemma run_length_le {steps : List Step} (h : run pad addr steps p = some q) :
    p.instrData.length ≤ q.instrData.length := by
  induction steps generalizing p with
  | nil =>
    obtain rfl := Option.some.inj h
    exact Nat.le_refl _
  | cons s steps ih =>
    obtain ⟨mid, hstep, hrun⟩ := run_cons h
    exact Nat.le_trans (step_length_le hstep) (ih hrun)

lemma Recorded.run (h : Recorded p) {steps : List Step} (hrun : run pad addr steps p = some q)
    (hsmall : q.instrData.length ≤ 2 ^ 32) : Recorded q := by
  induction steps generalizing p with
  | nil =>
    obtain rfl := Option.some.inj hrun
    exact h
  | cons s steps ih =>
    obtain ⟨mid, hstep, hrest⟩ := run_cons hrun
    exact ih (h.step hstep (Nat.le_trans (run_length_le hrest) hsmall)) hrest

lemma recorded_empty : Recorded {} :=
  ⟨rfl, fun _ hx => absurd hx List.not_mem_nil, fun _ hx => absurd hx List.not_mem_nil⟩

/-! ### Walking from record to record -/

lemma walk_start {data : List UInt8} {fuel off : Nat} {offs : List Nat}
    (h : walk data fuel off = some offs) : off = offs.headD data.length := by
  cases fuel with
  | zero =>
    rw [walk] at h
    split_ifs at h with hend
    obtain rfl := Option.some.inj h
    exact hend
  | succ fuel =>
    rw [walk] at h
    split_ifs at h with hend
    · obtain rfl := Option.some.inj h
      exact hend
    · obtain ⟨size, -, h⟩ := Option.bind_eq_some_iff.mp h
      obtain ⟨rest, -, h⟩ := Option.bind_eq_some_iff.mp h
      obtain rfl := Option.some.inj h
      rfl

lemma Contiguous.start {lo hi : Nat} {records : List (Nat × Record)}
    (h : Contiguous lo records hi) : lo = (records.map Prod.fst).headD hi := by
  cases records with
  | nil => exact h
  | cons x records => exact h.1.symm

/-- The walk visits the records exactly when every opcode gives the size of its record. -/
lemma walk_records_iff {data : List UInt8} {fuel lo : Nat} {records : List (Nat × Record)}
    (h : Contiguous lo records data.length) (hfuel : data.length ≤ lo + fuel)
    (hholds : ∀ x ∈ records, Holds data x.1 x.2.fields) (hown : ∀ x ∈ records, x.2.Own) :
    walk data fuel lo = some (records.map Prod.fst) ↔ ∀ x ∈ records, x.2.Fits := by
  induction records generalizing fuel lo with
  | nil =>
    have hend : lo = data.length := h
    apply iff_of_true _ fun _ hx => absurd hx List.not_mem_nil
    cases fuel <;> rw [walk, if_pos hend] <;> rfl
  | cons x records ih =>
    obtain ⟨rfl, hrest⟩ := h
    have hpos := body_size_pos x.2.body
    have hle := Contiguous.le hrest
    have hsize := instrSize_eq_iff (hholds x List.mem_cons_self) (hown x List.mem_cons_self)
    cases fuel with
    | zero => omega
    | succ fuel =>
      have hbehind : walk data fuel (x.1 + x.2.body.size) = some (records.map Prod.fst) ↔
          ∀ y ∈ records, y.2.Fits :=
        ih hrest (by omega) (fun y hy => hholds y (List.mem_cons_of_mem _ hy))
          fun y hy => hown y (List.mem_cons_of_mem _ hy)
      rw [walk, if_neg (by omega), List.forall_mem_cons, ← hsize, ← hbehind]
      constructor
      · intro hwalk
        obtain ⟨size, hinstr, hwalk⟩ := Option.bind_eq_some_iff.mp hwalk
        obtain ⟨offs, hoffs, hwalk⟩ := Option.bind_eq_some_iff.mp hwalk
        have heq : offs = records.map Prod.fst := (List.cons.inj (Option.some.inj hwalk)).2
        -- the next offset is where the next record begins
        have hnext : x.1 + size = x.1 + x.2.body.size := by
          rw [walk_start hoffs, heq, ← Contiguous.start hrest]
        rw [hnext, heq] at hoffs
        rw [Nat.add_left_cancel hnext] at hinstr
        exact ⟨hinstr, hoffs⟩
      · rintro ⟨hinstr, hwalk⟩
        change (do return x.1 :: (← walk data fuel (x.1 + (← instrSize data x.1)))) = _
        rw [hinstr, Option.bind_eq_bind, Option.bind_some, hwalk]
        rfl

lemma step_fits_iff {s : Step} (hstep : p.step pad addr s = some q)
    (hsmall : q.instrData.length ≤ 2 ^ 32) :
    (∀ x ∈ q.records, x.2.Fits) ↔ (∀ x ∈ p.records, x.2.Fits) ∧ s.Fits := by
  obtain ⟨out, hout⟩ := step_returns hstep
  cases step_outcome hout with
  | same hnew hdata hrecords hfits => rw [hrecords, and_iff_left hfits]
  | emitted r hnew hout hown hdata hrecords hfits =>
    have hlen : q.instrData.length = p.instrData.length + r.body.size := by
      rw [hdata, Bytes.length_storeFields, Bytes.length_grow]
    rw [hrecords, List.forall_mem_append, List.forall_mem_singleton, hfits (by omega)]
  | patched off entryIdx entry hnew hphi hdata hrecords hidx hfits =>
    rw [hrecords, and_iff_left hfits, List.forall_mem_map]
    exact forall₂_congr fun x _ => patchRecord_fits off entryIdx entry x

lemma run_fits_iff {steps : List Step} (hrun : run pad addr steps p = some q)
    (hsmall : q.instrData.length ≤ 2 ^ 32) :
    (∀ x ∈ q.records, x.2.Fits) ↔ (∀ x ∈ p.records, x.2.Fits) ∧ ∀ s ∈ steps, s.Fits := by
  induction steps generalizing p with
  | nil =>
    obtain rfl := Option.some.inj hrun
    exact (and_iff_left fun _ hs => absurd hs List.not_mem_nil).symm
  | cons s steps ih =>
    obtain ⟨mid, hstep, hrest⟩ := run_cons hrun
    have hmid := step_fits_iff hstep (Nat.le_trans (run_length_le hrest) hsmall)
    rw [ih hrest, hmid, List.forall_mem_cons, and_assoc]

/-- The array is self-describing exactly when `addBinary` and `addUnary` are called with opcodes of
their layout. -/
theorem walk_iff {steps : List Step} (hrun : run pad addr steps {} = some p)
    (hsmall : p.instrData.length ≤ 2 ^ 32) :
    walk p.instrData p.instrData.length 0 = some (p.records.map Prod.fst) ↔
      ∀ s ∈ steps, s.Fits := by
  have hrecorded := recorded_empty.run hrun hsmall
  rw [walk_records_iff hrecorded.contiguous (by omega) hrecorded.holds hrecorded.own,
    run_fits_iff hrun hsmall]
  exact and_iff_right fun _ hx => absurd hx List.not_mem_nil

/-- A loop header whose PHI is patched. -/
def phiSteps : List Step :=
  [.call (.beginFunction "f" .void [("n", .int64)]), .call (.addPhi .int64 [(.param 0 0, 0)]),
    .call (.patchPhiEntry (.instr 0) 0 (.instr 0) 0), .call (.addReturn .null)]

lemma phiSteps_isSome : (run (fun _ => 0) (fun _ => 0) phiSteps {}).isSome = true := by
  decide +kernel

def phiProgram : ByteProgram := (run (fun _ => 0) (fun _ => 0) phiSteps {}).get phiSteps_isSome

lemma run_phiSteps : run (fun _ => 0) (fun _ => 0) phiSteps {} = some phiProgram :=
  (Option.some_get phiSteps_isSome).symm

theorem phiProgram_walk : walk phiProgram.instrData phiProgram.instrData.length 0 =
    some (phiProgram.records.map Prod.fst) := by
  apply (walk_iff run_phiSteps (by decide +kernel)).mpr
  intro s hs
  simp only [phiSteps, List.mem_cons, List.not_mem_nil, or_false] at hs
  rcases hs with rfl | rfl | rfl | rfl <;> trivial

/-- `demoHashGeneration` up to the first `crc32` of `hashValues`. -/
def demoHashGeneration : List Step :=
  [.call (.beginFunction "hash_example" .uint64 [("int1", .int64), ("int2", .int64)]),
    .call (.addConstInt 6763793487589347598#64 .uint64),
    .call (.addConstInt 4593845798347983834#64 .uint64),
    .call (.addBinary .zExt .uint64 (.param 0 0) (.param 0 0)),
    .call (.addUnary .zExt .uint64 (.param 0 0)),
    .call (.addBinary .crc32 .uint64 (.instr 0) (.instr 44))]

/-- The two-operand `ZExt` of `hashValues` is twelve bytes long and walked over as eight. -/
theorem demoHashGeneration_walk :
    ((run (fun _ => 0) (fun _ => 0) demoHashGeneration {}).map fun p =>
      (p.records.map Prod.fst, walk p.instrData p.instrData.length 0)) =
    some ([0, 16, 32, 44, 52], none) := by
  decide +kernel

/-! ### Reading a record back -/

/-- A call that does not patch a record keeps it. -/
lemma step_records {s : Step} (hstep : p.step pad addr s = some q) {x : Nat × Record}
    (hx : x ∈ p.records) (hpatch : ¬ s.Patches x.1) : x ∈ q.records := by
  obtain ⟨out, hout⟩ := step_returns hstep
  cases step_outcome hout with
  | same hnew hdata hrecords =>
    rw [hrecords]
    exact hx
  | emitted r hnew hout hown hdata hrecords =>
    rw [hrecords]
    exact List.mem_append_left _ hx
  | patched off entryIdx entry hnew hphi hdata hrecords hidx hfits hoff =>
    rw [hrecords]
    have hne : x.1 ≠ off := by
      rintro rfl
      exact hpatch hoff
    exact List.mem_map.mpr ⟨x, hx, patchRecord_of_ne hne⟩

lemma run_records {steps : List Step} (hrun : run pad addr steps p = some q) {x : Nat × Record}
    (hx : x ∈ p.records) (hpatch : ∀ s ∈ steps, ¬ s.Patches x.1) : x ∈ q.records := by
  induction steps generalizing p with
  | nil =>
    obtain rfl := Option.some.inj hrun
    exact hx
  | cons s steps ih =>
    obtain ⟨mid, hstep, hrest⟩ := run_cons hrun
    obtain ⟨hfirst, hothers⟩ := List.forall_mem_cons.mp hpatch
    exact ih hrest (step_records hstep hx hfirst) hothers

/-- A record in the array is read back with its struct. -/
lemma Recorded.loadRecord_eq (h : Recorded p) (hsmall : p.instrData.length ≤ 2 ^ 32)
    {x : Nat × Record} (hx : x ∈ p.records) :
    loadRecord p.instrData x.1 x.2.body.type = some x.2 := by
  have hin := h.in_array hx
  apply loadRecord_of_holds (h.holds x hx)
  cases hbody : x.2.body with
  | phi entries =>
    rw [hbody] at hin
    change x.1 + (8 + 8 * entries.length) ≤ _ at hin
    show entries.length < 2 ^ 32
    omega
  | call funcPtr args =>
    rw [hbody] at hin
    change x.1 + (24 + 4 * args.length) ≤ _ at hin
    show args.length < 2 ^ 32
    omega
  | _ => trivial

/-- `patchPhiEntry` on the entry of a PHI: the assertions hold. -/
lemma Recorded.patchPhiEntry_eq (h : Recorded p) (hsmall : p.instrData.length < 0xFF000000)
    {phiRef : Raw} {op : Opcode} {t : IRType} {entries : List (Raw × Raw)} {entryIdx : Nat}
    (hx : (phiRef.toNat, (⟨op, t, .phi entries⟩ : Record)) ∈ p.records)
    (hlt : entryIdx < entries.length) (newValue fromBlock : Raw) :
    p.patchPhiEntry phiRef entryIdx newValue fromBlock = some { p with
      instrData := Bytes.storeFields p.instrData phiRef.toNat
        (entryFields (8 + 8 * entryIdx) [(newValue, fromBlock)])
      records := p.records.map (patchRecord phiRef.toNat entryIdx (newValue, fromBlock)) } := by
  have hin := h.in_array hx
  change _ + (8 + 8 * entries.length) ≤ _ at hin
  have hop : op = .phi := h.own _ hx _ rfl
  have hcode := load_op (h.holds _ hx)
  have hnum := loadRaw_of_holds (body_holds (h.holds _ hx)) List.mem_cons_self
  have hcount : (BitVec.ofNat 32 entries.length).toNat = entries.length := by
    rw [BitVec.toNat_ofNat, Nat.mod_eq_of_lt (by omega)]
  unfold ByteProgram.patchPhiEntry
  dsimp only at hcode hnum ⊢
  rw [hcode, Option.bind_eq_bind, Option.bind_some, hnum, Option.bind_eq_bind, Option.bind_some,
    hcount, hop, if_pos ⟨rfl, hlt⟩]
  rfl

/-- A patch changes one entry of one PHI and nothing else. -/
theorem Recorded.patch_entry (h : Recorded p) (hsmall : p.instrData.length < 0xFF000000)
    {phiRef : Raw} {op : Opcode} {t : IRType} {entries : List (Raw × Raw)} {entryIdx : Nat}
    (hx : (phiRef.toNat, (⟨op, t, .phi entries⟩ : Record)) ∈ p.records)
    (hlt : entryIdx < entries.length) (newValue fromBlock : Raw) :
    ∃ p', p.patchPhiEntry phiRef entryIdx newValue fromBlock = some p' ∧
      loadRecord p'.instrData phiRef.toNat .phi =
        some ⟨op, t, .phi (entries.set entryIdx (newValue, fromBlock))⟩ ∧
      (∀ x ∈ p.records, x.1 ≠ phiRef.toNat →
        loadRecord p'.instrData x.1 x.2.body.type = some x.2) ∧
      p'.functions = p.functions ∧ p'.instrData.length = p.instrData.length ∧
      ∀ a, a < phiRef.toNat + (8 + 8 * entryIdx) ∨ phiRef.toNat + (8 + 8 * entryIdx + 8) ≤ a →
        p'.instrData.getD a 0 = p.instrData.getD a 0 := by
  have hpatch := h.patchPhiEntry_eq hsmall hx hlt newValue fromBlock
  have hin := h.in_array hx
  change _ + (8 + 8 * entries.length) ≤ _ at hin
  refine ⟨_, hpatch, ?_⟩
  generalize hp' : ByteProgram.mk _ _ _ _ _ _ = p'
  have hdata : p'.instrData = Bytes.storeFields p.instrData phiRef.toNat
      (entryFields (8 + 8 * entryIdx) [(newValue, fromBlock)]) := by rw [← hp']
  have hrecords : p'.records =
      p.records.map (patchRecord phiRef.toNat entryIdx (newValue, fromBlock)) := by rw [← hp']
  have hlen : p'.instrData.length = p.instrData.length := by
    rw [hdata, Bytes.length_storeFields]
  have hnum : loadRaw p.instrData (phiRef.toNat + 4) = some (BitVec.ofNat 32 entries.length) :=
    loadRaw_of_holds (body_holds (h.holds _ hx)) List.mem_cons_self
  have hrecorded : Recorded p' := by
    apply h.patched ⟨_, hx, rfl, rfl⟩ hdata hrecords ⟨_, hnum, ?_⟩
    rw [BitVec.toNat_ofNat, Nat.mod_eq_of_lt (by omega)]
    exact hlt
  refine ⟨?_, ?_, by rw [← hp'], hlen, ?_⟩
  · -- the PHI
    have hmem : (phiRef.toNat,
        (⟨op, t, .phi (entries.set entryIdx (newValue, fromBlock))⟩ : Record)) ∈ p'.records := by
      rw [hrecords]
      apply List.mem_map.mpr
      refine ⟨_, hx, ?_⟩
      rw [patchRecord, if_pos rfl]
    exact hrecorded.loadRecord_eq (by omega) hmem
  · -- the other records
    intro x hx' hne
    have hmem : x ∈ p'.records := by
      rw [hrecords]
      exact List.mem_map.mpr ⟨x, hx', patchRecord_of_ne hne⟩
    exact hrecorded.loadRecord_eq (by omega) hmem
  · intro a ha
    rw [hdata]
    exact Bytes.getD_storeFields_of_outside (entry_packed entryIdx _) ha

/-- A PHI stays one with as many entries. -/
lemma run_phi {steps : List Step} (hrun : run pad addr steps p = some q) {off : Nat} {op : Opcode}
    {t : IRType} {entries : List (Raw × Raw)}
    (hx : (off, (⟨op, t, .phi entries⟩ : Record)) ∈ p.records) : ∃ entries',
      entries'.length = entries.length ∧ (off, (⟨op, t, .phi entries'⟩ : Record)) ∈ q.records := by
  induction steps generalizing p entries with
  | nil =>
    obtain rfl := Option.some.inj hrun
    exact ⟨entries, rfl, hx⟩
  | cons s steps ih =>
    obtain ⟨mid, hstep, hrest⟩ := run_cons hrun
    obtain ⟨out, hout⟩ := step_returns hstep
    cases step_outcome hout with
    | same hnew hdata hrecords => exact ih hrest (hrecords ▸ hx)
    | emitted r hnew hout hown hdata hrecords =>
      exact ih hrest (hrecords ▸ List.mem_append_left _ hx)
    | patched off' entryIdx entry hnew hphi hdata hrecords =>
      have hmem := List.mem_map_of_mem (f := patchRecord off' entryIdx entry) hx
      rw [← hrecords] at hmem
      obtain ⟨entries', hlen, hin⟩ := ih hrest hmem
      refine ⟨entries', hlen.trans ?_, hin⟩
      split_ifs
      · exact List.length_set ..
      · rfl

/-- Records are immutable: what a call appends lies behind all earlier records and in front of all
later ones, it is read back at the returned offset as the record of the call's arguments, and still so
after any calls that do not patch it; a patch changes one entry of one PHI. -/
theorem records_immutable {before later : List Step} {c : BuilderCall} {out : Option Raw}
    {mid : ByteProgram} (hbefore : run pad addr before {} = some p)
    (hcall : p.stepReturning pad addr (.call c) = some (out, mid))
    (hlater : run pad addr later mid = some q) (hsmall : q.instrData.length < 0xFF000000) :
    match p.newRecord addr c with
    | none => (∀ off, ¬ Step.Patches off (.call c)) → mid.instrData = p.instrData
    | some r => ∃ ref, out = some ref ∧ ref.toNat = p.instrData.length ∧
      ref.toNat + r.body.size = mid.instrData.length ∧
      loadRecord mid.instrData ref.toNat r.body.type = some r ∧
      ((∀ s ∈ later, ¬ s.Patches ref.toNat) →
        loadRecord q.instrData ref.toNat r.body.type = some r) ∧
      (∀ c' r' out' q', q.newRecord addr c' = some r' →
        q.stepReturning pad addr (.call c') = some (out', q') →
          ∃ ref', out' = some ref' ∧ ref.toNat + r.body.size ≤ ref'.toNat) ∧
      ∀ entries, r.body = .phi entries → ∃ entries', entries'.length = entries.length ∧
        loadRecord q.instrData ref.toNat .phi = some ⟨r.op, r.resultType, .phi entries'⟩ ∧
        ∀ entryIdx < entries.length, ∀ newValue fromBlock, ∃ q',
          q.patchPhiEntry ref entryIdx newValue fromBlock = some q' ∧
          loadRecord q'.instrData ref.toNat .phi =
            some ⟨r.op, r.resultType, .phi (entries'.set entryIdx (newValue, fromBlock))⟩ ∧
          q'.functions = q.functions ∧ q'.instrData.length = q.instrData.length ∧
          ∀ a, a < ref.toNat + (8 + 8 * entryIdx) ∨ ref.toNat + (8 + 8 * entryIdx + 8) ≤ a →
            q'.instrData.getD a 0 = q.instrData.getD a 0 := by
  have hstep : p.step pad addr (.call c) = some mid := by
    unfold ByteProgram.step
    rw [hcall]
    rfl
  have hle := run_length_le hlater
  have hle' := step_length_le hstep
  have hp := recorded_empty.run hbefore (by omega)
  have hmid := hp.step hstep (by omega)
  have hq := hmid.run hlater (by omega)
  cases step_outcome hcall with
  | same hnew hdata =>
    rw [show p.newRecord addr c = none from hnew]
    exact fun _ => hdata
  | patched off entryIdx entry hnew hphi hdata hrecords hidx hfits hpatch =>
    rw [show p.newRecord addr c = none from hnew]
    exact fun hnot => absurd hpatch (hnot off)
  | emitted r hnew hout hown hdata hrecords =>
    rw [show p.newRecord addr c = some r from hnew]
    have hoffset : p.nextRef.toNat = p.instrData.length := nextOffset_eq (by omega)
    have hlen : mid.instrData.length = p.instrData.length + r.body.size := by
      rw [hdata, Bytes.length_storeFields, Bytes.length_grow]
    have hx : (p.nextRef.toNat, r) ∈ mid.records := by
      rw [hrecords]
      exact List.mem_append_right _ List.mem_cons_self
    refine ⟨p.nextRef, hout, hoffset, by omega, hmid.loadRecord_eq (by omega) hx, fun hpatch => ?_, ?_, ?_⟩
    · exact hq.loadRecord_eq (by omega) (run_records hlater hx hpatch)
    · intro c' r' out' q' hnew' hcall'
      cases step_outcome hcall' with
      | same hnone => cases hnone.symm.trans hnew'
      | patched _ _ _ hnone => cases hnone.symm.trans hnew'
      | emitted r'' _ hout' =>
        have hnext : q.nextRef.toNat = q.instrData.length := nextOffset_eq (by omega)
        exact ⟨q.nextRef, hout', by omega⟩
    · intro entries hbody
      obtain ⟨op, t, body⟩ := r
      dsimp only at hbody
      subst hbody
      obtain ⟨entries', hlength, hin⟩ := run_phi hlater hx
      refine ⟨entries', hlength, hq.loadRecord_eq (by omega) hin, fun entryIdx hlt newValue fromBlock => ?_⟩
      obtain ⟨q', hpatch, hread, -, hrest⟩ :=
        hq.patch_entry hsmall hin (hlength ▸ hlt) newValue fromBlock
      exact ⟨q', hpatch, hread, hrest⟩

/-- A loop header: a PHI, and a sum that is patched into it. -/
def headerSteps : List Step :=
  [.call (.beginFunction "f" .void [("n", .int64)]), .call (.addPhi .int64 [(.param 0 0, 0)])]

def sumCall : BuilderCall := .addBinary .add .int64 (.instr 0) (.param 0 0)

def patchSteps : List Step :=
  [.call (.patchPhiEntry (.instr 0) 0 (.instr 16) 0), .call (.addReturn .null), .eliminateDeadCode]

/-- The sum is read back after the PHI was patched, another record appended and dead code removed. -/
theorem records_immutable_sum : ∃ p mid q, run (fun _ => 0) (fun _ => 0) headerSteps {} = some p ∧
    p.stepReturning (fun _ => 0) (fun _ => 0) (.call sumCall) = some (some 16#32, mid) ∧
    run (fun _ => 0) (fun _ => 0) patchSteps mid = some q ∧
    loadRecord q.instrData 16 .binary =
      some ⟨.add, .int64, .binary 0#32 (IRValueRef.raw (.param 0 0))⟩ := by
  have hruns : ((run (fun _ => 0) (fun _ => 0) headerSteps {}).bind fun p =>
      (p.stepReturning (fun _ => 0) (fun _ => 0) (.call sumCall)).bind fun r =>
        (run (fun _ => 0) (fun _ => 0) patchSteps r.2).map fun q =>
          (p.newRecord (fun _ => 0) sumCall, p.instrData.length, decide (q.instrData.length < 0xFF000000))) =
      some (some ⟨.add, .int64, .binary 0#32 (IRValueRef.raw (.param 0 0))⟩, 16, true) := by
    decide +kernel
  obtain ⟨p, hp, hruns⟩ := Option.bind_eq_some_iff.mp hruns
  obtain ⟨⟨out, mid⟩, hmid, hruns⟩ := Option.bind_eq_some_iff.mp hruns
  obtain ⟨q, hq, hruns⟩ := Option.map_eq_some_iff.mp hruns
  obtain ⟨hnew, hlen, hsmall⟩ : _ ∧ _ ∧ _ := by simpa only [Prod.mk.injEq] using hruns
  have hkept := records_immutable hp hmid hq (of_decide_eq_true hsmall)
  rw [hnew] at hkept
  obtain ⟨ref, rfl, hoffset, -, -, hread, -⟩ := hkept
  have href : ref = 16#32 := BitVec.eq_of_toNat_eq (hoffset.trans hlen)
  subst href
  refine ⟨p, mid, q, hp, hmid, hq, hread fun s hs => ?_⟩
  simp only [patchSteps, List.mem_cons, List.not_mem_nil, or_false] at hs
  rcases hs with rfl | rfl | rfl
  · exact Nat.zero_ne_add_one 15
  · exact id
  · exact id

end

end Proofs

end TidyTuples
