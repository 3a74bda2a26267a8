import TidyTuples.Ir.ByteProgram

/-!
# Records in the instruction array

A record whose fields are in the array is read back as it was built, and its opcode gives its size
unless the builder was handed an opcode of another layout.
-/

namespace TidyTuples

open Bytes (load Packed Holds Field)

/-- The numbers of PHI entries and of arguments fit their fields. -/
def Body.Counted : Body → Prop
  | .phi entries => entries.length < 2 ^ 32
  | .call _ args => args.length < 2 ^ 32
  | _ => True

/-- The opcode of a struct that is written with one opcode only. -/
def RecordType.op : RecordType → Option Opcode
  | constInt => some .constInt
  | constBool => some .constBool
  | binary => none
  | unary => none
  | rotateRight => some .rotateRight
  | gep => some .gep
  | branch => some .branch
  | condBranch => some .condBranch
  | ret => some .ret
  | phi => some .phi
  | call => some .call

/-- A struct of one opcode has it. -/
def Record.Own (r : Record) : Prop := ∀ op, r.body.type.op = some op → r.op = op

/-- The struct that was written is as large as `instrSize` takes it to be. -/
def Record.Fits (r : Record) : Prop :=
  match r.body with
  | .binary _ _ => r.op.isBinary = true ∨ r.op = .rotateRight
  | .unary arg0 => r.op.isUnary = true ∨ r.op = .branch ∨ r.op = .ret ∨ r.op = .phi ∧ arg0 = 0
  | .phi entries => entries.length < 2 ^ 32
  | .call _ args => args.length < 2 ^ 32
  | _ => True

namespace Proofs

section

variable {data : List UInt8} {off : Nat} {r : Record}

/-! ### Layout -/

lemma entryFields_packed (entries : List (Raw × Raw)) {lo d : Nat} (h : lo ≤ d) :
    Packed (entryFields d entries) lo (d + 8 * entries.length) := by
  induction entries generalizing lo d with
  | nil => exact h
  | cons entry entries ih =>
    refine ⟨h, Nat.le_refl _, ?_⟩
    have hrest : Packed (entryFields (d + 8) entries) (d + 8) (d + 8 + 8 * entries.length) :=
      ih (Nat.le_refl _)
    rw [List.length_cons]
    have hend : d + 8 + 8 * entries.length = d + 8 * (entries.length + 1) := by omega
    rw [hend] at hrest
    exact hrest

lemma argFields_packed (args : List Raw) {lo d : Nat} (h : lo ≤ d) :
    Packed (argFields d args) lo (d + 4 * args.length) := by
  induction args generalizing lo d with
  | nil => exact h
  | cons arg args ih =>
    refine ⟨h, ?_⟩
    have hrest : Packed (argFields (d + 4) args) (d + 4) (d + 4 + 4 * args.length) :=
      ih (Nat.le_refl _)
    rw [List.length_cons]
    have hend : d + 4 + 4 * args.length = d + 4 * (args.length + 1) := by omega
    rw [hend] at hrest
    exact hrest

lemma bodyFields_packed (body : Body) : Packed (Record.bodyFields body) 2 body.size := by
  cases body with
  | phi entries => exact ⟨Nat.le_add_left 2 2, entryFields_packed entries (Nat.le_refl 8)⟩
  | call funcPtr args =>
    exact ⟨Nat.le_add_left 2 6, Nat.le_refl 16, argFields_packed args (Nat.le_add_left 20 4)⟩
  | _ => simp [Record.bodyFields, Packed, rawField, wordField, Body.size]

lemma fields_packed (r : Record) : Packed r.fields 0 r.body.size :=
  ⟨Nat.le_refl _, Nat.le_refl _, bodyFields_packed r.body⟩

lemma body_size_pos (body : Body) : 3 ≤ body.size := by
  cases body <;> simp only [Body.size] <;> omega

/-! ### Reading back -/

lemma loadRaw_of_holds {fields : List Field} (h : Holds data off fields) {d : Nat} {v : Raw}
    (hmem : rawField d v ∈ fields) : loadRaw data (off + d) = some v := by
  have hload : load data (off + d) 4 = some (v.toNat % 256 ^ 4) := h _ hmem
  unfold loadRaw
  rw [hload, Option.map_some]
  congr 1
  apply BitVec.eq_of_toNat_eq
  have hlt := v.isLt
  rw [BitVec.toNat_ofNat]
  omega

lemma loadWord_of_holds {fields : List Field} (h : Holds data off fields) {d : Nat} {v : Word}
    (hmem : wordField d v ∈ fields) : loadWord data (off + d) = some v := by
  have hload : load data (off + d) 8 = some (v.toNat % 256 ^ 8) := h _ hmem
  unfold loadWord
  rw [hload, Option.map_some]
  congr 1
  apply BitVec.eq_of_toNat_eq
  have hlt := v.isLt
  rw [BitVec.toNat_ofNat]
  omega

lemma loadEntries_of_holds {entries : List (Raw × Raw)} {d : Nat}
    (h : Holds data off (entryFields d entries)) :
    loadEntries data (off + d) entries.length = some entries := by
  induction entries generalizing d with
  | nil => rfl
  | cons entry entries ih =>
    obtain ⟨value, fromBlock⟩ := entry
    have hvalue : loadRaw data (off + d) = some value := loadRaw_of_holds h List.mem_cons_self
    have hblock : loadRaw data (off + (d + 4)) = some fromBlock :=
      loadRaw_of_holds h (List.mem_cons_of_mem _ List.mem_cons_self)
    have hrest : loadEntries data (off + (d + 8)) entries.length = some entries :=
      ih fun field hf => h field (List.mem_cons_of_mem _ (List.mem_cons_of_mem _ hf))
    rw [List.length_cons, loadEntries, Nat.add_assoc, Nat.add_assoc, hvalue, hblock, hrest]
    rfl

lemma loadArgs_of_holds {args : List Raw} {d : Nat} (h : Holds data off (argFields d args)) :
    loadArgs data (off + d) args.length = some args := by
  induction args generalizing d with
  | nil => rfl
  | cons arg args ih =>
    have harg : loadRaw data (off + d) = some arg := loadRaw_of_holds h List.mem_cons_self
    have hrest : loadArgs data (off + (d + 4)) args.length = some args :=
      ih fun field hf => h field (List.mem_cons_of_mem _ hf)
    rw [List.length_cons, loadArgs, Nat.add_assoc, harg, hrest]
    rfl

lemma load_op (h : Holds data off r.fields) : load data off 1 = some r.op.code := by
  have hload : load data off 1 = some (r.op.code % 256 ^ 1) := h ⟨0, 1, r.op.code⟩ List.mem_cons_self
  rw [hload, pow_one, Nat.mod_eq_of_lt r.op.code_lt]

lemma loadOp_of_holds (h : Holds data off r.fields) : loadOp data off = some r.op := by
  rw [loadOp, load_op h, Option.bind_some, Opcode.ofCode_code]

lemma load_type (h : Holds data off r.fields) :
    (load data (off + 1) 1).bind IRType.ofCode = some r.resultType := by
  have hload : load data (off + 1) 1 = some (r.resultType.code % 256 ^ 1) :=
    h ⟨1, 1, r.resultType.code⟩ (List.mem_cons_of_mem _ List.mem_cons_self)
  rw [hload, pow_one, Nat.mod_eq_of_lt r.resultType.code_lt, Option.bind_some, IRType.ofCode_code]

lemma body_holds (h : Holds data off r.fields) : Holds data off (Record.bodyFields r.body) :=
  fun field hf => h field (List.mem_append_right _ hf)

lemma loadBody_of_holds {body : Body} (h : Holds data off (Record.bodyFields body))
    (hcounted : body.Counted) : loadBody data off body.type = some body := by
  cases body with
  | constInt value =>
    rw [Body.type, loadBody, loadWord_of_holds h List.mem_cons_self]
    rfl
  | constBool value =>
    have hload := h ⟨2, 1, if value then 1 else 0⟩ List.mem_cons_self
    rw [Body.type, loadBody, hload]
    cases value <;> rfl
  | binary arg0 arg1 =>
    rw [Body.type, loadBody, loadRaw_of_holds h List.mem_cons_self,
      loadRaw_of_holds h (List.mem_cons_of_mem _ List.mem_cons_self)]
    rfl
  | unary arg0 =>
    rw [Body.type, loadBody, loadRaw_of_holds h List.mem_cons_self]
    rfl
  | rotateRight arg0 shift =>
    rw [Body.type, loadBody, loadRaw_of_holds h List.mem_cons_self,
      loadRaw_of_holds h (List.mem_cons_of_mem _ List.mem_cons_self)]
    rfl
  | gep base byteOffset =>
    rw [Body.type, loadBody, loadRaw_of_holds h List.mem_cons_self,
      loadWord_of_holds h (List.mem_cons_of_mem _ List.mem_cons_self)]
    rfl
  | branch targetBlock =>
    rw [Body.type, loadBody, loadRaw_of_holds h List.mem_cons_self]
    rfl
  | condBranch cond trueBlock falseBlock =>
    rw [Body.type, loadBody, loadRaw_of_holds h List.mem_cons_self,
      loadRaw_of_holds h (List.mem_cons_of_mem _ List.mem_cons_self),
      loadRaw_of_holds h (List.mem_cons_of_mem _ (List.mem_cons_of_mem _ List.mem_cons_self))]
    rfl
  | ret value =>
    rw [Body.type, loadBody, loadRaw_of_holds h List.mem_cons_self]
    rfl
  | phi entries =>
    have hnum := loadRaw_of_holds h List.mem_cons_self
    have hentries := loadEntries_of_holds fun field hf => h field (List.mem_cons_of_mem _ hf)
    have hlen : (BitVec.ofNat 32 entries.length).toNat = entries.length := by
      rw [BitVec.toNat_ofNat, Nat.mod_eq_of_lt hcounted]
    rw [Body.type, loadBody, hnum]
    change (do return Body.phi (← loadEntries data (off + 8) _)) = _
    rw [hlen, hentries]
    rfl
  | call funcPtr args =>
    have hptr := loadWord_of_holds h List.mem_cons_self
    have hnum := loadRaw_of_holds h (List.mem_cons_of_mem _ List.mem_cons_self)
    have hargs := loadArgs_of_holds fun field hf =>
      h field (List.mem_cons_of_mem _ (List.mem_cons_of_mem _ hf))
    have hlen : (BitVec.ofNat 32 args.length).toNat = args.length := by
      rw [BitVec.toNat_ofNat, Nat.mod_eq_of_lt hcounted]
    rw [Body.type, loadBody, hptr, hnum]
    change (do return Body.call funcPtr (← loadArgs data (off + 24) _)) = _
    rw [hlen, hargs]
    rfl

/-- A record is read back as it was built. -/
theorem loadRecord_of_holds (h : Holds data off r.fields) (hcounted : r.body.Counted) :
    loadRecord data off r.body.type = some r := by
  rw [loadRecord, loadOp_of_holds h, load_type h, loadBody_of_holds (body_holds h) hcounted]
  rfl

/-! ### Sizes -/

lemma instrSize_of_holds (h : Holds data off r.fields) :
    instrSize data off = opSize data off r.op := by
  rw [instrSize, load_op h]
  simp only [Option.bind_eq_bind, Option.bind_some, Opcode.ofCode_code]

lemma opSize_phi {v : Raw} (h : loadRaw data (off + 4) = some v) :
    opSize data off .phi = some (8 + v.toNat * 8) := by
  rw [opSize, h]
  rfl

lemma opSize_call {v : Raw} (h : loadRaw data (off + 16) = some v) :
    opSize data off .call = some (24 + v.toNat * 4) := by
  rw [opSize, h]
  rfl

/-- A call record is larger than any struct of two operands. -/
lemma opSize_call_ne {n : Nat} (hn : n < 24) : opSize data off .call ≠ some n := by
  intro h
  cases hnum : loadRaw data (off + 16) with
  | none =>
    rw [opSize, hnum] at h
    cases h
  | some v =>
    rw [opSize_call hnum, Option.some.injEq] at h
    omega

lemma opSize_binary_iff (op : Opcode) {arg0 : Raw} (h : loadRaw data (off + 4) = some arg0) :
    opSize data off op = some 12 ↔ op.isBinary = true ∨ op = .rotateRight := by
  cases op with
  | phi =>
    rw [opSize_phi h]
    simp only [Option.some.injEq, Opcode.isBinary, reduceCtorEq, or_self, iff_false,
      Bool.false_eq_true]
    omega
  | call =>
    simp only [Opcode.isBinary, reduceCtorEq, or_self, iff_false, Bool.false_eq_true]
    exact opSize_call_ne (by omega)
  | _ => simp [opSize, Opcode.isBinary]

lemma opSize_unary_iff (op : Opcode) {arg0 : Raw} (h : loadRaw data (off + 4) = some arg0) :
    opSize data off op = some 8 ↔
      op.isUnary = true ∨ op = .branch ∨ op = .ret ∨ op = .phi ∧ arg0 = 0 := by
  cases op with
  | phi =>
    rw [opSize_phi h]
    simp only [Option.some.injEq, Opcode.isUnary, reduceCtorEq, false_or, true_and,
      Bool.false_eq_true]
    rw [← BitVec.toNat_inj]
    show _ ↔ _ = 0
    omega
  | call =>
    simp only [Opcode.isUnary, reduceCtorEq, false_and, or_self, iff_false, Bool.false_eq_true]
    exact opSize_call_ne (by omega)
  | _ => simp [opSize, Opcode.isUnary]

lemma ofNat_length_eq_iff (n k m : Nat) (hm : 0 < m) :
    k + (BitVec.ofNat 32 n).toNat * m = k + m * n ↔ n < 2 ^ 32 := by
  rw [BitVec.toNat_ofNat, Nat.mul_comm m n, Nat.add_left_cancel_iff, Nat.mul_left_inj hm.ne']
  omega

/-- The opcode gives the size of a record exactly when the record fits. -/
theorem instrSize_eq_iff (h : Holds data off r.fields) (hown : r.Own) :
    instrSize data off = some r.body.size ↔ r.Fits := by
  rw [instrSize_of_holds h]
  have hbody := body_holds h
  obtain ⟨op, t, body⟩ := r
  cases body with
  | binary arg0 arg1 => exact opSize_binary_iff op (loadRaw_of_holds hbody List.mem_cons_self)
  | unary arg0 => exact opSize_unary_iff op (loadRaw_of_holds hbody List.mem_cons_self)
  | phi entries =>
    obtain rfl : op = .phi := hown _ rfl
    rw [opSize_phi (loadRaw_of_holds hbody List.mem_cons_self), Option.some.injEq]
    exact ofNat_length_eq_iff entries.length 8 8 (by omega)
  | call funcPtr args =>
    obtain rfl : op = .call := hown _ rfl
    have hnum := loadRaw_of_holds hbody (List.mem_cons_of_mem _ List.mem_cons_self)
    rw [opSize_call hnum, Option.some.injEq]
    exact ofNat_length_eq_iff args.length 24 4 (by omega)
  | _ =>
    obtain rfl := hown _ rfl
    exact iff_of_true rfl trivial

end

end Proofs

end TidyTuples
