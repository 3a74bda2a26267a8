import TidyTuples.Codegen.TupleLayout
import TidyTuples.Proofs.LineBuilding

/-!
# Packing and unpacking a tuple

Every null flag is stored and loaded as eight bytes from its own byte on, so that it overlaps the
flags behind it and the first fields.
-/

namespace TidyTuples

/-- Where the fields of a tuple with `n` values begin. -/
def dataOffset (n : Nat) : Nat := 8 * (((n + 7) / 8 + 7) / 8)

/-- The bytes of a tuple with `n` values. -/
def tupleSize (n : Nat) : Nat := dataOffset n + 8 * n

namespace Proofs

section

variable {types : List SQLType}

/-! ### The layout -/

/-- The fields from an offset on. -/
def fieldsFrom : List SQLType → Nat → List FieldLayout
  | [], _ => []
  | t :: rest, o => ⟨o, sqlTypeToIR t, t⟩ :: fieldsFrom rest (o + 8)

lemma addInt_eq_some {a b : Int} (h : -0x80000000 ≤ a + b ∧ a + b ≤ 0x7FFFFFFF) : addInt a b = some (a + b) :=
  if_pos h

lemma addFields_eq {offset : Nat} (h : offset + 8 * types.length ≤ 0x7FFFFFFF) :
    TupleLayout.addFields types offset =
      some (fieldsFrom types offset, ((offset + 8 * types.length : Nat) : Int)) := by
  induction types generalizing offset with
  | nil => rfl
  | cons t rest ih =>
    rw [List.length_cons] at h
    have hnext : addInt offset 8 = some ((offset + 8 : Nat) : Int) :=
      addInt_eq_some (by omega)
    have hrest := @ih (offset + 8) (by omega)
    rw [TupleLayout.addFields, hnext, Option.bind_eq_bind, Option.bind_some, hrest,
      Option.bind_eq_bind, Option.bind_some, List.length_cons]
    have hlast : offset + 8 * (rest.length + 1) = offset + 8 + 8 * rest.length := by omega
    rw [hlast]
    rfl

lemma addFields_eq_none {offset : Int} (hoff : offset ≤ 0x7FFFFFFF)
    (h : 0x7FFFFFFF < offset + 8 * types.length) : TupleLayout.addFields types offset = none := by
  induction types generalizing offset with
  | nil =>
    rw [List.length_nil] at h
    omega
  | cons t rest ih =>
    rw [List.length_cons] at h
    rw [TupleLayout.addFields, addInt]
    split_ifs with hfits
    · rw [Option.bind_eq_bind, Option.bind_some, ih hfits.2 (by omega)]
      rfl
    · rfl

lemma length_toInt {n : Nat} (h : n ≤ 0x7FFFFFFF) : (BitVec.ofNat 32 n).toInt = n := by
  rw [BitVec.toInt_eq_toNat_of_lt, BitVec.toNat_ofNat, Nat.mod_eq_of_lt (by omega)]
  rw [BitVec.toNat_ofNat]
  omega

lemma alignTo8_eq {k : Nat} (h : k + 7 ≤ 0x7FFFFFFF) :
    alignTo8 k = some ((8 * ((k + 7) / 8) : Nat) : Int) := by
  have hmod : ((k : Nat) : Int).tmod 8 = ((k % 8 : Nat) : Int) := rfl
  unfold alignTo8
  rw [hmod]
  by_cases hrest : k % 8 = 0
  · rw [hrest, if_neg (by decide)]
    exact congrArg some (by omega)
  · rw [if_pos (by omega), addInt_eq_some (by omega)]
    exact congrArg some (by omega)

/-- The layout, where its size fits into an `int`. -/
lemma layout_fits (h : tupleSize types.length ≤ 0x7FFFFFFF) : TupleLayout.build types =
    some ⟨fieldsFrom types (dataOffset types.length), 0, (tupleSize types.length : Nat)⟩ := by
  have hsize : tupleSize types.length = dataOffset types.length + 8 * types.length := rfl
  have hdata : dataOffset types.length = 8 * (((types.length + 7) / 8 + 7) / 8) := rfl
  have hseven : addInt types.length 7 = some ((types.length + 7 : Nat) : Int) :=
    addInt_eq_some (by omega)
  have hbitmap : ((types.length + 7 : Nat) : Int).tdiv 8 = (((types.length + 7) / 8 : Nat) : Int) := by
    rw [Int.tdiv_eq_ediv_of_nonneg (by omega)]
    omega
  have hzero : addInt 0 (((types.length + 7) / 8 : Nat) : Int) =
      some (((types.length + 7) / 8 : Nat) : Int) := by
    rw [addInt_eq_some (by omega), zero_add]
  rw [TupleLayout.build, length_toInt (by omega), hseven]
  simp only [Option.bind_eq_bind, Option.bind_some]
  rw [hbitmap, hzero, Option.bind_some, alignTo8_eq (by omega), Option.bind_some, ← hdata,
    addFields_eq (by omega), Option.bind_some]
  rfl

lemma addInt_spec {a b c : Int} (h : addInt a b = some c) :
    c = a + b ∧ -0x80000000 ≤ c ∧ c ≤ 0x7FFFFFFF := by
  unfold addInt at h
  split_ifs at h with hfits
  cases h
  exact ⟨rfl, hfits⟩

lemma alignTo8_spec {a c : Int} (h : alignTo8 a = some c) (ha : -0x80000000 ≤ a ∧ a ≤ 0x7FFFFFFF) :
    -0x80000000 ≤ c ∧ c ≤ 0x7FFFFFFF := by
  unfold alignTo8 at h
  split_ifs at h
  · exact (addInt_spec h).2
  · cases h
    exact ha

/-- There is none where it does not. -/
lemma layout_none (h : 0x7FFFFFFF < tupleSize types.length) : TupleLayout.build types = none := by
  have hsize : tupleSize types.length = dataOffset types.length + 8 * types.length := rfl
  have hdata : dataOffset types.length = 8 * (((types.length + 7) / 8 + 7) / 8) := rfl
  rw [Option.eq_none_iff_forall_ne_some]
  intro layout hlayout
  unfold TupleLayout.build at hlayout
  obtain ⟨a, ha, hlayout⟩ := Option.bind_eq_some_iff.mp hlayout
  obtain ⟨b, hb, hlayout⟩ := Option.bind_eq_some_iff.mp hlayout
  obtain ⟨c, hc, hlayout⟩ := Option.bind_eq_some_iff.mp hlayout
  obtain ⟨fields, hfields, -⟩ := Option.bind_eq_some_iff.mp hlayout
  have hrange := alignTo8_spec hc (addInt_spec hb).2
  have hnone : TupleLayout.addFields types c = none := by
    apply addFields_eq_none hrange.2
    by_cases hlen : types.length ≤ 0x7FFFFFFF
    · -- the number of types is an `int`
      have hb' : b = (((types.length + 7) / 8 : Nat) : Int) := by
        rw [(addInt_spec hb).1, (addInt_spec ha).1, length_toInt hlen,
          Int.tdiv_eq_ediv_of_nonneg (by omega)]
        omega
      rw [hb', alignTo8_eq (by omega)] at hc
      cases hc
      omega
    · omega
  rw [hnone] at hfields
  cases hfields

/-! ### Accesses -/

/-- The host can add the offset. -/
def EncodesOffset (host : Host) (o : Nat) : Prop :=
  o = 0 ∨ host.encodes (.gep .null (BitVec.ofNat 64 o)) = true

/-- The records of an access. -/
def IsAccess (i : Instr) : Prop := i.isLine = true ∧ i.isConst = false

variable {p q : IRProgram} {base x : IRValueRef} {o : Nat}

lemma signExtend_offset (h : o ≤ 0x7FFFFFFF) :
    ((BitVec.ofNat 64 o).truncate 32).signExtend 64 = BitVec.ofNat 64 o := by
  have hlow : (BitVec.ofNat 64 o).truncate 32 = BitVec.ofNat 32 o :=
    BitVec.setWidth_ofNat_of_le (by decide) o
  have hsmall : ∀ w, o < 2 ^ w → (BitVec.ofNat (w + 1) o).toInt = o := by
    intro w hw
    have hdouble : 2 ^ (w + 1) = 2 * 2 ^ w := Nat.pow_succ'
    have hnat : (BitVec.ofNat (w + 1) o).toNat = o := by
      rw [BitVec.toNat_ofNat, Nat.mod_eq_of_lt (by omega)]
    rw [BitVec.toInt_eq_toNat_of_lt (by omega), hnat]
  apply BitVec.eq_of_toInt_eq
  rw [hlow, BitVec.toInt_signExtend_of_le (by decide), hsmall 31 (by omega), hsmall 63 (by omega)]

lemma ofInt_offset : BitVec.ofInt 64 o = BitVec.ofNat 64 o := BitVec.ofInt_natCast 64 o

lemma addGEP_does (hp : BlockOpen p) (hbase : Known p base) (ho : o ≤ 0x7FFFFFFF) : ∃ refs,
    Known (p.addGEP base (BitVec.ofInt 64 o)).2 (p.addGEP base (BitVec.ofInt 64 o)).1 ∧
    Does IsAccess (fun host => EncodesOffset host o) (fun _ e e' =>
      e'.regs (p.addGEP base (BitVec.ofInt 64 o)).1 = e.regs base + BitVec.ofNat 64 o ∧
      e'.mem = e.mem) p (p.addGEP base (BitVec.ofInt 64 o)).2 refs := by
  rw [ofInt_offset]
  by_cases hzero : o = 0
  · subst hzero
    refine ⟨[], hbase, (hp.does.mono fun host e e' _ heq => ?_).congr
      fun _ => ⟨fun _ => .inl rfl, fun _ => trivial⟩⟩
    rw [heq]
    exact ⟨(BitVec.add_zero _).symm, rfl⟩
  · have hword : BitVec.ofNat 64 o ≠ 0 := by
      intro hword
      have hnat := congrArg BitVec.toNat hword
      rw [BitVec.toNat_ofNat, Nat.mod_eq_of_lt (by omega)] at hnat
      exact hzero hnat
    have hgep : p.addGEP base (BitVec.ofNat 64 o) = p.emit (.gep base (BitVec.ofNat 64 o)) :=
      if_neg hword
    rw [hgep]
    have hdoes := hp.result (G := IsAccess) (.gep base (BitVec.ofNat 64 o)) ⟨rfl, rfl⟩
      (fun x hx => List.mem_singleton.mp hx ▸ hbase) (fun _ e => e.regs base + BitVec.ofNat 64 o)
      fun host e => by
        conv_rhs => rw [← signExtend_offset ho]
        rfl
    refine ⟨_, (hdoes.appends.range _ List.mem_cons_self).2, hdoes.congr fun host => ?_⟩
    exact (or_iff_right hzero).symm

/-- A word is stored at an offset. -/
lemma storeAt_does (hp : BlockOpen p) (hbase : Known p base) (hx : Known p x) (ho : o ≤ 0x7FFFFFFF) :
    ∃ refs, Does IsAccess (fun host => EncodesOffset host o) (fun _ e e' =>
      e'.mem = e.mem.store (e.regs base + BitVec.ofNat 64 o) 8 (e.regs x))
      p (p.storeAt base o x) refs := by
  obtain ⟨refs, hptr, hgep⟩ := addGEP_does hp hbase ho
  have hx' := hgep.appends.known hx
  unfold IRProgram.storeAt
  generalize p.addGEP base (BitVec.ofInt 64 o) = gep at *
  have hexec : ∀ (host : Host) e, ∃ e', execInstr host.arch.emitted gep.2.dataSize
      (.binary .store .void gep.1 x) e = some e' ∧
      e'.mem = e.mem.store (e.regs gep.1) 8 (e.regs x) := fun host e => ⟨_, rfl, rfl⟩
  have hstore := (hgep.appends.blockOpen.emit_does (G := IsAccess)
    (i := .binary .store .void gep.1 x) ⟨rfl, rfl⟩
    (List.forall_mem_cons.mpr ⟨hptr, List.forall_mem_singleton.mpr hx'⟩) hexec).congr
    fun _ => ⟨fun _ => trivial, fun _ => rfl⟩
  refine ⟨_, (hgep.trans hstore _ fun host e e' e'' hkept _ hptr' hmem => ?_).congr
    fun _ => and_iff_left trivial⟩
  rw [hmem, hptr'.1, hptr'.2, hkept x hx]

/-- A word is loaded from an offset. -/
lemma loadAt_does (hp : BlockOpen p) (hbase : Known p base) (ho : o ≤ 0x7FFFFFFF) (t : IRType) :
    ∃ refs, Known (p.loadAt base o t).2 (p.loadAt base o t).1 ∧
    Does IsAccess (fun host => EncodesOffset host o) (fun _ e e' =>
      e'.regs (p.loadAt base o t).1 = e.mem.load (e.regs base + BitVec.ofNat 64 o) 8 ∧
      e'.mem = e.mem) p (p.loadAt base o t).2 refs := by
  obtain ⟨refs, hptr, hgep⟩ := addGEP_does hp hbase ho
  unfold IRProgram.loadAt
  generalize p.addGEP base (BitVec.ofInt 64 o) = gep at *
  have hload := (hgep.appends.blockOpen.result (G := IsAccess) (.unary .load t gep.1) ⟨rfl, rfl⟩
    (fun x hx => List.mem_singleton.mp hx ▸ hptr) (fun _ e => e.mem.load (e.regs gep.1) 8)
    fun host e => rfl).congr fun _ => ⟨fun _ => trivial, fun _ => rfl⟩
  refine ⟨_, (hload.appends.range _ List.mem_cons_self).2,
    (hgep.trans hload _ fun host e e' e'' _ _ hptr' hvalue => ?_).congr
    fun _ => and_iff_left trivial⟩
  refine ⟨hvalue.1.trans ?_, hvalue.2.trans hptr'.2⟩
  rw [hptr'.1, hptr'.2]

/-! ### The code of packing and unpacking -/

/-- The stores of null flags, by their offsets. -/
def flagWrites : List SQLValue → Nat → List (Nat × IRValueRef)
  | [], _ => []
  | v :: rest, i => if v.isNullable then (i, v.nullRef) :: flagWrites rest (i + 1)
    else flagWrites rest (i + 1)

/-- The stores of values. -/
def fieldWrites : List SQLValue → Nat → List (Nat × IRValueRef)
  | [], _ => []
  | v :: rest, o => (o, v.valueRef) :: fieldWrites rest (o + 8)

/-- Words stored at offsets, one after the other. -/
def storeSeq (p : IRProgram) (base : IRValueRef) (ws : List (Nat × IRValueRef)) : IRProgram :=
  ws.foldl (fun p x => p.storeAt base x.1 x.2) p

variable {values : List SQLValue} {ws : List (Nat × IRValueRef)} {i n : Nat}

lemma packFlags_eq : p.packFlags base 0 values i = storeSeq p base (flagWrites values i) := by
  induction values generalizing p i with
  | nil => rfl
  | cons v rest ih =>
    rw [IRProgram.packFlags, flagWrites, ih, zero_add]
    split_ifs
    · rfl
    · rfl

lemma packFields_eq {types : List SQLType} (h : types.length = values.length) :
    p.packFields base ((fieldsFrom types o).zip values) = storeSeq p base (fieldWrites values o) := by
  induction values generalizing types p o with
  | nil =>
    rw [List.length_eq_zero_iff.mp h]
    rfl
  | cons v rest ih =>
    cases types with
    | nil => cases h
    | cons t types' =>
      rw [fieldsFrom, List.zip_cons_cons, IRProgram.packFields, ih (Nat.succ.inj h)]
      rfl

/-- The stores of a list. -/
lemma storeSeq_does (hp : BlockOpen p) (hbase : Known p base)
    (hws : ∀ x ∈ ws, x.1 ≤ 0x7FFFFFFF ∧ Known p x.2) : ∃ refs,
    Does IsAccess (fun host => ∀ x ∈ ws, EncodesOffset host x.1) (fun _ e e' => e'.mem =
      e.mem.storeAll (e.regs base) 8 (ws.map fun x => (x.1, e.regs x.2)))
      p (storeSeq p base ws) refs := by
  induction ws generalizing p with
  | nil =>
    refine ⟨[], (hp.does.mono fun host e e' _ heq => ?_).congr
      fun _ => ⟨fun _ x hx => (List.not_mem_nil hx).elim, fun _ => trivial⟩⟩
    rw [heq]
    rfl
  | cons x rest ih =>
    obtain ⟨⟨ho, hx⟩, hrest⟩ := List.forall_mem_cons.mp hws
    obtain ⟨refs₁, d₁⟩ := storeAt_does hp hbase hx ho
    obtain ⟨refs₂, d₂⟩ := ih d₁.appends.blockOpen (d₁.appends.known hbase)
      fun y hy => ⟨(hrest y hy).1, d₁.appends.known (hrest y hy).2⟩
    refine ⟨_, (d₁.trans d₂ _ fun host e e' e'' hkept _ hone hmore => ?_).congr
      fun host => by rw [List.forall_mem_cons]⟩
    have hvalues : (rest.map fun y => (y.1, e'.regs y.2)) = rest.map fun y => (y.1, e.regs y.2) := by
      apply List.map_congr_left
      intro y hy
      rw [hkept y.2 (hrest y hy).2]
    rw [hmore, hone, hkept base hbase, hvalues]
    rfl

/-- What `n` fields at `o` with flags at `i` are read as. -/
def readsFrom (m : Memory 64) (a : Word) : Nat → Nat → Nat → List (Word × Word)
  | 0, _, _ => []
  | n + 1, o, i => (m.load (a + BitVec.ofNat 64 o) 8, m.load (a + BitVec.ofNat 64 i) 8) ::
    readsFrom m a n (o + 8) (i + 1)

/-- The offsets that are read. -/
def readOffsets : Nat → Nat → Nat → List Nat
  | 0, _, _ => []
  | n + 1, o, i => o :: i :: readOffsets n (o + 8) (i + 1)

lemma unpackFields_does {types : List SQLType} (hp : BlockOpen p) (hbase : Known p base)
    (ho : o + 8 * types.length ≤ 0x7FFFFFFF) (hi : i + types.length ≤ 0x7FFFFFFF) :
    let out := p.unpackFields base 0 (fieldsFrom types o) i
    ∃ refs, (∀ v ∈ out.1, Known out.2 v.valueRef ∧ Known out.2 v.nullRef) ∧
    Does IsAccess (fun host => ∀ x ∈ readOffsets types.length o i, EncodesOffset host x)
      (fun _ e e' => e'.mem = e.mem ∧ (out.1.map fun v => (e'.regs v.valueRef, e'.regs v.nullRef)) =
        readsFrom e.mem (e.regs base) types.length o i) p out.2 refs := by
  induction types generalizing p o i with
  | nil =>
    refine ⟨[], fun v hv => (List.not_mem_nil hv).elim, (hp.does.mono fun host e e' _ heq => ?_).congr
      fun _ => ⟨fun _ x hx => (List.not_mem_nil hx).elim, fun _ => trivial⟩⟩
    rw [heq]
    exact ⟨rfl, rfl⟩
  | cons t rest ih =>
    rw [List.length_cons] at ho hi
    intro out
    obtain ⟨refs₁, hk₁, d₁⟩ := @loadAt_does p base o hp hbase (by omega) (sqlTypeToIR t)
    generalize hval : p.loadAt base o (sqlTypeToIR t) = field at *
    obtain ⟨refs₂, hk₂, d₂⟩ := @loadAt_does field.2 base i d₁.appends.blockOpen
      (d₁.appends.known hbase) (by omega) .bool
    generalize hnull : field.2.loadAt base i .bool = flag at *
    have d₁₂ := d₁.trans d₂ (fun _ e e' => e'.mem = e.mem ∧
      e'.regs field.1 = e.mem.load (e.regs base + BitVec.ofNat 64 o) 8 ∧
      e'.regs flag.1 = e.mem.load (e.regs base + BitVec.ofNat 64 i) 8)
      fun host e e' e'' hkept hkept' hone htwo => ⟨htwo.2.trans hone.2,
        (hkept' _ hk₁).trans hone.1, by rw [htwo.1, hone.2, hkept base hbase]⟩
    obtain ⟨refs₃, hks, d₃⟩ := @ih flag.2 (o + 8) (i + 1) d₁₂.appends.blockOpen
      (d₁₂.appends.known hbase) (by omega) (by omega)
    have hout : out = (⟨field.1, flag.1, t⟩ ::
        (flag.2.unpackFields base 0 (fieldsFrom rest (o + 8)) (i + 1)).1,
        (flag.2.unpackFields base 0 (fieldsFrom rest (o + 8)) (i + 1)).2) := by
      change p.unpackFields base 0 (⟨o, sqlTypeToIR t, t⟩ :: fieldsFrom rest (o + 8)) i = _
      simp only [IRProgram.unpackFields, hval, zero_add, hnull]
    rw [hout]
    have hflag : ∀ e' e'' : ExecState Word (Memory 64), (∀ x, Known flag.2 x → e''.regs x = e'.regs x) →
        (e''.regs field.1, e''.regs flag.1) = (e'.regs field.1, e'.regs flag.1) := by
      intro e' e'' hkept
      rw [hkept _ (d₂.appends.known hk₁), hkept _ hk₂]
    refine ⟨_, List.forall_mem_cons.mpr ⟨⟨d₃.appends.known (d₂.appends.known hk₁),
      d₃.appends.known hk₂⟩, hks⟩, (d₁₂.trans d₃ _ ?_).congr fun host => ?_⟩
    · intro host e e' e'' hkept hkept' hone hmore
      refine ⟨hmore.1.trans hone.1, ?_⟩
      rw [List.map_cons, hflag e' e'' hkept', hmore.2, hone.2.1, hone.2.2, hone.1, hkept base hbase]
      rfl
    · rw [List.length_cons, readOffsets, List.forall_mem_cons, List.forall_mem_cons, and_assoc]

/-! ### What is read back -/

/-- The flag a value is read back with. -/
def nullFlag (env : IRValueRef → Word) (v : SQLValue) : Word :=
  if v.isNullable then env v.nullRef else 0

/-- The stores of a tuple. -/
def tupleWrites (values : List SQLValue) : List (Nat × IRValueRef) :=
  flagWrites values 0 ++ fieldWrites values (dataOffset values.length)

/-- The memory behind the stores. -/
def packed (m : Memory 64) (a : Word) (env : IRValueRef → Word) (values : List SQLValue) :
    Memory 64 := m.storeAll a 8 ((tupleWrites values).map fun x => (x.1, env x.2))

/-- Every flag behind the first is unset, and so is every byte that is read with a flag and is not
written with one. -/
structure FlagsApart (m : Memory 64) (a : Word) (env : IRValueRef → Word) (values : List SQLValue) :
    Prop where
  flags : ∀ i v, 0 < i → values[i]? = some v → nullFlag env v = 0
  data : ∀ k v, dataOffset values.length ≤ k → k < values.length + 7 →
    values[(k - dataOffset values.length) / 8]? = some v →
      Memory.byte (env v.valueRef) ((k - dataOffset values.length) % 8) = 0
  gaps : ∀ k < dataOffset values.length,
    (∀ i v, values[i]? = some v → v.isNullable = true → ¬ (i ≤ k ∧ k < i + 8)) →
      m (a + BitVec.ofNat 64 k) = 0

variable {m : Memory 64} {a : Word} {env : IRValueRef → Word} {v : SQLValue} {k : Nat}

lemma mem_flagWrites {w : Nat × IRValueRef} : w ∈ flagWrites values i ↔
    ∃ j v, values[j]? = some v ∧ v.isNullable = true ∧ w = (i + j, v.nullRef) := by
  induction values generalizing i with
  | nil => simp [flagWrites]
  | cons v rest ih =>
    have hsplit : (∃ j u, (v :: rest)[j]? = some u ∧ u.isNullable = true ∧ w = (i + j, u.nullRef)) ↔
        (v.isNullable = true ∧ w = (i, v.nullRef)) ∨ w ∈ flagWrites rest (i + 1) := by
      rw [ih]
      constructor
      · rintro ⟨j, u, hu, hnull, rfl⟩
        cases j with
        | zero =>
          cases hu
          exact .inl ⟨hnull, rfl⟩
        | succ j => exact .inr ⟨j, u, hu, hnull, by rw [Nat.add_right_comm, Nat.add_assoc]⟩
      · rintro (⟨hnull, rfl⟩ | ⟨j, u, hu, hnull, rfl⟩)
        · exact ⟨0, v, rfl, hnull, rfl⟩
        · exact ⟨j + 1, u, hu, hnull, by rw [Nat.add_right_comm, Nat.add_assoc]⟩
    rw [hsplit, flagWrites]
    split_ifs with hnull
    · rw [List.mem_cons]
      exact ⟨Or.imp_left (⟨hnull, ·⟩), Or.imp_left And.right⟩
    · exact ⟨.inr, fun h => h.resolve_left fun hv => hnull hv.1⟩

lemma mem_fieldWrites {w : Nat × IRValueRef} : w ∈ fieldWrites values o ↔
    ∃ j v, values[j]? = some v ∧ w = (o + 8 * j, v.valueRef) := by
  induction values generalizing o with
  | nil => simp [fieldWrites]
  | cons v rest ih =>
    have hnext : ∀ j, o + 8 + 8 * j = o + 8 * (j + 1) := fun j => by omega
    rw [fieldWrites, List.mem_cons, ih]
    constructor
    · rintro (rfl | ⟨j, u, hu, rfl⟩)
      · exact ⟨0, v, rfl, rfl⟩
      · exact ⟨j + 1, u, hu, by rw [hnext]⟩
    · rintro ⟨j, u, hu, rfl⟩
      cases j with
      | zero =>
        cases hu
        exact .inl rfl
      | succ j => exact .inr ⟨j, u, hu, by rw [hnext]⟩

lemma length_le_dataOffset : n + 7 ≤ dataOffset n + 8 * n ∨ n = 0 := by
  unfold dataOffset
  omega

lemma dataOffset_le : dataOffset n ≤ n + 7 := by
  unfold dataOffset
  omega

lemma dataOffset_pos (h : 0 < n) : 8 ≤ dataOffset n := by
  unfold dataOffset
  omega

lemma index_lt (h : values[i]? = some v) : i < values.length := (List.getElem?_eq_some_iff.mp h).1

/-- The stores stay within the tuple. -/
lemma tupleWrites_bound {w : Nat × IRValueRef} (hw : w ∈ tupleWrites values) :
    w.1 + 8 ≤ tupleSize values.length := by
  unfold tupleSize
  rcases List.mem_append.mp hw with hw | hw
  · obtain ⟨j, v, hv, -, rfl⟩ := mem_flagWrites.mp hw
    have hj := index_lt hv
    have hlen := @length_le_dataOffset values.length
    change 0 + j + 8 ≤ _
    omega
  · obtain ⟨j, v, hv, rfl⟩ := mem_fieldWrites.mp hw
    have hj := index_lt hv
    change _ + 8 * j + 8 ≤ _
    omega

/-- The memory behind the flags. -/
def flagsPacked (m : Memory 64) (a : Word) (env : IRValueRef → Word) (values : List SQLValue) :
    Memory 64 := m.storeAll a 8 ((flagWrites values 0).map fun x => (x.1, env x.2))

lemma packed_eq : packed m a env values = (flagsPacked m a env values).storeAll a 8
    ((fieldWrites values (dataOffset values.length)).map fun x => (x.1, env x.2)) := by
  rw [packed, tupleWrites, List.map_append, Memory.storeAll_append]
  rfl

/-- A byte behind some of the stores is from one of them, or has been there. -/
lemma writes_cases (h : tupleSize values.length ≤ 0x7FFFFFFF) (hws : ∀ w ∈ ws, w ∈ tupleWrites values)
    (hk : k < 2 ^ 64) :
    (m.storeAll a 8 (ws.map fun x => (x.1, env x.2)) (a + BitVec.ofNat 64 k) =
        m (a + BitVec.ofNat 64 k) ∧ ∀ w ∈ ws, ¬ (w.1 ≤ k ∧ k < w.1 + 8)) ∨
    ∃ w ∈ ws, (w.1 ≤ k ∧ k < w.1 + 8) ∧
      m.storeAll a 8 (ws.map fun x => (x.1, env x.2)) (a + BitVec.ofNat 64 k) =
        Memory.byte (env w.2) (k - w.1) := by
  have hbounds : ∀ x ∈ ws.map fun x => (x.1, env x.2), x.1 + 8 ≤ 2 ^ 64 := by
    intro x hx
    obtain ⟨w, hw, rfl⟩ := List.mem_map.mp hx
    have hbound := tupleWrites_bound (hws w hw)
    change w.1 + 8 ≤ _
    omega
  rcases @Memory.storeAll_cases _ m a 8 k _ _ hk hbounds with ⟨hsame, hnone⟩ | ⟨x, hx, hover, hbyte⟩
  · exact .inl ⟨hsame, fun w hw => hnone _ (List.mem_map_of_mem hw)⟩
  · obtain ⟨w, hw, rfl⟩ := List.mem_map.mp hx
    exact .inr ⟨w, hw, hover, hbyte⟩

/-- The fields are stored last. -/
lemma packed_field (h : tupleSize values.length ≤ 0x7FFFFFFF) (hv : values[i]? = some v) (hk : k < 8) :
    packed m a env values (a + BitVec.ofNat 64 (dataOffset values.length + 8 * i + k)) =
      Memory.byte (env v.valueRef) k := by
  have hi := index_lt hv
  have hsize : tupleSize values.length = dataOffset values.length + 8 * values.length := rfl
  rw [packed_eq]
  rcases @writes_cases values (fieldWrites values (dataOffset values.length))
    (flagsPacked m a env values) a env (dataOffset values.length + 8 * i + k) h
    (fun w hw => List.mem_append_right _ hw) (by omega) with ⟨-, hnone⟩ | ⟨w, hw, ⟨hle, hlt⟩, hbyte⟩
  · have hw : (dataOffset values.length + 8 * i, v.valueRef) ∈
        fieldWrites values (dataOffset values.length) := mem_fieldWrites.mpr ⟨i, v, hv, rfl⟩
    exact absurd ⟨Nat.le_add_right _ _, Nat.add_lt_add_left hk _⟩ (hnone _ hw)
  · obtain ⟨j, u, hu, rfl⟩ := mem_fieldWrites.mp hw
    change dataOffset _ + 8 * j ≤ _ at hle
    change _ < dataOffset _ + 8 * j + 8 at hlt
    have hij : j = i := by omega
    subst hij
    rw [hv] at hu
    cases hu
    rw [hbyte, Nat.add_sub_cancel_left]

/-- What is in front of the fields is from a flag, or has been there. -/
lemma packed_flag (h : tupleSize values.length ≤ 0x7FFFFFFF) (hk : k < dataOffset values.length) :
    (packed m a env values (a + BitVec.ofNat 64 k) = m (a + BitVec.ofNat 64 k) ∧
      ∀ i v, values[i]? = some v → v.isNullable = true → ¬ (i ≤ k ∧ k < i + 8)) ∨
    ∃ i v, values[i]? = some v ∧ v.isNullable = true ∧ (i ≤ k ∧ k < i + 8) ∧
      packed m a env values (a + BitVec.ofNat 64 k) = Memory.byte (env v.nullRef) (k - i) := by
  have hsize : tupleSize values.length = dataOffset values.length + 8 * values.length := rfl
  have hflags : packed m a env values (a + BitVec.ofNat 64 k) =
      flagsPacked m a env values (a + BitVec.ofNat 64 k) := by
    rw [packed_eq]
    rcases @writes_cases values (fieldWrites values (dataOffset values.length))
      (flagsPacked m a env values) a env k h (fun w hw => List.mem_append_right _ hw) (by omega) with
      ⟨hsame, -⟩ | ⟨w, hw, hover, -⟩
    · exact hsame
    · obtain ⟨j, u, hu, rfl⟩ := mem_fieldWrites.mp hw
      have hle : dataOffset values.length + 8 * j ≤ k := hover.1
      omega
  rw [hflags, flagsPacked]
  rcases @writes_cases values (flagWrites values 0) m a env k h
    (fun w hw => List.mem_append_left _ hw) (by omega) with ⟨hsame, hnone⟩ | ⟨w, hw, hover, hbyte⟩
  · refine .inl ⟨hsame, fun i v hv hnull => ?_⟩
    have hw : (0 + i, v.nullRef) ∈ flagWrites values 0 := mem_flagWrites.mpr ⟨i, v, hv, hnull, rfl⟩
    have hfree := hnone _ hw
    rwa [Nat.zero_add] at hfree
  · obtain ⟨j, u, hu, hnull, rfl⟩ := mem_flagWrites.mp hw
    rw [Nat.zero_add] at hover hbyte
    exact .inr ⟨j, u, hu, hnull, hover, hbyte⟩

/-- Nothing is stored behind the tuple. -/
lemma packed_outside (h : tupleSize values.length ≤ 0x7FFFFFFF) (hk : tupleSize values.length ≤ k)
    (hword : k < 2 ^ 64) :
    packed m a env values (a + BitVec.ofNat 64 k) = m (a + BitVec.ofNat 64 k) := by
  rcases @writes_cases values (tupleWrites values) m a env k h (fun _ hw => hw) hword with
    ⟨hsame, -⟩ | ⟨w, hw, hover, -⟩
  · exact hsame
  · have hbound := tupleWrites_bound hw
    have hlt : k < w.1 + 8 := hover.2
    omega

lemma readsFrom_eq_iff {f : SQLValue → Word × Word} : readsFrom m a values.length o i = values.map f ↔
    ∀ j v, values[j]? = some v → (m.load (a + BitVec.ofNat 64 (o + 8 * j)) 8,
      m.load (a + BitVec.ofNat 64 (i + j)) 8) = f v := by
  induction values generalizing o i with
  | nil => exact ⟨fun _ j v hv => by simp at hv, fun _ => rfl⟩
  | cons v rest ih =>
    have hnext : ∀ j, o + 8 + 8 * j = o + 8 * (j + 1) ∧ i + 1 + j = i + (j + 1) := fun j => by omega
    rw [List.length_cons, readsFrom, List.map_cons, List.cons.injEq, ih]
    constructor
    · rintro ⟨hfirst, hrest⟩ j u hu
      cases j with
      | zero =>
        cases hu
        exact hfirst
      | succ j =>
        have hread := hrest j u hu
        rwa [(hnext j).1, (hnext j).2] at hread
    · intro hall
      refine ⟨hall 0 v rfl, fun j u hu => ?_⟩
      rw [(hnext j).1, (hnext j).2]
      exact hall (j + 1) u hu

/-! ### The flags -/

lemma byte_zero : Memory.byte (0 : Word) k = 0 := BitVec.extractLsb'_zero

lemma index_split (h : o ≤ k) : o + 8 * ((k - o) / 8) + (k - o) % 8 = k := by omega

/-- A flag is in the lowest byte. -/
lemma byte_flag {w : Word} (hw : w = 0 ∨ w = 1) (hpos : 0 < k) (hk : k < 8) :
    Memory.byte w k = 0 := by
  have hone : ∀ k < 8, 0 < k → Memory.byte (1 : Word) k = 0 := by decide
  rcases hw with rfl | rfl
  · exact byte_zero
  · exact hone k hk hpos

lemma flag_eq_zero {w : Word} (hw : w = 0 ∨ w = 1) (h : Memory.byte w 0 = 0) : w = 0 := by
  rcases hw with rfl | rfl
  · rfl
  · exact absurd h (by decide)

lemma nullFlag_of_nullable (h : v.isNullable = true) : nullFlag env v = env v.nullRef := if_pos h

lemma nullFlag_of_not_nullable (h : ¬ v.isNullable = true) : nullFlag env v = 0 := if_neg h

section

variable (hsize : tupleSize values.length ≤ 0x7FFFFFFF)
  (hflags : ∀ (i : Nat) v, values[i]? = some v → nullFlag env v = 0 ∨ nullFlag env v = 1)

include hsize hflags

/-- Where the flags are read back, all bytes behind the first that are read with them are zero. -/
lemma flagsApart_of_reads (hreads : ∀ i v, values[i]? = some v →
      (packed m a env values).load (a + BitVec.ofNat 64 i) 8 = nullFlag env v) :
    FlagsApart m a env values := by
  have hbyte : ∀ i v j, values[i]? = some v → j < 8 →
      packed m a env values (a + BitVec.ofNat 64 (i + j)) = Memory.byte (nullFlag env v) j := by
    intro i v j hv hj
    rw [← hreads i v hv, Memory.byte_load hj, BitVec.ofNat_add, BitVec.add_assoc]
  have hzero : ∀ k, 0 < k → k < values.length + 7 → 0 < values.length →
      packed m a env values (a + BitVec.ofNat 64 k) = 0 := by
    intro k hpos hk hlen
    -- the flag that is read furthest in front of the byte
    obtain ⟨i, j, hi, rfl, hj, hj'⟩ : ∃ i j, i < values.length ∧ k = i + j ∧ 0 < j ∧ j < 8 := by
      by_cases hlast : k ≤ values.length
      · exact ⟨k - 1, 1, by omega, by omega, by omega, by omega⟩
      · exact ⟨values.length - 1, k - (values.length - 1), by omega, by omega, by omega, by omega⟩
    have hv := List.getElem?_eq_getElem hi
    rw [hbyte i _ j hv hj', byte_flag (hflags i _ hv) hj hj']
  constructor
  · intro i v hpos hv
    have hi := index_lt hv
    apply flag_eq_zero (hflags i v hv)
    rw [← hbyte i v 0 hv (by decide)]
    exact hzero _ hpos (by omega) (by omega)
  · intro k v hle hk hv
    have hi := index_lt hv
    have hpos := @dataOffset_pos values.length (by omega)
    rw [← packed_field hsize hv (Nat.mod_lt _ (by decide)), index_split hle]
    exact hzero k (by omega) hk (by omega)
  · intro k hk hfree
    have hlen : 0 < values.length := by
      unfold dataOffset at hk
      omega
    have hle := @dataOffset_le values.length
    rcases @packed_flag values m a env k hsize hk with
      ⟨hsame, -⟩ | ⟨i, v, hv, hnull, hover, -⟩
    · rw [← hsame]
      by_cases hpos : 0 < k
      · exact hzero k hpos (by omega) hlen
      · have hk0 : k = 0 := by omega
        subst hk0
        have hv := List.getElem?_eq_getElem hlen
        have hnull : ¬ values[0].isNullable = true := fun hnull =>
          hfree 0 _ hv hnull ⟨Nat.le_refl 0, by decide⟩
        refine (hbyte 0 _ 0 hv (by decide)).trans ?_
        rw [nullFlag_of_not_nullable hnull]
        exact byte_zero
    · exact absurd hover (hfree i v hv hnull)

lemma reads_of_flagsApart (hapart : FlagsApart m a env values) (hv : values[i]? = some v) :
    (packed m a env values).load (a + BitVec.ofNat 64 i) 8 = nullFlag env v := by
  have hi := index_lt hv
  have hpos := @dataOffset_pos values.length (by omega)
  have hzero : ∀ k, 0 < k → k < values.length + 7 →
      packed m a env values (a + BitVec.ofNat 64 k) = 0 := by
    intro k hk hlt
    by_cases hdata : k < dataOffset values.length
    · rcases @packed_flag values m a env k hsize hdata with
        ⟨hsame, hfree⟩ | ⟨j, u, hu, hnull, hover, hbyte⟩
      · rw [hsame]
        exact hapart.gaps k hdata hfree
      · rw [hbyte, ← @nullFlag_of_nullable env u hnull]
        by_cases hj : j = 0
        · exact byte_flag (hflags j u hu) (by omega) (by omega)
        · rw [hapart.flags j u (by omega) hu]
          exact byte_zero
    · have hlen := @length_le_dataOffset values.length
      have hu := List.getElem?_eq_getElem
        (show (k - dataOffset values.length) / 8 < values.length by omega)
      have hfield := @packed_field values _ m a env _ ((k - dataOffset values.length) % 8) hsize hu
        (Nat.mod_lt _ (by decide))
      rw [index_split (Nat.not_lt.mp hdata)] at hfield
      rw [hfield]
      exact hapart.data k _ (by omega) hlt hu
  have hfirst : ∀ u, values[0]? = some u →
      packed m a env values (a + BitVec.ofNat 64 0) = Memory.byte (nullFlag env u) 0 := by
    intro u hu
    rcases @packed_flag values m a env 0 hsize (by omega) with
      ⟨hsame, hfree⟩ | ⟨j, u', hu', hnull, hover, hbyte⟩
    · have hnull : ¬ u.isNullable = true := fun hnull =>
        hfree 0 u hu hnull ⟨Nat.le_refl 0, by decide⟩
      rw [nullFlag_of_not_nullable hnull, hsame]
      exact (hapart.gaps 0 (by omega) hfree).trans byte_zero.symm
    · have hj := Nat.le_zero.mp hover.1
      subst hj
      rw [hu] at hu'
      cases hu'
      rw [hbyte, nullFlag_of_nullable hnull]
  apply Memory.eq_of_byte
  intro j hj
  rw [Memory.byte_load hj, BitVec.add_assoc, ← BitVec.ofNat_add]
  by_cases hstart : i + j = 0
  · have hi0 : i = 0 := by omega
    have hj0 : j = 0 := by omega
    subst hi0 hj0
    exact hfirst v hv
  · rw [hzero (i + j) (by omega) (by omega)]
    by_cases hi0 : i = 0
    · exact (byte_flag (hflags i v hv) (by omega) hj).symm
    · rw [hapart.flags i v (by omega) hv]
      exact byte_zero.symm

end

/-! ### Packing and unpacking -/

/-- `unpackTuple` behind `packTuple`, with the layout of the types. -/
def repack (p : IRProgram) (types : List SQLType) (base : IRValueRef) (values : List SQLValue) :
    Option (TupleLayout × List SQLValue × IRProgram) := do
  let layout ← TupleLayout.build types
  return (layout, (p.packTuple base layout values).unpackTuple base layout)

/-- The operands in front of the code, in the registers the translator has for them. -/
def startValues (p : IRProgram) (types : List SQLType) (base : IRValueRef) (values : List SQLValue)
    (s : HostState) (x : IRValueRef) : Word :=
  match repack p types base values with
  | some (_, _, q) => s.values (p.translatorSince q) x
  | none => s.regs (.requested x)

/-- The code runs, the values and the flags are read back, and nothing is written behind the
tuple. -/
def RoundTrips (host : Host) (p : IRProgram) (types : List SQLType) (base : IRValueRef)
    (values : List SQLValue) (s : HostState) : Prop :=
  ∃ layout result q s', repack p types base values = some (layout, result, q) ∧
    host.run (p.codeSince q) s = some s' ∧
    (result.map fun v => (s'.values q.translatorNow v.valueRef, s'.values q.translatorNow v.nullRef)) =
      (values.map fun v => (startValues p types base values s v.valueRef,
        nullFlag (startValues p types base values s) v)) ∧
    ∀ x, layout.totalSize ≤ (x - startValues p types base values s base).toNat → s'.mem x = s.mem x

/-- The tuple fits into an `int`, the host can add its offsets, and the flags do not meet. -/
structure Repackable (host : Host) (p : IRProgram) (types : List SQLType) (base : IRValueRef)
    (values : List SQLValue) (s : HostState) : Prop where
  size : tupleSize values.length ≤ 0x7FFFFFFF
  offsets : ∀ i < values.length, EncodesOffset host i ∧
    EncodesOffset host (dataOffset values.length + 8 * i)
  apart : FlagsApart s.mem (startValues p types base values s base)
    (startValues p types base values s) values

lemma forall_readOffsets {P : Nat → Prop} :
    (∀ x ∈ readOffsets n o i, P x) ↔ ∀ j < n, P (i + j) ∧ P (o + 8 * j) := by
  induction n generalizing o i with
  | zero => exact ⟨fun _ j hj => absurd hj (Nat.not_lt_zero j), fun _ x hx => (List.not_mem_nil hx).elim⟩
  | succ n ih =>
    have hnext : ∀ j, o + 8 + 8 * j = o + 8 * (j + 1) ∧ i + 1 + j = i + (j + 1) := fun j => by omega
    rw [readOffsets, List.forall_mem_cons, List.forall_mem_cons, ih]
    constructor
    · rintro ⟨hfield, hflag, hrest⟩ j hj
      cases j with
      | zero => exact ⟨hflag, hfield⟩
      | succ j =>
        have hpair := hrest j (Nat.lt_of_succ_lt_succ hj)
        rwa [(hnext j).1, (hnext j).2] at hpair
    · intro hall
      refine ⟨(hall 0 n.succ_pos).2, (hall 0 n.succ_pos).1, fun j hj => ?_⟩
      rw [(hnext j).1, (hnext j).2]
      exact hall (j + 1) (Nat.succ_lt_succ hj)

lemma tupleWrites_offsets {host : Host} (h : ∀ i < values.length, EncodesOffset host i ∧
    EncodesOffset host (dataOffset values.length + 8 * i)) {w : Nat × IRValueRef}
    (hw : w ∈ tupleWrites values) : EncodesOffset host w.1 := by
  rcases List.mem_append.mp hw with hw | hw
  · obtain ⟨j, v, hv, -, rfl⟩ := mem_flagWrites.mp hw
    rw [Nat.zero_add]
    exact (h j (index_lt hv)).1
  · obtain ⟨j, v, hv, rfl⟩ := mem_fieldWrites.mp hw
    exact (h j (index_lt hv)).2

lemma tupleWrites_known (h : ∀ v ∈ values, Known p v.valueRef ∧ Known p v.nullRef)
    {w : Nat × IRValueRef} (hw : w ∈ tupleWrites values) : Known p w.2 := by
  rcases List.mem_append.mp hw with hw | hw
  · obtain ⟨j, v, hv, -, rfl⟩ := mem_flagWrites.mp hw
    exact (h v (List.mem_of_getElem? hv)).2
  · obtain ⟨j, v, hv, rfl⟩ := mem_fieldWrites.mp hw
    exact (h v (List.mem_of_getElem? hv)).1

/-- What the code of both does. -/
lemma repack_does (hp : BlockOpen p) (hbase : Known p base)
    (hvalues : ∀ v ∈ values, Known p v.valueRef ∧ Known p v.nullRef)
    (htypes : types.length = values.length) (hsize : tupleSize values.length ≤ 0x7FFFFFFF) :
    ∃ layout result q refs, repack p types base values = some (layout, result, q) ∧
      layout.totalSize = tupleSize values.length ∧
      Does IsAccess (fun host => ∀ i < values.length, EncodesOffset host i ∧
        EncodesOffset host (dataOffset values.length + 8 * i))
        (fun _ e e' => e'.mem = packed e.mem (e.regs base) e.regs values ∧
          (result.map fun v => (e'.regs v.valueRef, e'.regs v.nullRef)) =
            readsFrom e'.mem (e.regs base) values.length (dataOffset values.length) 0) p q refs := by
  have hlen : tupleSize values.length = dataOffset values.length + 8 * values.length := rfl
  have hle := @length_le_dataOffset values.length
  obtain ⟨refs₁, d₁⟩ := @storeSeq_does p base (tupleWrites values) hp hbase fun w hw =>
    ⟨by have hbound := tupleWrites_bound hw; omega, tupleWrites_known hvalues hw⟩
  obtain ⟨refs₂, -, d₂⟩ := @unpackFields_does _ base (dataOffset values.length) 0 types
    d₁.appends.blockOpen (d₁.appends.known hbase) (by omega) (by omega)
  have hpack : p.packTuple base ⟨fieldsFrom types (dataOffset values.length), 0, tupleSize values.length⟩
      values = storeSeq p base (tupleWrites values) := by
    rw [IRProgram.packTuple, packFlags_eq, packFields_eq htypes, tupleWrites, storeSeq, storeSeq,
      storeSeq, List.foldl_append]
  have hlayout := @layout_fits types (by rwa [htypes])
  rw [htypes] at hlayout d₂
  have hrepack : repack p types base values =
      some (⟨fieldsFrom types (dataOffset values.length), 0, tupleSize values.length⟩,
        (storeSeq p base (tupleWrites values)).unpackFields base 0
          (fieldsFrom types (dataOffset values.length)) 0) := by
    rw [repack, hlayout, Option.bind_eq_bind, Option.bind_some, hpack]
    rfl
  generalize (storeSeq p base (tupleWrites values)).unpackFields base 0
    (fieldsFrom types (dataOffset values.length)) 0 = out at hrepack d₂
  refine ⟨_, out.1, out.2, _, hrepack, rfl, (d₁.trans d₂ _ ?_).congr fun host => ?_⟩
  · intro host e e' e'' hkept _ hstored hread
    refine ⟨hread.1.trans hstored, ?_⟩
    rw [hread.2, hread.1, hkept base hbase]
  · rw [forall_readOffsets]
    simp only [Nat.zero_add]
    exact ⟨And.right, fun h => ⟨fun w hw => tupleWrites_offsets h hw, h⟩⟩

lemma nullFlag_cases (hnull : ∀ v ∈ values, v.isNullable = true → env v.nullRef = 0 ∨ env v.nullRef = 1)
    (i : Nat) (v : SQLValue) (hv : values[i]? = some v) : nullFlag env v = 0 ∨ nullFlag env v = 1 := by
  by_cases h : v.isNullable = true
  · rw [nullFlag_of_nullable h]
    exact hnull v (List.mem_of_getElem? hv) h
  · exact .inl (nullFlag_of_not_nullable h)

lemma repack_none (htypes : types.length = values.length)
    (hsize : ¬ tupleSize values.length ≤ 0x7FFFFFFF) : repack p types base values = none := by
  rw [repack, layout_none (by rw [htypes]; omega)]
  rfl

/-- Where the layout fits, the code gives back what it is given exactly if the flags do not meet. -/
lemma roundTrips_iff (hp : BlockOpen p) (hbase : Known p base)
    (hvalues : ∀ v ∈ values, Known p v.valueRef ∧ Known p v.nullRef)
    (htypes : types.length = values.length) (host : Host) (s : HostState)
    (hnull : ∀ v ∈ values, v.isNullable = true →
      startValues p types base values s v.nullRef = 0 ∨
      startValues p types base values s v.nullRef = 1) :
    RoundTrips host p types base values s ↔ Repackable host p types base values s := by
  by_cases hsize : tupleSize values.length ≤ 0x7FFFFFFF
  · obtain ⟨layout, result, q, refs, hrepack, htotal, d⟩ := repack_does hp hbase hvalues htypes hsize
    have hconst := d.appends.noConst fun _ haccess => haccess.2
    obtain ⟨hyes, hno⟩ := d.run (fun _ haccess => haccess.1) hconst host s
    have hstart : s.values (p.translatorSince q) = startValues p types base values s := by
      funext x
      rw [startValues, hrepack]
    rw [hstart] at hyes
    have hflags := nullFlag_cases hnull
    constructor
    · rintro ⟨_, _, _, s', hrepack', hs', hmap, -⟩
      rw [hrepack] at hrepack'
      cases hrepack'
      have henc : ∀ i < values.length, EncodesOffset host i ∧
          EncodesOffset host (dataOffset values.length + 8 * i) := by
        by_contra henc
        rw [hno henc] at hs'
        cases hs'
      obtain ⟨s'', e', hs'', ⟨hmem, hread⟩, hregs, -⟩ := hyes henc
      rw [hs'] at hs''
      cases hs''
      simp only [hregs] at hmap
      rw [hread, hmem, readsFrom_eq_iff] at hmap
      refine ⟨hsize, henc, flagsApart_of_reads hsize hflags fun i v hv => ?_⟩
      have hpair := congrArg Prod.snd (hmap i v hv)
      rwa [Nat.zero_add] at hpair
    · rintro ⟨-, henc, hapart⟩
      obtain ⟨s', e', hs', ⟨hmem, hread⟩, hregs, hmem'⟩ := hyes henc
      refine ⟨layout, result, q, s', hrepack, hs', ?_, fun x hx => ?_⟩
      · simp only [hregs]
        rw [hread, hmem, readsFrom_eq_iff]
        intro i v hv
        rw [Nat.zero_add, reads_of_flagsApart hsize hflags hapart hv]
        refine congrArg (·, _) (Memory.eq_of_byte fun k hk => ?_)
        rw [Memory.byte_load hk, BitVec.add_assoc, ← BitVec.ofNat_add]
        exact packed_field hsize hv hk
      · rw [htotal] at hx
        have haddr : x = startValues p types base values s base +
            BitVec.ofNat 64 (x - startValues p types base values s base).toNat := by
          rw [BitVec.ofNat_toNat, BitVec.setWidth_eq, add_sub_cancel]
        rw [hmem', hmem, haddr]
        exact packed_outside hsize (Int.ofNat_le.mp hx) (BitVec.isLt _)
  · constructor
    · rintro ⟨_, _, _, _, hrepack, -⟩
      rw [repack_none htypes hsize] at hrepack
      cases hrepack
    · intro h
      exact absurd h.size hsize

/-- Unpacking undoes packing exactly if the layout fits into an `int`, the host can add its offsets,
every flag behind the first is unset, and the bytes that are read with the flags and not written
with them are zero. -/
theorem unpack_pack_iff {calls : List BuilderCall} (hbuild : BuilderCall.build calls = some p)
    (hpoint : p.HasInsertionPoint) (hbase : Known p base)
    (hvalues : ∀ v ∈ values, Known p v.valueRef ∧ Known p v.nullRef)
    (htypes : values.map SQLValue.sqlType = types) (host : Host) (s : HostState)
    (hnull : ∀ v ∈ values, v.isNullable = true →
      startValues p types base values s v.nullRef = 0 ∨
      startValues p types base values s v.nullRef = 1) :
    RoundTrips host p types base values s ↔ Repackable host p types base values s :=
  roundTrips_iff ⟨hpoint, (build_cacheFaithful hbuild).offsets⟩ hbase hvalues
    (by rw [← htypes, List.length_map]) host s hnull

/-- A function of a pointer and two values with their flags. -/
def rowCalls : List BuilderCall := [.beginFunction "f" .void
  [("base", .ptr), ("a", .int64), ("a_null", .bool), ("b", .int64), ("b_null", .bool)]]

def firstValue : SQLValue := ⟨.param 0 1, .param 0 2, .bigInt⟩

def secondValue : SQLValue := ⟨.param 0 3, .param 0 4, .bigInt⟩

/-- All registers are one. -/
def ones : HostState := ⟨fun _ => 1, fun _ => 0, (0, 0)⟩

lemma startValues_ones (x : IRValueRef) : startValues p types base values ones x = 1 := by
  unfold startValues
  cases repack p types base values <;> rfl

/-- The flag of the first value is set; the values end in a zero byte. -/
def rowState : HostState where
  regs r := if r = .requested (.param 0 2) then 1 else if r = .requested (.param 0 4) then 0 else 256
  mem _ := 0
  flags := (0, 0)

lemma startValues_rowState : ∀ p, BuilderCall.build rowCalls = some p →
    [firstValue.valueRef, firstValue.nullRef, secondValue.valueRef, secondValue.nullRef].map
      (startValues p [.bigInt, .bigInt] (.param 0 0) [firstValue, secondValue] rowState) =
        [256, 1, 256, 0] := by
  have hbuild : BuilderCall.build rowCalls = some ((BuilderCall.build rowCalls).get (by decide)) :=
    (Option.some_get _).symm
  rintro p hp
  obtain rfl := Option.some.inj (hbuild.symm.trans hp)
  decide +kernel

lemma repackable_row {p : IRProgram} (hp : BuilderCall.build rowCalls = some p) :
    Repackable .arm64 p [.bigInt, .bigInt] (.param 0 0) [firstValue, secondValue] rowState where
  size := by decide
  offsets i hi := by
    have hcases : i = 0 ∨ i = 1 := Nat.le_one_iff_eq_zero_or_eq_one.mp (Nat.lt_succ_iff.mp hi)
    rcases hcases with rfl | rfl
    · exact ⟨.inl rfl, .inr (by decide)⟩
    · exact ⟨.inr (by decide), .inr (by decide)⟩
  apart := by
    have hstart := startValues_rowState p hp
    simp only [List.map_cons, List.map_nil, List.cons.injEq, and_true] at hstart
    obtain ⟨hvalue, hset, -, hclear⟩ := hstart
    constructor
    · intro i v hpos hv
      have hi : i < 2 := index_lt hv
      obtain rfl : i = 1 := by omega
      cases hv
      rw [nullFlag_of_nullable rfl]
      exact hclear
    · intro k v hle hk hv
      -- byte 8 is read with the second flag
      have hle' : 8 ≤ k := hle
      have hk' : k < 9 := hk
      obtain rfl : k = 8 := by omega
      cases hv
      rw [hvalue]
      decide
    · intro k hk hfree
      exact absurd ⟨Nat.zero_le k, hk⟩ (hfree 0 firstValue rfl rfl)

theorem unpack_pack_iff_row : ∃ p, BuilderCall.build rowCalls = some p ∧
    [firstValue, secondValue].map (nullFlag (startValues p [.bigInt, .bigInt] (.param 0 0)
      [firstValue, secondValue] rowState)) = [1, 0] ∧
    RoundTrips .arm64 p [.bigInt, .bigInt] (.param 0 0) [firstValue, secondValue] rowState := by
  have hbuild : BuilderCall.build rowCalls = some ((BuilderCall.build rowCalls).get (by decide)) :=
    (Option.some_get _).symm
  have hbase : Known ((BuilderCall.build rowCalls).get (by decide)) (.param 0 0) := trivial
  have hvalues : ∀ v ∈ [firstValue, secondValue],
      Known ((BuilderCall.build rowCalls).get (by decide)) v.valueRef ∧
      Known ((BuilderCall.build rowCalls).get (by decide)) v.nullRef :=
    List.forall_mem_cons.mpr ⟨⟨trivial, trivial⟩, List.forall_mem_singleton.mpr ⟨trivial, trivial⟩⟩
  have hstart := startValues_rowState _ hbuild
  simp only [List.map_cons, List.map_nil, List.cons.injEq, and_true] at hstart
  obtain ⟨-, hset, -, hclear⟩ := hstart
  refine ⟨_, hbuild, ?_, (unpack_pack_iff hbuild (by decide) hbase hvalues rfl .arm64 rowState
    fun v hv _ => ?_).mpr (repackable_row hbuild)⟩
  · rw [List.map_cons, List.map_cons, List.map_nil, nullFlag_of_nullable rfl,
      nullFlag_of_nullable rfl, hclear, hset]
  · rcases List.mem_pair.mp hv with rfl | rfl
    · exact .inr hset
    · exact .inl hclear

/-- The second flag is also read as part of the first. -/
theorem unpack_pack_overlap : ¬ ∀ calls p, BuilderCall.build calls = some p → p.HasInsertionPoint →
    ∀ types base values, Known p base → (∀ v ∈ values, Known p v.valueRef ∧ Known p v.nullRef) →
      values.map SQLValue.sqlType = types → ∀ host s,
      (∀ v ∈ values, v.isNullable = true → startValues p types base values s v.nullRef = 0 ∨
        startValues p types base values s v.nullRef = 1) →
      RoundTrips host p types base values s := by
  intro h
  have hbuild : BuilderCall.build rowCalls = some ((BuilderCall.build rowCalls).get (by decide)) :=
    (Option.some_get _).symm
  have hknown : ∀ v ∈ [firstValue, secondValue],
      Known ((BuilderCall.build rowCalls).get (by decide)) v.valueRef ∧
      Known ((BuilderCall.build rowCalls).get (by decide)) v.nullRef :=
    List.forall_mem_cons.mpr ⟨⟨trivial, trivial⟩, List.forall_mem_singleton.mpr ⟨trivial, trivial⟩⟩
  have hbase : Known ((BuilderCall.build rowCalls).get (by decide)) (.param 0 0) := trivial
  have htrips := h _ _ hbuild (by decide) [.bigInt, .bigInt] (.param 0 0) [firstValue, secondValue]
    hbase hknown rfl .x86 ones fun v _ _ => .inr (startValues_ones _)
  have hopen : BlockOpen ((BuilderCall.build rowCalls).get (by decide)) :=
    ⟨by decide, (build_cacheFaithful hbuild).offsets⟩
  have hapart := ((roundTrips_iff hopen hbase hknown rfl .x86 ones
    fun v _ _ => .inr (startValues_ones _)).mp htrips).apart
  have hflag := hapart.flags 1 secondValue (by decide) rfl
  rw [nullFlag_of_nullable rfl, startValues_ones] at hflag
  exact absurd hflag (by decide)

end

end Proofs

end TidyTuples
