import TidyTuples.Proofs.Layout
import TidyTuples.Proofs.HashTables

/-!
# The push semantics computes the list semantics

A consumer accumulates the rows it is given; an operator tree hands its consumer the rows of its
list semantics, one by one and in order.
-/

namespace TidyTuples

namespace Operator

/-- Every column holds `numRows` values, joins keep to the limits of the hash table, and no loop
index overflows. -/
def Fits : Operator → Prop
  | scan s => s.table.numRows < 2 ^ 63 ∧
      ∀ col ∈ s.table.columns, col.values.length = s.table.numRows
  | select _ child _ => child.Fits
  | hashJoin _ build probe buildKeys probeKeys _ => build.Fits ∧ probe.Fits ∧
      buildKeys.length = probeKeys.length ∧ buildKeys.length ≤ 4 ∧
      (payloadIUs build.outputIUs buildKeys).length ≤ 4 ∧ build.rows.length < 2 ^ 63

/-- The columns are in memory; the hash tables are laid out and empty. -/
def Prepared : Operator → Heap → Prop
  | scan s, heap => ∀ col ∈ s.table.columns, heap.columns col.address = col.values
  | select _ child _, heap => child.Prepared heap
  | hashJoin _ build probe buildKeys _ hashTable, heap =>
      build.Prepared heap ∧ probe.Prepared heap ∧
      (heap.hashTables hashTable).buckets = (fun _ => []) ∧
      (heap.hashTables hashTable).numKeyFields = buildKeys.length ∧
      (heap.hashTables hashTable).numPayloadFields = (payloadIUs build.outputIUs buildKeys).length

end Operator

namespace Proofs

/-- Memory is the same but for these hash tables and the printed rows. -/
structure SameOutside (tables : List Word) (heap heap' : Heap) : Prop where
  columns : heap'.columns = heap.columns
  hashTables : ∀ ht ∉ tables, heap'.hashTables ht = heap.hashTables ht

lemma SameOutside.refl (tables : List Word) (heap : Heap) : SameOutside tables heap heap :=
  ⟨rfl, fun _ _ => rfl⟩

lemma SameOutside.trans {tables : List Word} {heap heap' heap'' : Heap}
    (h : SameOutside tables heap heap') (h' : SameOutside tables heap' heap'') :
    SameOutside tables heap heap'' :=
  ⟨h'.columns.trans h.columns, fun ht hnot => (h'.hashTables ht hnot).trans (h.hashTables ht hnot)⟩

lemma SameOutside.mono {tables tables' : List Word} {heap heap' : Heap}
    (h : SameOutside tables heap heap') (hsub : ∀ ht ∈ tables, ht ∈ tables') :
    SameOutside tables' heap heap' :=
  ⟨h.columns, fun ht hnot => h.hashTables ht fun hmem => hnot (hsub ht hmem)⟩

lemma sameOutside_setHashTable (heap : Heap) (ht : Word) (table : RuntimeHashTable) :
    SameOutside [ht] heap (heap.setHashTable ht table) :=
  ⟨rfl, fun ht' hnot => Function.update_of_ne (fun heq => hnot (by simp [heq])) _ _⟩

@[simp] lemma setHashTable_self (heap : Heap) (ht : Word) (table : RuntimeHashTable) :
    (heap.setHashTable ht table).hashTables ht = table := Function.update_self ..

lemma SameOutside.prepared {op : Operator} {tables : List Word} {heap heap' : Heap}
    (h : SameOutside tables heap heap') (hdis : ∀ ht ∈ op.tables, ht ∉ tables)
    (hp : op.Prepared heap) : op.Prepared heap' := by
  induction op with
  | scan scan =>
    intro col hcol
    rw [h.columns]
    exact hp col hcol
  | select id child pred ih => exact ih hdis hp
  | hashJoin id build probe buildKeys probeKeys ht ihb ihp =>
    obtain ⟨hb, hpr, hrest⟩ := hp
    have hown := h.hashTables ht (hdis ht List.mem_cons_self)
    refine ⟨ihb (fun ht' hmem => hdis ht' (List.mem_cons_of_mem ht (List.mem_append_left _ hmem))) hb,
      ihp (fun ht' hmem => hdis ht' (List.mem_cons_of_mem ht (List.mem_append_right _ hmem))) hpr, ?_⟩
    rw [hown]
    exact hrest

/-- The consumer adds each row over `ius` to the rows memory `Has`. It changes its `own` tables
and does not look at the `inner` ones. -/
structure Accumulates (own inner : List Word) (ius : List IU) (effect : Effect)
    (Has : List Row → Heap → Prop) : Prop where
  step : ∀ rows row heap, row.Over ius → Has rows heap →
    ∃ heap', effect row heap = some heap' ∧ Has (rows ++ [row]) heap' ∧ SameOutside own heap heap'
  frame : ∀ rows heap heap', Has rows heap → SameOutside inner heap heap' →
    heap'.rows = heap.rows → Has rows heap'

/-! ### Scans -/

lemma colIUs_ids (scan : ScanTranslator) :
    scan.colIUs.map IU.id = List.range' scan.firstIU scan.table.columns.length := by
  apply List.ext_getElem
  · simp [ScanTranslator.colIUs]
  · intro i h₁ h₂
    simp [ScanTranslator.colIUs]

lemma scan_row_over {scan : ScanTranslator} {i : Nat}
    (hcols : ∀ col ∈ scan.table.columns, col.values.length = scan.table.numRows)
    (hi : i < scan.table.numRows) : (scan.row i).Over scan.colIUs := by
  intro id
  rw [colIUs_ids, List.mem_range'_1, ScanTranslator.row]
  by_cases hlt : id < scan.firstIU
  · simp [hlt]
  rw [if_neg hlt]
  by_cases hin : id - scan.firstIU < scan.table.columns.length
  · have hlen := hcols _ (List.getElem_mem hin)
    rw [List.getElem?_eq_getElem hin, Option.bind_some, List.getElem?_eq_getElem (by omega)]
    simp
    omega
  · rw [List.getElem?_eq_none (by omega)]
    simp
    omega

lemma loadColumnValue_eq {heap : Heap} {addr : Word} {values : List Word} {i : Nat}
    (hmem : heap.columns addr = values) (hi : i < values.length) (hlt : i < 2 ^ 63) :
    loadColumnValue heap addr (BitVec.ofNat 64 i) = some values[i] := by
  have hnat : (BitVec.ofNat 64 i).toNat = i := by
    rw [BitVec.toNat_ofNat]
    omega
  have hint : (BitVec.ofNat 64 i).toInt = i := by
    rw [BitVec.toInt_eq_toNat_of_lt (by rw [hnat]; omega), hnat]
  rw [loadColumnValue, hint, hmem, readVector, if_neg (by omega), Int.toNat_natCast,
    List.getElem?_eq_getElem hi]

/-- The loads bind the columns one after the other. -/
lemma loadColumns_bind {heap : Heap} {i : Nat} (name : Column → String) {cols : List Column}
    (hcols : ∀ col ∈ cols, i < col.values.length)
    (hmem : ∀ col ∈ cols, heap.columns col.address = col.values) (hlt : i < 2 ^ 63) (first : Nat)
    (row : Row) : ScanTranslator.loadColumns heap i
        ((cols.mapIdx fun j c => (⟨name c, c.type, first + j⟩ : IU)).zip cols) row =
      some fun id => if first ≤ id ∧ id - first < cols.length then
        (cols[id - first]?).bind (·.values[i]?) else row id := by
  induction cols generalizing first row with
  | nil => simp [ScanTranslator.loadColumns]
  | cons c rest ih =>
    have hc := hcols c List.mem_cons_self
    have hrest := ih (fun col hcol => hcols col (List.mem_cons_of_mem c hcol))
      (fun col hcol => hmem col (List.mem_cons_of_mem c hcol)) (first + 1)
      (row.bind ⟨name c, c.type, first⟩ c.values[i])
    have hidx : (List.mapIdx (fun j c => (⟨name c, c.type, first + (j + 1)⟩ : IU)) rest) =
        List.mapIdx (fun j c => (⟨name c, c.type, first + 1 + j⟩ : IU)) rest := by
      simp only [Nat.add_assoc, Nat.add_comm 1]
    rw [List.mapIdx_cons, List.zip_cons_cons, ScanTranslator.loadColumns,
      loadColumnValue_eq (hmem c List.mem_cons_self) hc hlt, hidx]
    refine (hrest : _).trans (congrArg some ?_)
    funext id
    rcases Nat.lt_trichotomy id first with hlt' | heq | hgt
    · rw [if_neg (by omega), if_neg (by omega), Row.bind, Function.update_of_ne (by simpa using hlt'.ne)]
    · subst heq
      rw [if_neg (by omega), if_pos (by simp)]
      simp [Row.bind, List.getElem?_eq_getElem hc]
    · obtain ⟨k, rfl⟩ := Nat.exists_eq_add_of_lt hgt
      have hk : first + k + 1 - first = k + 1 := by omega
      have hk' : first + k + 1 - (first + 1) = k := by omega
      rw [hk, hk', List.getElem?_cons_succ]
      by_cases hin : k < rest.length
      · rw [if_pos (by omega), if_pos (by simp; omega)]
      · rw [if_neg (by omega), if_neg (by simp; omega), Row.bind,
          Function.update_of_ne (by simp; omega)]

lemma loadColumns_eq {scan : ScanTranslator} {heap : Heap} {i : Nat}
    (hcols : ∀ col ∈ scan.table.columns, col.values.length = scan.table.numRows)
    (hmem : ∀ col ∈ scan.table.columns, heap.columns col.address = col.values)
    (hi : i < scan.table.numRows) (hlt : scan.table.numRows < 2 ^ 63) :
    ScanTranslator.loadColumns heap i (scan.colIUs.zip scan.table.columns) (fun _ => none) =
      some (scan.row i) := by
  have h := loadColumns_bind (fun c => scan.table.name ++ "." ++ c.name)
    (fun col hcol => by rw [hcols col hcol]; exact hi) hmem (by omega) scan.firstIU fun _ => none
  refine h.trans (congrArg some ?_)
  funext id
  rw [ScanTranslator.row]
  by_cases hlt : id < scan.firstIU
  · rw [if_pos hlt, if_neg (by omega)]
  · rw [if_neg hlt]
    split_ifs with hin
    · rfl
    · rw [List.getElem?_eq_none (by omega)]
      rfl

/-- A loop that hands its consumer the rows `row 0, ..., row (n - 1)`. -/
lemma countedEffect_accumulates {own inner : List Word} {ius : List IU} {effect : Effect}
    {Has : List Row → Heap → Prop} (hacc : Accumulates own inner ius effect Has) {n : Nat}
    (hn : n < 2 ^ 63) (row : Nat → Row) (hover : ∀ i < n, (row i).Over ius)
    {body : Nat → Heap → Option Heap} {heap : Heap}
    (hbody : ∀ i < n, ∀ heap', SameOutside own heap heap' → body i heap' = effect (row i) heap')
    {rows : List Row} (h : Has rows heap) :
    ∃ heap', countedEffect n body heap = some heap' ∧ Has (rows ++ (List.range n).map row) heap' ∧
      SameOutside own heap heap' := by
  rw [countedEffect, if_pos hn]
  apply Bucketed.foldlM_range_of_invariant
    (I := fun i heap' => Has (rows ++ (List.range i).map row) heap' ∧ SameOutside own heap heap')
  · rintro i hi heap₁ ⟨hhas, hsame⟩
    obtain ⟨heap₂, hrun, hhas₂, hsame₂⟩ := hacc.step _ (row i) heap₁ (hover i hi) hhas
    refine ⟨heap₂, by rw [hbody i hi heap₁ hsame, hrun], ?_, hsame.trans hsame₂⟩
    rw [List.range_succ, List.map_append, ← List.append_assoc]
    exact hhas₂
  · simpa using ⟨h, SameOutside.refl own heap⟩

lemma scan_accumulates {scan : ScanTranslator} {own : List Word} {effect : Effect}
    {Has : List Row → Heap → Prop} {heap : Heap} (hfits : (Operator.scan scan).Fits)
    (hp : (Operator.scan scan).Prepared heap)
    (hacc : Accumulates own [] scan.colIUs effect Has) (h : Has [] heap) :
    ∃ heap', scan.effect effect heap = some heap' ∧ Has (Operator.scan scan).rows heap' ∧
      SameOutside own heap heap' := by
  obtain ⟨hlt, hcols⟩ := hfits
  refine countedEffect_accumulates hacc hlt scan.row (fun i hi => scan_row_over hcols hi) ?_ h
  intro i hi heap' hsame
  rw [loadColumns_eq hcols (fun col hcol => by rw [hsame.columns]; exact hp col hcol) hi hlt]
  rfl

/-! ### Filters -/

lemma exists_eval {resolve : ColumnRef → Except CppError IU} {ius : List IU} {row : Row}
    (hrow : row.Over ius) {e : Expr} (h : e.ResolvesIn resolve ius) :
    ∃ w, e.eval resolve row = some w := by
  induction e with
  | colRef ref =>
    obtain ⟨iu, hres, hiu⟩ := h
    rw [Expr.eval, hres]
    exact Option.isSome_iff_exists.mp ((hrow iu.id).mpr hiu)
  | intLit n => exact ⟨n, rfl⟩
  | binOp op l r ihl ihr =>
    obtain ⟨a, ha⟩ := ihl h.1
    obtain ⟨b, hb⟩ := ihr h.2
    exact ⟨op.eval a b, by rw [Expr.eval, ha, hb]; rfl⟩

lemma exists_value {pred : Predicate} {ius : List IU} {row : Row} (hrow : row.Over ius)
    (h : pred.ResolvesIn ius) : ∃ w, pred.value row = some w := by
  obtain ⟨hne, hres⟩ := h
  have hrest : ∀ es : List Expr, (∀ e ∈ es, e.ResolvesIn pred.resolveColumn ius) →
      ∀ w₀, ∃ w, pred.restValue row es w₀ = some w := by
    intro es
    induction es with
    | nil => exact fun _ w₀ => ⟨w₀, rfl⟩
    | cons e rest ih =>
      intro hes w₀
      obtain ⟨w₁, hw₁⟩ := exists_eval hrow (hes e List.mem_cons_self)
      obtain ⟨w, hw⟩ := ih (fun e' he' => hes e' (List.mem_cons_of_mem e he')) (BinOpKind.and.eval w₀ w₁)
      exact ⟨w, by rw [Predicate.restValue, hw₁]; exact hw⟩
  unfold Predicate.value
  cases hc : pred.conjuncts with
  | nil => exact absurd hc hne
  | cons e rest =>
    rw [hc] at hres
    obtain ⟨w₀, hw₀⟩ := exists_eval hrow (hres e List.mem_cons_self)
    obtain ⟨w, hw⟩ := hrest rest (fun e' he' => hres e' (List.mem_cons_of_mem e he')) w₀
    exact ⟨w, by simp only [hw₀]; exact hw⟩

lemma holds_of_value {pred : Predicate} {row : Row} {w : Word} (hw : pred.value row = some w) :
    pred.holds row = (w != 0) := by
  rw [Predicate.holds, hw]
  rfl

lemma select_accumulates {pred : Predicate} {own inner : List Word} {ius : List IU}
    {effect : Effect} {Has : List Row → Heap → Prop} (hres : pred.ResolvesIn ius)
    (hacc : Accumulates own inner ius effect Has) :
    Accumulates own inner ius (selectEffect pred effect) fun rows => Has (rows.filter pred.holds) := by
  refine ⟨fun rows row heap hrow h => ?_, fun rows heap heap' h => hacc.frame _ heap heap' h⟩
  obtain ⟨w, hw⟩ := exists_value hrow hres
  have hholds := holds_of_value hw
  simp only [selectEffect, hw, List.filter_append]
  by_cases hzero : w = 0
  · have hskip : pred.holds row = false := by rw [hholds, hzero]; rfl
    refine ⟨heap, if_pos hzero, ?_, .refl own heap⟩
    rw [List.filter_cons_of_neg (by rw [hskip]; simp), List.filter_nil, List.append_nil]
    exact h
  · have hkeep : pred.holds row = true := by rw [hholds]; exact bne_iff_ne.mpr hzero
    obtain ⟨heap', hrun, hhas, hsame⟩ := hacc.step _ row heap hrow h
    refine ⟨heap', (if_neg hzero).trans hrun, ?_, hsame⟩
    rw [List.filter_cons_of_pos hkeep, List.filter_nil]
    exact hhas

/-! ### Joins -/

/-- Keys and payload are the build side's IUs. -/
lemma mem_keys_or_payload {outputs buildKeys : List IU}
    (hkeys : ∀ iu ∈ buildKeys, iu.id ∈ outputs.map IU.id) (id : Nat) :
    id ∈ outputs.map IU.id ↔ id ∈ buildKeys.map IU.id ∨
      id ∈ (Operator.payloadIUs outputs buildKeys).map IU.id := by
  constructor
  · intro h
    obtain ⟨iu, hiu, rfl⟩ := List.mem_map.mp h
    by_cases hkey : iu ∈ buildKeys
    · exact .inl (List.mem_map_of_mem hkey)
    · exact .inr (List.mem_map_of_mem (List.mem_filter.mpr ⟨hiu, by simpa using hkey⟩))
  · rintro (h | h)
    · obtain ⟨iu, hiu, rfl⟩ := List.mem_map.mp h
      exact hkeys iu hiu
    · obtain ⟨iu, hiu, rfl⟩ := List.mem_map.mp h
      exact List.mem_map_of_mem (List.mem_of_mem_filter hiu)

lemma merge_over {outputs buildKeys ius : List IU} {b p : Row} (hb : b.Over outputs)
    (hp : p.Over ius) (hkeys : ∀ iu ∈ buildKeys, iu.id ∈ outputs.map IU.id) :
    (b.merge p).Over (ius ++ buildKeys ++ Operator.payloadIUs outputs buildKeys) := by
  intro id
  have hbuild := hb id
  rw [mem_keys_or_payload hkeys] at hbuild
  rw [Row.merge, Option.isSome_or, Bool.or_eq_true, hbuild, hp id, List.map_append,
    List.map_append, List.mem_append, List.mem_append]
  tauto

lemma rows_over (op : Operator) (hs : op.Scoped) (hf : op.Fits) :
    ∀ row ∈ op.rows, row.Over op.outputIUs := by
  induction op with
  | scan scan =>
    intro row hrow
    obtain ⟨i, hi, rfl⟩ := List.mem_map.mp hrow
    exact scan_row_over hf.2 (List.mem_range.mp hi)
  | select id child pred ih => exact fun row hrow => ih hs.1 hf row (List.mem_of_mem_filter hrow)
  | hashJoin id build probe buildKeys probeKeys ht ihb ihp =>
    intro row hrow
    obtain ⟨p, hp, hrow⟩ := List.mem_flatMap.mp hrow
    obtain ⟨b, hb, rfl⟩ := List.mem_map.mp hrow
    exact merge_over (ihb hs.1 hf.1 b (List.mem_of_mem_filter hb)) (ihp hs.2.1 hf.2.1 p hp) hs.2.2.1

section

variable (arch : Arch) (j : HashJoinTranslator)

/-- The entry of a build row. -/
def entryOf (b : Row) : HTEntry :=
  ⟨(b.words j.buildKeys).getD [], (b.words j.buildPayloadIUs).getD []⟩

def bucketOfEntry (e : HTEntry) : Fin numBuckets :=
  RuntimeHashTable.bucketOf (arch.hashWords e.keyData)

/-- The join's table holds the entries of these build rows. -/
structure TableHolds (rows : List Row) (heap : Heap) : Prop where
  buckets : (heap.hashTables j.hashTable).buckets =
    Bucketed.group (bucketOfEntry arch) (rows.map (entryOf j))
  numKeyFields : (heap.hashTables j.hashTable).numKeyFields = j.buildKeys.length
  numPayloadFields : (heap.hashTables j.hashTable).numPayloadFields = j.buildPayloadIUs.length

variable {arch j}

lemma TableHolds.same {rows : List Row} {heap heap' : Heap} (h : TableHolds arch j rows heap)
    (hsame : heap'.hashTables j.hashTable = heap.hashTables j.hashTable) :
    TableHolds arch j rows heap' :=
  ⟨by rw [hsame]; exact h.buckets, by rw [hsame]; exact h.numKeyFields,
    by rw [hsame]; exact h.numPayloadFields⟩

lemma entryOf_eq {b : Row} {keys payload : List Word} (hk : b.words j.buildKeys = some keys)
    (hp : b.words j.buildPayloadIUs = some payload) : entryOf j b = ⟨keys, payload⟩ := by
  rw [entryOf, hk, hp]
  rfl

/-- What the build side outputs fits into the slots of the trampolines. -/
structure JoinFits (j : HashJoinTranslator) (outputs : List IU) : Prop where
  keys : ∀ iu ∈ j.buildKeys, iu.id ∈ outputs.map IU.id
  payload : j.buildPayloadIUs = Operator.payloadIUs outputs j.buildKeys
  keys_le : j.buildKeys.length ≤ 4
  payload_le : j.buildPayloadIUs.length ≤ 4

lemma JoinFits.words {outputs : List IU} (h : JoinFits j outputs) {b : Row} (hb : b.Over outputs) :
    ∃ keys payload, b.words j.buildKeys = some keys ∧ b.words j.buildPayloadIUs = some payload ∧
      keys.length = j.buildKeys.length ∧ payload.length = j.buildPayloadIUs.length := by
  obtain ⟨keys, hkw⟩ := exists_words hb _ h.keys
  obtain ⟨payload, hpw⟩ := exists_words hb j.buildPayloadIUs fun iu hiu => by
    rw [h.payload] at hiu
    exact List.mem_map_of_mem (List.mem_of_mem_filter hiu)
  exact ⟨keys, payload, hkw, hpw, words_length hkw, words_length hpw⟩

variable (arch) in
/-- The build side fills the table and leaves alone what else memory has. -/
lemma insert_accumulates {inner : List Word} {outputs : List IU} (Outer : Heap → Prop)
    (hfits : JoinFits j outputs) (hnot : j.hashTable ∉ inner)
    (hframe : ∀ heap heap', Outer heap → SameOutside (j.hashTable :: inner) heap heap' →
      heap'.rows = heap.rows → Outer heap') :
    Accumulates [j.hashTable] inner outputs (j.insertEffect arch)
      fun rows heap => TableHolds arch j rows heap ∧ Outer heap := by
  constructor
  · rintro rows row heap hrow ⟨htable, houter⟩
    obtain ⟨keys, payload, hkw, hpw, hklen, hplen⟩ := hfits.words hrow
    have hk4 := hfits.keys_le
    have hp4 := hfits.payload_le
    have hins := insertFn_eq (arch.hashWords keys) (htable.numKeyFields.trans hklen.symm)
      (htable.numPayloadFields.trans hplen.symm)
    rw [if_pos ⟨by omega, by omega⟩] at hins
    have hsame := sameOutside_setHashTable heap j.hashTable (insertEntry (heap.hashTables j.hashTable)
      (arch.hashWords keys) ⟨keys, payload⟩)
    refine ⟨_, ?_, ⟨⟨?_, ?_, ?_⟩, hframe _ _ houter (hsame.mono (by simp)) rfl⟩, hsame⟩
    · simp only [HashJoinTranslator.insertEffect, hkw, hpw]
      exact hins
    · rw [setHashTable_self, List.map_append, List.map_singleton, Bucketed.group_append_singleton,
        entryOf_eq hkw hpw, ← htable.buckets]
      rfl
    · rw [setHashTable_self]
      exact htable.numKeyFields
    · rw [setHashTable_self]
      exact htable.numPayloadFields
  · rintro rows heap heap' ⟨htable, houter⟩ hsame hrows
    exact ⟨htable.same (hsame.hashTables _ hnot),
      hframe _ _ houter (hsame.mono fun ht hmem => List.mem_cons_of_mem _ hmem) hrows⟩

/-- The matches of a probe row. -/
def matchesOf (j : HashJoinTranslator) (rows : List Row) (p : Row) : List Row :=
  rows.filter fun b => b.values j.buildKeys = p.values j.probeKeys

lemma matchRow_eq {outputs : List IU} (hfits : JoinFits j outputs) {b p : Row}
    (hb : b.Over outputs) {heap : Heap} {i : Nat} (hi : i < 2 ^ 63)
    (he : (heap.hashTables j.hashTable).matchBuffer[i]? = some (entryOf j b)) :
    j.matchRow p heap i = some (b.merge p) := by
  obtain ⟨keys, payload, hkw, hpw, hklen, hplen⟩ := hfits.words hb
  have hk4 := hfits.keys_le
  have hp4 := hfits.payload_le
  have hnat : (BitVec.ofNat 64 i).toNat = i := by
    rw [BitVec.toNat_ofNat]
    omega
  have hint : (BitVec.ofNat 64 i).toInt = i := by
    rw [BitVec.toInt_eq_toNat_of_lt (by rw [hnat]; omega), hnat]
  have hentry : (heap.hashTables j.hashTable).matchAt (BitVec.ofNat 64 i) = some ⟨keys, payload⟩ := by
    rw [RuntimeHashTable.matchAt, hint, if_neg (by omega), Int.toNat_natCast, he,
      entryOf_eq hkw hpw]
  have hbk := bindWords_eq p [] hkw (by rw [List.nil_append]; omega)
  rw [List.nil_append, List.length_nil] at hbk
  have hbp := bindWords_eq (fun id => if id ∈ j.buildKeys.map IU.id then b id else p id) [] hpw
    (by rw [List.nil_append]; omega)
  rw [List.nil_append, List.length_nil] at hbp
  simp only [HashJoinTranslator.matchRow, hentry]
  change (HashJoinTranslator.bindWords keys 0 j.buildKeys p).bind
    (HashJoinTranslator.bindWords payload 0 j.buildPayloadIUs) = _
  rw [hbk, Option.bind_some, hbp]
  apply congrArg some
  funext id
  have hover := hb id
  rw [mem_keys_or_payload hfits.keys, ← hfits.payload] at hover
  rw [Row.merge]
  by_cases hin : id ∈ j.buildKeys.map IU.id ∨ id ∈ j.buildPayloadIUs.map IU.id
  · obtain ⟨w, hw⟩ := Option.isSome_iff_exists.mp (hover.mpr hin)
    simp only [hw, Option.some_or]
    split_ifs with h₁ h₂
    · rfl
    · rfl
    · exact absurd hin (not_or.mpr ⟨h₂, h₁⟩)
  · have hnone : b id = none := Option.not_isSome_iff_eq_none.mp (mt hover.mp hin)
    obtain ⟨h₁, h₂⟩ := not_or.mp hin
    rw [if_neg h₂, if_neg h₁, hnone, Option.none_or]

/-- A lookup finds the entries of the matches, in the order of their insertion. -/
lemma lookup_matches {outputs : List IU} (hfits : JoinFits j outputs)
    (hlen : j.buildKeys.length = j.probeKeys.length) {rows : List Row} {heap : Heap}
    (hrows : ∀ b ∈ rows, b.Over outputs) (htable : TableHolds arch j rows heap) {p : Row}
    {keys : List Word} (hkw : p.words j.probeKeys = some keys) :
    lookupAllFn heap (padTo (2 + 4) 0 ([j.hashTable, arch.hashWords keys] ++ keys)) =
      some (j.hashTable, heap.setHashTable j.hashTable { heap.hashTables j.hashTable with
        matchBuffer := (matchesOf j rows p).map (entryOf j) }) := by
  have hklen := words_length hkw
  have hk4 := hfits.keys_le
  have hkeyLen : ∀ e ∈ rows.map (entryOf j), e.keyData.length = keys.length := by
    intro e he
    obtain ⟨b, hb, rfl⟩ := List.mem_map.mp he
    obtain ⟨bkeys, payload, hbk, hbp, hbklen, -⟩ := hfits.words (hrows b hb)
    rw [entryOf_eq hbk hbp, hbklen, hlen, hklen]
  have hfound : (Bucketed.group (bucketOfEntry arch) (rows.map (entryOf j))
      (RuntimeHashTable.bucketOf (arch.hashWords keys))).filter (fun e => e.keyData = keys) =
        (matchesOf j rows p).map (entryOf j) := by
    rw [Bucketed.filter_group _ fun e _ he => by rw [bucketOfEntry, of_decide_eq_true he],
      List.filter_map, matchesOf]
    apply congrArg (List.map (entryOf j))
    refine List.filter_congr fun b hb => ?_
    obtain ⟨bkeys, payload, hbk, hbp, -⟩ := hfits.words (hrows b hb)
    rw [Function.comp_apply, entryOf_eq hbk hbp, values_of_words hbk, values_of_words hkw]
    simp only [(List.map_injective_iff.mpr (Option.some_injective Word)).eq_iff]
  rw [lookupAllFn_eq (by rw [htable.numKeyFields, hlen, hklen]) (by omega) ?_, htable.buckets, hfound]
  intro e he
  rw [htable.buckets] at he
  exact hkeyLen e (List.mem_of_mem_filter he)

variable (arch) in
/-- The probe side hands on every match, merged with the probe row. -/
lemma probe_accumulates {own inner : List Word} {outputs ius : List IU} {effect : Effect}
    {Has : List Row → Heap → Prop} {buildRows : List Row} (hfits : JoinFits j outputs)
    (hlen : j.buildKeys.length = j.probeKeys.length)
    (hkeys : ∀ iu ∈ j.probeKeys, iu.id ∈ ius.map IU.id) (hrows : ∀ b ∈ buildRows, b.Over outputs)
    (hcount : buildRows.length < 2 ^ 63) (hown : j.hashTable ∉ own) (hnot : j.hashTable ∉ inner)
    (hacc : Accumulates own (j.hashTable :: inner) (ius ++ j.buildKeys ++ j.buildPayloadIUs) effect Has) :
    Accumulates (j.hashTable :: own) inner ius (j.probeEffect arch effect) fun rows heap =>
      TableHolds arch j buildRows heap ∧
        Has (rows.flatMap fun p => (matchesOf j buildRows p).map fun b => b.merge p) heap := by
  constructor
  · rintro rows row heap hrow ⟨htable, hhas⟩
    obtain ⟨keys, hkw⟩ := exists_words hrow _ hkeys
    have hlookup := lookup_matches hfits hlen hrows htable hkw
    have hsame := sameOutside_setHashTable heap j.hashTable { heap.hashTables j.hashTable with
      matchBuffer := (matchesOf j buildRows row).map (entryOf j) }
    generalize hheap₁ : heap.setHashTable j.hashTable _ = heap₁ at hlookup hsame
    have hbuffer : (heap₁.hashTables j.hashTable).matchBuffer =
        (matchesOf j buildRows row).map (entryOf j) := by
      rw [← hheap₁, setHashTable_self]
    have htable₁ : TableHolds arch j buildRows heap₁ := by
      refine ⟨?_, ?_, ?_⟩ <;> rw [← hheap₁, setHashTable_self]
      · exact htable.buckets
      · exact htable.numKeyFields
      · exact htable.numPayloadFields
    have hhas₁ := hacc.frame _ heap heap₁ hhas (hsame.mono (by simp)) (by rw [← hheap₁]; rfl)
    have hmatches : (matchesOf j buildRows row).length ≤ buildRows.length := List.length_filter_le _ _
    have hmem : ∀ i, (hi : i < (matchesOf j buildRows row).length) →
        ((matchesOf j buildRows row)[i]).Over outputs := fun i hi =>
      hrows _ (List.mem_of_mem_filter (List.getElem_mem hi))
    let merged : Nat → Row := fun i => ((matchesOf j buildRows row).getD i fun _ => none).merge row
    have hbody : ∀ i < (matchesOf j buildRows row).length, ∀ heap', SameOutside own heap₁ heap' →
        (do effect (← j.matchRow row heap' i) heap') = effect (merged i) heap' := by
      intro i hi heap' hsame'
      have he : (heap'.hashTables j.hashTable).matchBuffer[i]? =
          some (entryOf j (matchesOf j buildRows row)[i]) := by
        rw [hsame'.hashTables _ hown, hbuffer, List.getElem?_map, List.getElem?_eq_getElem hi]
        rfl
      rw [matchRow_eq hfits (hmem i hi) (by omega) he]
      simp [merged, hi]
    obtain ⟨heap₂, hrun, hhas₂, hsame₂⟩ := countedEffect_accumulates hacc
      (n := (matchesOf j buildRows row).length) (by omega) merged (fun i hi => by
        have hover := merge_over (hmem i hi) hrow hfits.keys
        rw [← hfits.payload] at hover
        simpa [merged, hi] using hover) hbody hhas₁
    refine ⟨heap₂, ?_, ⟨htable₁.same (hsame₂.hashTables _ hown), ?_⟩, ?_⟩
    · simp only [HashJoinTranslator.probeEffect, hkw, Option.bind_eq_bind, Option.bind_some]
      rw [hlookup]
      change countedEffect (heap₁.hashTables j.hashTable).matchBuffer.length _ heap₁ = _
      rw [hbuffer, List.length_map]
      exact hrun
    · rw [List.flatMap_append, List.flatMap_singleton]
      have hlist : (List.range (matchesOf j buildRows row).length).map merged =
          (matchesOf j buildRows row).map fun b => b.merge row := by
        apply List.ext_getElem
        · simp
        · intro i h₁ h₂
          simp only [List.length_map] at h₂
          simp [merged, h₂]
      rw [← hlist]
      exact hhas₂
    · exact (hsame.mono (by simp)).trans (hsame₂.mono fun ht hmem => List.mem_cons_of_mem _ hmem)
  · rintro rows heap heap' ⟨htable, hhas⟩ hsame hprinted
    exact ⟨htable.same (hsame.hashTables _ hnot),
      hacc.frame _ _ _ hhas (hsame.mono fun ht hmem => List.mem_cons_of_mem _ hmem) hprinted⟩

end

/-! ### Operator trees -/

lemma Accumulates.of_subset {own inner inner' : List Word} {ius : List IU} {effect : Effect}
    {Has : List Row → Heap → Prop} (h : Accumulates own inner ius effect Has)
    (hsub : ∀ ht ∈ inner', ht ∈ inner) : Accumulates own inner' ius effect Has :=
  ⟨h.step, fun rows heap heap' hhas hsame => h.frame rows heap heap' hhas (hsame.mono hsub)⟩

/-- A tree hands its rows to the consumer, in order. -/
theorem effect_accumulates (arch : Arch) (op : Operator) (own : List Word) (hs : op.Scoped)
    (hf : op.Fits) (htables : op.tables.Nodup) {effect : Effect} {Has : List Row → Heap → Prop}
    {heap : Heap} (hown : ∀ ht ∈ op.tables, ht ∉ own) (hp : op.Prepared heap)
    (hacc : Accumulates own op.tables op.outputIUs effect Has) (h : Has [] heap) :
    ∃ heap', op.effect arch effect heap = some heap' ∧ Has op.rows heap' ∧
      SameOutside (own ++ op.tables) heap heap' := by
  induction op generalizing own effect Has heap with
  | scan scan =>
    obtain ⟨heap', hrun, hhas, hsame⟩ := scan_accumulates hf hp hacc h
    exact ⟨heap', hrun, hhas, hsame.mono fun ht hmem => List.mem_append_left _ hmem⟩
  | select id child pred ih =>
    exact ih own hs.1 hf htables hown hp (select_accumulates hs.2 hacc) h
  | hashJoin id build probe buildKeys probeKeys ht ihb ihp =>
    obtain ⟨hsb, hsp, hbk, hpk⟩ := hs
    obtain ⟨hfb, hfp, hlen, hk4, hp4, hcount⟩ := hf
    obtain ⟨hpb, hpp, hempty, hnk, hnp⟩ := hp
    obtain ⟨hnot, hnodup⟩ := List.nodup_cons.mp htables
    obtain ⟨hnb, hnpr, hdis⟩ := List.nodup_append.mp hnodup
    let j := HashJoinTranslator.of id build buildKeys probeKeys ht
    have hfits : JoinFits j build.outputIUs := ⟨hbk, rfl, hk4, hp4⟩
    have hhtb : ht ∉ build.tables := fun hmem => hnot (List.mem_append_left _ hmem)
    have hhtp : ht ∉ probe.tables := fun hmem => hnot (List.mem_append_right _ hmem)
    have hhto : ht ∉ own := hown ht List.mem_cons_self
    -- the build side fills the table
    have hbuild := insert_accumulates arch (Has []) hfits hhtb
      fun heap₁ heap₂ hhas hsame hrows => hacc.frame [] heap₁ heap₂ hhas
        (hsame.mono fun ht' hmem => by
          rcases List.mem_cons.mp hmem with rfl | hmem
          · exact List.mem_cons_self
          · exact List.mem_cons_of_mem _ (List.mem_append_left _ hmem)) hrows
    obtain ⟨heap₁, hrun₁, ⟨htable₁, hhas₁⟩, hsame₁⟩ := ihb _ hsb hfb hnb
      (fun ht' hmem hin => by
        rw [List.mem_singleton.mp hin] at hmem
        exact hhtb hmem) hpb hbuild
      ⟨⟨hempty, hnk, hnp⟩, h⟩
    -- the probe side reads it
    have hprobe := probe_accumulates arch hfits hlen hpk (rows_over build hsb hfb) hcount hhto hhtp
      (hacc.of_subset fun ht' hmem => by
        rcases List.mem_cons.mp hmem with rfl | hmem
        · exact List.mem_cons_self
        · exact List.mem_cons_of_mem _ (List.mem_append_right _ hmem))
    have hpp₁ : probe.Prepared heap₁ := hsame₁.prepared (fun ht' hmem hin => by
      rcases List.mem_cons.mp hin with rfl | hin
      · exact hhtp hmem
      · exact hdis _ hin _ hmem rfl) hpp
    obtain ⟨heap₂, hrun₂, ⟨-, hhas₂⟩, hsame₂⟩ := ihp _ hsp hfp hnpr
      (fun ht' hmem hin => by
        rcases List.mem_cons.mp hin with rfl | hin
        · exact hhtp hmem
        · exact hown ht' (List.mem_cons_of_mem _ (List.mem_append_right _ hmem)) hin)
      hpp₁ hprobe ⟨htable₁, hhas₁⟩
    refine ⟨heap₂, ?_, hhas₂, ?_⟩
    · simp only [Operator.effect]
      change (build.effect arch (j.insertEffect arch) heap).bind
        (probe.effect arch (j.probeEffect arch effect)) = _
      rw [hrun₁, Option.bind_some, hrun₂]
    · refine (hsame₁.mono fun ht' hmem => ?_).trans (hsame₂.mono fun ht' hmem => ?_)
      · simp only [List.singleton_append, List.mem_cons] at hmem
        simp only [Operator.tables, List.mem_append, List.mem_cons]
        tauto
      · simp only [List.cons_append, List.mem_cons, List.mem_append] at hmem
        simp only [Operator.tables, List.mem_append, List.mem_cons]
        tauto

/-- Printing a row appends it to the rows of the printer. -/
lemma print_accumulates (self : Word) {outputIUs ius : List IU} {inner : List Word}
    (old : List (List (Option Word))) (hwide : outputIUs.length ≤ 8)
    (h : ∀ iu ∈ outputIUs, iu.id ∈ ius.map IU.id) :
    Accumulates [] inner ius (printEffect self outputIUs) fun rows heap =>
      (heap.rows self).map (·.map some) = old ++ rows.map fun row => row.values outputIUs := by
  constructor
  · intro rows row heap hrow hhas
    obtain ⟨vals, hvals⟩ := exists_words hrow _ h
    have hlen := words_length hvals
    have hcount : (BitVec.ofNat 64 outputIUs.length).toNat = vals.length := by
      rw [BitVec.toNat_ofNat, hlen]
      omega
    have hint : (BitVec.ofNat 64 outputIUs.length).toInt = vals.length := by
      rw [BitVec.toInt_eq_toNat_of_lt (by rw [hcount]; omega), hcount]
    have hargs : padTo (2 + 8) 0 ([self, BitVec.ofNat 64 outputIUs.length] ++ vals) =
        self :: BitVec.ofNat 64 outputIUs.length :: (vals ++ List.replicate (8 - vals.length) 0) := by
      simp [padTo]
    have hslots : ¬ ((vals ++ List.replicate (8 - vals.length) (0 : Word)).length < 8 ∨
        (vals.length : Int) < 0 ∨ 8 < (vals.length : Int)) := by
      simp only [List.length_append, List.length_replicate]
      omega
    refine ⟨heap.appendRow self vals, ?_, ?_, ⟨rfl, fun _ _ => rfl⟩⟩
    · simp only [printEffect, hvals]
      change printRow heap (padTo (2 + 8) 0 ([self, BitVec.ofNat 64 outputIUs.length] ++ vals)) = _
      rw [hargs, printRow, hint, if_neg hslots, hcount, List.take_left]
    · rw [List.map_append, ← List.append_assoc, ← hhas, List.map_singleton, values_of_words hvals]
      simp [Heap.appendRow]
  · intro rows heap heap' hhas _ hprinted
    rw [hprinted]
    exact hhas

end Proofs

end TidyTuples
