import TidyTuples.Operators.Push
import TidyTuples.Lib.Bucketed

/-!
# The hash table of a join, seen through its trampolines

As long as keys and payload fit into the slots of the trampolines, an insertion appends the entry
it was given and a lookup finds the entries with the keys it was given.
-/

namespace TidyTuples

/-- Exactly these IUs have a value. -/
def Row.Over (row : Row) (ius : List IU) : Prop := ∀ id, (row id).isSome ↔ id ∈ ius.map IU.id

namespace Proofs

/-! ### Field vectors -/

lemma copyFields_eq (fields : List Word) (n : Nat) : RuntimeHashTable.copyFields fields n =
    if n ≤ fields.length then some (fields.take n) else none := by
  unfold RuntimeHashTable.copyFields
  induction n with
  | zero => simp
  | succ n ih =>
    rw [List.range_succ, List.mapM_append, ih]
    by_cases hn : n < fields.length
    · rw [if_pos (by omega), if_pos (by omega), List.take_add_one, List.getElem?_eq_getElem hn]
      simp [List.getElem?_eq_getElem hn]
    · rw [if_neg (show ¬ n + 1 ≤ fields.length by omega)]
      split_ifs
      · simp [List.getElem?_eq_none (show fields.length ≤ n by omega)]
      · rfl

lemma keysMatch_drop {keyData probeKeys : List Word} (n i : Nat) (h : i + n ≤ keyData.length)
    (h' : i + n ≤ probeKeys.length) :
    RuntimeHashTable.keysMatch keyData probeKeys ((List.range' i n)) =
      some (decide ((keyData.drop i).take n = (probeKeys.drop i).take n)) := by
  induction n generalizing i with
  | zero => simp [RuntimeHashTable.keysMatch]
  | succ n ih =>
    have hk : i < keyData.length := by omega
    have hp : i < probeKeys.length := by omega
    rw [List.range'_succ, RuntimeHashTable.keysMatch, List.getElem?_eq_getElem hk,
      List.getElem?_eq_getElem hp, List.drop_eq_getElem_cons hk, List.drop_eq_getElem_cons hp,
      List.take_succ_cons, List.take_succ_cons]
    change (if keyData[i] ≠ probeKeys[i] then some false
      else RuntimeHashTable.keysMatch keyData probeKeys (List.range' (i + 1) n)) = _
    rw [ih (i + 1) (by omega) (by omega)]
    by_cases heq : keyData[i] = probeKeys[i]
    · simp [heq]
    · simp [heq]

lemma keysMatch_range {keyData probeKeys : List Word} {n : Nat} (h : keyData.length = n)
    (h' : n ≤ probeKeys.length) :
    RuntimeHashTable.keysMatch keyData probeKeys (List.range n) =
      some (decide (keyData = probeKeys.take n)) := by
  rw [List.range_eq_range', keysMatch_drop n 0 (by omega) (by omega), List.drop_zero,
    List.drop_zero, ← h, List.take_length]

lemma filterM_some {α : Type} {f : α → Option Bool} {p : α → Bool} {xs : List α}
    (h : ∀ x ∈ xs, f x = some (p x)) : xs.filterM f = some (xs.filter p) := by
  have haux : ∀ acc, xs.filterAuxM f acc = some ((xs.filter p).reverse ++ acc) := by
    induction xs with
    | nil => exact fun acc => rfl
    | cons x rest ih =>
      intro acc
      have hrest := ih fun y hy => h y (List.mem_cons_of_mem x hy)
      rw [List.filterAuxM, h x List.mem_cons_self]
      change rest.filterAuxM f (cond (p x) (x :: acc) acc) = _
      rw [hrest]
      cases hp : p x <;> simp [hp]
  rw [List.filterM, haux]
  simp

/-! ### Trampolines -/

/-- The slots behind the table and the hash. -/
lemma insertArgs_eq (ht hash : Word) (keys payload : List Word) :
    ∃ slots : List Word, insertArgs ht hash 0 keys payload = ht :: hash :: slots ∧
      8 ≤ slots.length ∧ keys <+: slots ∧
      (keys.length ≤ 4 → payload <+: slots.drop 4) := by
  refine ⟨(keys ++ List.replicate (2 + 4 - (keys.length + 2)) 0 ++ payload) ++
    List.replicate (2 + 4 + 4 - (max 6 (keys.length + 2) + payload.length)) 0, ?_, ?_, ?_, ?_⟩
  · simp [insertArgs, padTo, List.append_assoc, Nat.add_assoc]
    omega
  · simp
    omega
  · simp [List.append_assoc]
  · intro hk
    have hfour : (keys ++ List.replicate (2 + 4 - (keys.length + 2)) (0 : Word)).length = 4 := by
      simp
      omega
    rw [List.append_assoc, List.drop_left' hfour]
    exact List.prefix_append _ _

lemma take_of_prefix {xs ys : List Word} (h : xs <+: ys) {n : Nat} (hn : xs.length ≤ n) :
    (ys.take n).take xs.length = xs := by
  rw [List.take_take, Nat.min_eq_left hn]
  exact (List.prefix_iff_eq_take.mp h).symm

/-- The table after an insertion. -/
def insertEntry (table : RuntimeHashTable) (hash : Word) (e : HTEntry) : RuntimeHashTable :=
  let b := RuntimeHashTable.bucketOf hash
  { table with buckets := Function.update table.buckets b (table.buckets b ++ [e]) }

/-- The trampoline appends what it was given, and is undefined where the fields do not fit. -/
lemma insertFn_eq {heap : Heap} {ht : Word} (hash : Word) {keys payload : List Word}
    (hk : (heap.hashTables ht).numKeyFields = keys.length)
    (hp : (heap.hashTables ht).numPayloadFields = payload.length) :
    insertFn heap (insertArgs ht hash 0 keys payload) =
      if keys.length ≤ 4 ∧ payload.length ≤ 4 then
        some (heap.setHashTable ht (insertEntry (heap.hashTables ht) hash ⟨keys, payload⟩))
      else none := by
  obtain ⟨slots, heq, hlen, hkeys, hpayload⟩ := insertArgs_eq ht hash keys payload
  rw [heq]
  have hlen' : ¬ (hash :: slots).length < 9 := by
    simp
    omega
  simp only [insertFn, if_neg hlen', List.head!_cons, List.drop_succ_cons, List.drop_zero,
    RuntimeHashTable.insert]
  rw [hk, hp, copyFields_eq, copyFields_eq, List.length_take, List.length_take, List.length_drop]
  by_cases hk4 : keys.length ≤ 4
  · have hpay := hpayload hk4
    rw [if_pos (show keys.length ≤ min 4 slots.length by omega), take_of_prefix hkeys hk4]
    by_cases hp4 : payload.length ≤ 4
    · rw [if_pos (show payload.length ≤ min 4 (slots.length - 4) by omega),
        take_of_prefix hpay hp4, if_pos ⟨hk4, hp4⟩, ← hk, ← hp]
      rfl
    · rw [if_neg (show ¬ payload.length ≤ min 4 (slots.length - 4) by omega),
        if_neg (not_and_of_not_right _ hp4)]
      rfl
  · rw [if_neg (show ¬ keys.length ≤ min 4 slots.length by omega),
      if_neg (not_and_of_not_left _ hk4)]
    rfl

/-- A lookup finds the entries of the bucket that have the keys it was given. -/
lemma lookupAllFn_eq {heap : Heap} {ht hash : Word} {keys : List Word}
    (hk : (heap.hashTables ht).numKeyFields = keys.length) (hk4 : keys.length ≤ 4)
    (hentries : ∀ e ∈ (heap.hashTables ht).buckets (RuntimeHashTable.bucketOf hash),
      e.keyData.length = keys.length) :
    lookupAllFn heap (padTo (2 + 4) 0 ([ht, hash] ++ keys)) = some (ht, heap.setHashTable ht
      { heap.hashTables ht with matchBuffer := ((heap.hashTables ht).buckets
          (RuntimeHashTable.bucketOf hash)).filter (fun e => e.keyData = keys) }) := by
  have heq : padTo (2 + 4) 0 ([ht, hash] ++ keys) =
      ht :: hash :: (keys ++ List.replicate (4 - keys.length) 0) := by
    simp [padTo]
  have hfull : (keys ++ List.replicate (4 - keys.length) (0 : Word)).length = 4 := by
    simp
    omega
  have hfound : ((heap.hashTables ht).buckets (RuntimeHashTable.bucketOf hash)).filterM
      (fun e => RuntimeHashTable.keysMatch e.keyData
        ((keys ++ List.replicate (4 - keys.length) (0 : Word)).take 4) (List.range keys.length)) =
      some (((heap.hashTables ht).buckets (RuntimeHashTable.bucketOf hash)).filter
        fun e => e.keyData = keys) := by
    refine filterM_some fun e he => ?_
    rw [keysMatch_range (hentries e he) (by rw [List.length_take, hfull]; omega),
      take_of_prefix (List.prefix_append _ _) hk4]
  rw [heq]
  have hlen : ¬ (hash :: (keys ++ List.replicate (4 - keys.length) (0 : Word))).length < 5 := by
    simp only [List.length_cons, hfull]
    omega
  simp only [lookupAllFn, if_neg hlen, List.head!_cons, List.drop_succ_cons, List.drop_zero,
    RuntimeHashTable.lookupAll, hk, hfound]
  rfl

/-! ### Rows -/

lemma exists_words {row : Row} {ius : List IU} (h : row.Over ius) (req : List IU)
    (hreq : ∀ iu ∈ req, iu.id ∈ ius.map IU.id) : ∃ ws, row.words req = some ws := by
  induction req with
  | nil => exact ⟨[], rfl⟩
  | cons iu rest ih =>
    obtain ⟨w, hw⟩ := Option.isSome_iff_exists.mp ((h iu.id).mpr (hreq iu List.mem_cons_self))
    obtain ⟨ws, hws⟩ := ih fun iu' hiu' => hreq iu' (List.mem_cons_of_mem iu hiu')
    exact ⟨w :: ws, Row.words_cons.mpr ⟨w, ws, hw, hws, rfl⟩⟩

lemma words_length {row : Row} {ius : List IU} {ws : List Word} (h : row.words ius = some ws) :
    ws.length = ius.length := by
  induction ius generalizing ws with
  | nil =>
    cases h
    rfl
  | cons iu rest ih =>
    obtain ⟨w, ws', -, hws', rfl⟩ := Row.words_cons.mp h
    simp [ih hws']

lemma values_of_words {row : Row} {ius : List IU} {ws : List Word}
    (h : row.words ius = some ws) : row.values ius = ws.map some := by
  induction ius generalizing ws with
  | nil =>
    cases h
    rfl
  | cons iu rest ih =>
    obtain ⟨w, ws', hw, hws', rfl⟩ := Row.words_cons.mp h
    have hrest := ih hws'
    unfold Row.values at hrest ⊢
    rw [List.map_cons, List.map_cons, hw, hrest]

lemma readVector_index {xs : List Word} {i : Nat} (hi : i < 2 ^ 31) :
    readVector xs (((BitVec.ofNat 64 i).truncate 32).toInt) = xs[i]? := by
  have hnat : ((BitVec.ofNat 64 i).truncate 32).toNat = i := by
    simp only [BitVec.truncate_eq_setWidth, BitVec.toNat_setWidth, BitVec.toNat_ofNat]
    omega
  have hint : ((BitVec.ofNat 64 i).truncate 32).toInt = i := by
    rw [BitVec.toInt_eq_toNat_of_lt (by rw [hnat]; omega), hnat]
  rw [hint, readVector, if_neg (by omega), Int.toNat_natCast]

/-- Binding IUs to the fields of an entry takes their values over from the row it was made of. -/
lemma bindWords_eq (row : Row) (pre : List Word) {b : Row} {ius : List IU} {ws : List Word}
    (h : b.words ius = some ws)
    (hlen : (pre ++ ws).length < 2 ^ 31) :
    HashJoinTranslator.bindWords (pre ++ ws) pre.length ius row =
      some fun id => if id ∈ ius.map IU.id then b id else row id := by
  induction ius generalizing pre ws row with
  | nil => simp [HashJoinTranslator.bindWords]
  | cons iu rest ih =>
    obtain ⟨w, ws', hw, hws', rfl⟩ := Row.words_cons.mp h
    have hi : pre.length < 2 ^ 31 := by
      simp only [List.length_append] at hlen
      omega
    rw [HashJoinTranslator.bindWords, readVector_index hi]
    have hrest := ih (row.bind iu w) (pre ++ [w]) hws' (by simpa using hlen)
    simp only [List.append_assoc, List.singleton_append, List.length_append,
      List.length_singleton] at hrest
    rw [List.getElem?_append_right (Nat.le_refl _), Nat.sub_self, List.getElem?_cons_zero]
    refine (hrest : _).trans (congrArg some ?_)
    funext id
    by_cases hid : id = iu.id
    · simp [Row.bind, hid, hw]
    · simp [Row.bind, hid]

end Proofs

end TidyTuples
