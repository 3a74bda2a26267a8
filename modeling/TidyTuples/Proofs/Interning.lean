import TidyTuples.Proofs.CsvLoading

/-!
# The dictionary of strings is a bijection

Only strings that are new are appended, each under the next id, so a run of `intern` calls hands
out for a string the position of its first occurrence among the distinct strings.
-/

namespace TidyTuples

namespace StringDict

/-- A sequence of `intern` calls, with the ids that they return. -/
def internAll : List Bytes → StringDict → List Word × StringDict
  | [], d => ([], d)
  | s :: calls, d =>
    let (id, d) := d.intern s
    let (ids, d) := internAll calls d
    (id :: ids, d)

/-- The map and the vector are inverse to each other: one entry for a string, one id for an entry,
and the ids are those from 1 to the number of strings. -/
structure IsBijection (d : StringDict) : Prop where
  oneEntry : (d.strToId.map Prod.fst).Nodup
  oneId : (d.strToId.map Prod.snd).Nodup
  distinct : d.idToStr.Nodup
  ids : ∀ id : Word, (∃ s, d.strToId.lookup s = some id) ↔ 1 ≤ id.toInt ∧ id.toInt ≤ d.idToStr.length
  inverse : ∀ s id, d.strToId.lookup s = some id ↔
    1 ≤ id.toInt ∧ d.idToStr[id.toInt.toNat - 1]? = some s

/-- What a dictionary knows a later one still knows: the same ids mean the same strings. -/
def Keeps (d d' : StringDict) : Prop :=
  (∀ s id, d.strToId.lookup s = some id → d'.strToId.lookup s = some id ∧ d'.lookup id = s) ∧
  ∀ id : Word, 1 ≤ id.toInt → id.toInt ≤ d.idToStr.length → d'.lookup id = d.lookup id

end StringDict

namespace Proofs

open StringDict

/-! ### What a run leaves -/

/-- The entries of the map are the strings with their positions, the last one first. -/
def Entries (d : StringDict) : Prop :=
  d.strToId = (d.idToStr.zipIdx.map fun (s, i) => (s, idOf i)).reverse

lemma Entries.intern {d : StringDict} (h : Entries d) (s : Bytes) : Entries (d.intern s).2 := by
  unfold StringDict.intern
  cases d.strToId.lookup s with
  | some id => exact h
  | none =>
    change (s, idOf d.idToStr.length) :: d.strToId = _
    rw [h, List.zipIdx_append, List.map_append, List.reverse_append]
    simp

/-- The distinct strings of the calls are in the vector, and each call has returned the id of the
position of its string there. -/
lemma internAll_spec {d : StringDict} (hok : DictOk d) (hent : Entries d) (calls : List Bytes) :
    DictOk (internAll calls d).2 ∧ Entries (internAll calls d).2 ∧
    (internAll calls d).2.idToStr = distinctStrings d.idToStr calls ∧
    ∀ D, distinctStrings d.idToStr calls <+: D →
      (internAll calls d).1 = calls.map fun s => idOf (D.idxOf s) := by
  induction calls generalizing d with
  | nil => exact ⟨hok, hent, rfl, fun _ _ => rfl⟩
  | cons s calls ih =>
    obtain ⟨hok₁, hstr, hid⟩ := intern_spec hok s
    obtain ⟨hok₂, hent₂, hstr₂, hids⟩ := ih hok₁ (hent.intern s)
    rw [hstr] at hstr₂ hids
    refine ⟨hok₂, hent₂, hstr₂, fun D hD => ?_⟩
    change (d.intern s).1 :: (internAll calls (d.intern s).2).1 = _
    have hpre : insertNew d.idToStr s <+: D := (prefix_distinctStrings _ calls).trans hD
    rw [List.map_cons, hids D hD, hid, idxOf_of_prefix hpre (mem_insertNew _ _)]

section

variable {d : StringDict}

lemma lookup_eq_some_iff (hok : DictOk d) {s : Bytes} {id : Word} :
    d.strToId.lookup s = some id ↔ s ∈ d.idToStr ∧ id = idOf (d.idToStr.idxOf s) := by
  rw [hok s]
  split_ifs with hs
  · rw [Option.some.injEq]
    exact ⟨fun h => ⟨hs, h.symm⟩, fun h => h.2.symm⟩
  · constructor
    · intro h
      cases h
    · exact fun h => absurd h.1 hs

/-- An id from 1 on is that of a position. -/
lemma eq_idOf {id : Word} (h : 1 ≤ id.toInt) : id = idOf (id.toInt.toNat - 1) := by
  have hnat : id.toInt = id.toNat := by
    rw [BitVec.toInt_eq_toNat_cond]
    split_ifs with hlt
    · rfl
    · have := id.isLt
      rw [BitVec.toInt_eq_toNat_cond, if_neg hlt] at h
      omega
  apply BitVec.eq_of_toNat_eq
  have := id.isLt
  rw [idOf, BitVec.toNat_ofNat]
  omega

lemma isBijection (hok : DictOk d) (hent : Entries d) (hnodup : d.idToStr.Nodup)
    (hlen : d.idToStr.length < 2 ^ 63) : d.IsBijection := by
  have hinv : ∀ s id, d.strToId.lookup s = some id ↔
      1 ≤ id.toInt ∧ d.idToStr[id.toInt.toNat - 1]? = some s := by
    intro s id
    rw [lookup_eq_some_iff hok]
    constructor
    · rintro ⟨hs, rfl⟩
      have hlt := List.idxOf_lt_length_iff.mpr hs
      have hint := idOf_toInt (i := d.idToStr.idxOf s) (by omega)
      refine ⟨by omega, ?_⟩
      rw [hint, show ((d.idToStr.idxOf s : Int) + 1).toNat - 1 = d.idToStr.idxOf s by omega,
        List.getElem?_eq_getElem hlt, List.getElem_idxOf]
    · rintro ⟨hpos, hget⟩
      obtain ⟨hlt, rfl⟩ := List.getElem?_eq_some_iff.mp hget
      refine ⟨List.getElem_mem hlt, ?_⟩
      rw [hnodup.idxOf_getElem]
      exact eq_idOf hpos
  have hkeys : d.strToId.map Prod.fst = d.idToStr.reverse := by
    rw [hent, List.map_reverse, List.map_map]
    congr 1
    exact List.zipIdx_map_fst 0 d.idToStr
  have hids : d.strToId.map Prod.snd = ((List.range d.idToStr.length).map idOf).reverse := by
    rw [hent, List.map_reverse, List.map_map]
    congr 1
    rw [List.range_eq_range', ← List.zipIdx_map_snd 0 d.idToStr, List.map_map]
    rfl
  refine ⟨?_, ?_, hnodup, fun id => ?_, hinv⟩
  · rw [hkeys]
    exact List.nodup_reverse.mpr hnodup
  · rw [hids, List.nodup_reverse]
    apply List.Nodup.map_on _ List.nodup_range
    intro i hi j hj h
    rw [List.mem_range] at hi hj
    exact idOf_inj (by omega) (by omega) h
  · constructor
    · rintro ⟨s, hs⟩
      obtain ⟨hpos, hget⟩ := (hinv s id).mp hs
      have hlt := (List.getElem?_eq_some_iff.mp hget).1
      omega
    · rintro ⟨hpos, hle⟩
      have hlt : id.toInt.toNat - 1 < d.idToStr.length := by omega
      exact ⟨_, (hinv _ id).mpr ⟨hpos, List.getElem?_eq_getElem hlt⟩⟩

/-- Looking up the id of a position that exists. -/
lemma lookup_eq {id : Word} (hpos : 1 ≤ id.toInt) (hle : id.toInt ≤ d.idToStr.length) :
    d.lookup id = d.idToStr.getD (id.toInt.toNat - 1) [] := by
  rw [StringDict.lookup, if_neg (by omega)]

lemma getElem?_of_isPrefix {xs ys : List Bytes} (h : xs <+: ys) {i : Nat} (hi : i < xs.length) :
    ys[i]? = xs[i]? := by
  obtain ⟨rest, rfl⟩ := h
  exact List.getElem?_append_left hi

lemma keeps_of_isPrefix {d' : StringDict} (h : d.IsBijection) (h' : d'.IsBijection)
    (hpre : d.idToStr <+: d'.idToStr) : d.Keeps d' := by
  have hlen := hpre.length_le
  constructor
  · intro s id hs
    obtain ⟨hpos, hget⟩ := (h.inverse s id).mp hs
    have hlt := (List.getElem?_eq_some_iff.mp hget).1
    have hget' : d'.idToStr[id.toInt.toNat - 1]? = some s := by
      rw [← hget]
      exact getElem?_of_isPrefix hpre hlt
    refine ⟨(h'.inverse s id).mpr ⟨hpos, hget'⟩, ?_⟩
    rw [lookup_eq hpos (by omega), List.getD_eq_getElem?_getD, hget']
    rfl
  · intro id hpos hle
    rw [lookup_eq hpos hle, lookup_eq hpos (by omega), List.getD_eq_getElem?_getD,
      List.getD_eq_getElem?_getD]
    rw [getElem?_of_isPrefix hpre (by omega)]

end

/-- A run of `intern` calls from the empty dictionary. A `std::vector` holds fewer than `2 ^ 63`
strings: `push_back` throws before. -/
theorem internAll_bijection (calls : List Bytes)
    (hsize : (distinctStrings [] calls).length < 2 ^ 63) :
    (internAll calls {}).2.IsBijection ∧
    (internAll calls {}).1.length = calls.length ∧
    (∀ (i j : Nat) (s t : Bytes) (id id' : Word), calls[i]? = some s → calls[j]? = some t →
      (internAll calls {}).1[i]? = some id → (internAll calls {}).1[j]? = some id' →
      (id = id' ↔ s = t)) ∧
    (∀ (i : Nat) (s : Bytes) (id : Word), calls[i]? = some s → (internAll calls {}).1[i]? = some id →
      (internAll calls {}).2.strToId.lookup s = some id ∧ (internAll calls {}).2.lookup id = s) ∧
    ∀ before after, calls = before ++ after →
      (internAll before {}).2.Keeps (internAll calls {}).2 := by
  obtain ⟨hok, hent, hstr, hids⟩ := internAll_spec dictOk_empty (d := {}) rfl calls
  have hmap := hids _ List.prefix_rfl
  have hnodup := distinctStrings_nodup List.nodup_nil calls
  have hbij : (internAll calls {}).2.IsBijection :=
    isBijection hok hent (by rw [hstr]; exact hnodup) (by rw [hstr]; exact hsize)
  have hmem : ∀ {i : Nat} {s : Bytes}, calls[i]? = some s → s ∈ distinctStrings [] calls :=
    fun h => mem_distinctStrings.mpr (.inr (List.mem_of_getElem? h))
  have hid : ∀ {i : Nat} {s : Bytes} {id : Word}, calls[i]? = some s →
      (internAll calls {}).1[i]? = some id → id = idOf ((distinctStrings [] calls).idxOf s) := by
    intro i s id hs hi
    rw [hmap, List.getElem?_map, hs, Option.map_some, Option.some.injEq] at hi
    exact hi.symm
  refine ⟨hbij, ?_, ?_, ?_, ?_⟩
  · rw [hmap, List.length_map]
  · intro i j s t id id' hs ht hi hj
    have hlt := List.idxOf_lt_length_iff.mpr (hmem hs)
    have hlt' := List.idxOf_lt_length_iff.mpr (hmem ht)
    rw [hid hs hi, hid ht hj]
    constructor
    · intro h
      exact (List.idxOf_inj (hmem hs)).mp (idOf_inj (by omega) (by omega) h)
    · rintro rfl
      rfl
  · intro i s id hs hi
    have hlookup : (internAll calls {}).2.strToId.lookup s = some id := by
      rw [lookup_eq_some_iff hok, hstr]
      exact ⟨hmem hs, hid hs hi⟩
    exact ⟨hlookup, ((keeps_of_isPrefix hbij hbij List.prefix_rfl).1 s id hlookup).2⟩
  · rintro before after rfl
    obtain ⟨hok₁, hent₁, hstr₁, -⟩ := internAll_spec dictOk_empty (d := {}) rfl before
    have hpre : (internAll before {}).2.idToStr <+: (internAll (before ++ after) {}).2.idToStr := by
      rw [hstr, hstr₁, distinctStrings_append]
      exact prefix_distinctStrings _ after
    have hbij₁ : (internAll before {}).2.IsBijection := by
      refine isBijection hok₁ hent₁ ?_ ?_
      · rw [hstr₁]
        exact distinctStrings_nodup List.nodup_nil before
      · rw [hstr] at hpre
        exact Nat.lt_of_le_of_lt hpre.length_le hsize
    exact keeps_of_isPrefix hbij₁ hbij hpre

theorem internAll_bijection_repeat :
    (internAll [['b'], ['a'], ['b']] {}).1 = [1, 2, 1] ∧
    (internAll [['b'], ['a'], ['b']] {}).2.IsBijection :=
  ⟨by decide, (internAll_bijection [['b'], ['a'], ['b']] (by decide)).1⟩

end Proofs

end TidyTuples
