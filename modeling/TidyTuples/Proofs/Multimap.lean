import TidyTuples.Proofs.HashTables
import Mathlib.Data.List.Induction

/-!
# The hash table of a join over whole runs

After any interleaving of insertions and lookups a bucket holds the inserted entries whose keys
hash to it, in insertion order, so that a lookup finds the entries with its keys and no others.
-/

namespace TidyTuples

/-- A call of `RuntimeHashTable::insert` or `lookupAll` with its key vector. -/
inductive TableCall
  | insert (keys payload : List Word)
  | lookup (keys : List Word)
deriving DecidableEq, Repr

namespace TableCall

def keys : TableCall → List Word
  | insert keys _ => keys
  | lookup keys => keys

/-- The call with `numKeys` key fields, hashed by `hash`. -/
def apply (hash : List Word → Word) (numKeys : Nat) (ht : RuntimeHashTable) :
    TableCall → Option RuntimeHashTable
  | insert keys payload => ht.insert (hash keys) keys payload numKeys payload.length
  | lookup keys => ht.lookupAll (hash keys) keys numKeys

def run (hash : List Word → Word) (numKeys : Nat) (calls : List TableCall) :
    Option RuntimeHashTable := calls.foldlM (apply hash numKeys) {}

/-- The entries that were inserted, in order. -/
def inserted (calls : List TableCall) : List HTEntry :=
  calls.filterMap fun
    | insert keys payload => some ⟨keys, payload⟩
    | lookup _ => none

end TableCall

namespace Proofs

section

variable {hash : List Word → Word} {numKeys : Nat}

/-- The bucket an entry was put in. -/
def bucketOfKeys (hash : List Word → Word) (e : HTEntry) : Fin numBuckets :=
  RuntimeHashTable.bucketOf (hash e.keyData)

/-- The buckets hold these entries, each with `numKeys` keys. -/
structure HoldsEntries (hash : List Word → Word) (numKeys : Nat) (ht : RuntimeHashTable)
    (entries : List HTEntry) : Prop where
  buckets : ht.buckets = Bucketed.group (bucketOfKeys hash) entries
  numKeys : ∀ e ∈ entries, e.keyData.length = numKeys

lemma HoldsEntries.empty : HoldsEntries hash numKeys {} [] := by
  constructor
  · rfl
  · exact fun e he => by cases he

/-- An insertion appends its entry. -/
lemma HoldsEntries.insert {ht : RuntimeHashTable} {entries : List HTEntry}
    (h : HoldsEntries hash numKeys ht entries) {keys : List Word} (hkeys : keys.length = numKeys)
    (payload : List Word) : ∃ ht', ht.insert (hash keys) keys payload numKeys payload.length =
      some ht' ∧ HoldsEntries hash numKeys ht' (entries ++ [⟨keys, payload⟩]) := by
  have hins : ht.insert (hash keys) keys payload numKeys payload.length =
      some (insertEntry ht (hash keys) ⟨keys, payload⟩) := by
    unfold RuntimeHashTable.insert
    rw [copyFields_eq, copyFields_eq, if_pos (Nat.le_of_eq hkeys.symm), if_pos (Nat.le_refl _),
      ← hkeys, List.take_length, List.take_length]
    rfl
  refine ⟨_, hins, ?_, ?_⟩
  · rw [Bucketed.group_append_singleton, ← h.buckets]
    rfl
  · intro e he
    rcases List.mem_append.mp he with he | he
    · exact h.numKeys e he
    · rw [List.mem_singleton.mp he]
      exact hkeys

/-- A lookup finds the entries with its keys, and changes nothing but the match buffer. -/
lemma HoldsEntries.lookup {ht : RuntimeHashTable} {entries : List HTEntry}
    (h : HoldsEntries hash numKeys ht entries) {keys : List Word} (hkeys : keys.length = numKeys) :
    ht.lookupAll (hash keys) keys numKeys =
      some { ht with matchBuffer := entries.filter fun e => e.keyData = keys } := by
  have hbucket : ht.buckets (RuntimeHashTable.bucketOf (hash keys)) =
      Bucketed.group (bucketOfKeys hash) entries (RuntimeHashTable.bucketOf (hash keys)) := by
    rw [h.buckets]
  have hfilter : (ht.buckets (RuntimeHashTable.bucketOf (hash keys))).filter
      (fun e => e.keyData = keys) = entries.filter fun e => e.keyData = keys := by
    rw [hbucket]
    apply Bucketed.filter_group
    intro e _ heq
    rw [bucketOfKeys, of_decide_eq_true heq]
  have hfound : (ht.buckets (RuntimeHashTable.bucketOf (hash keys))).filterM (fun e =>
      RuntimeHashTable.keysMatch e.keyData keys (List.range numKeys)) =
      some (entries.filter fun e => e.keyData = keys) := by
    rw [← hfilter]
    apply filterM_some
    intro e he
    have hmem : e ∈ entries := by
      rw [hbucket] at he
      exact List.mem_of_mem_filter he
    rw [keysMatch_range (h.numKeys e hmem) (Nat.le_of_eq hkeys.symm), ← hkeys, List.take_length]
  unfold RuntimeHashTable.lookupAll
  rw [hfound]
  rfl

/-- What one call keeps. -/
lemma apply_holdsEntries {ht : RuntimeHashTable} {entries : List HTEntry}
    (h : HoldsEntries hash numKeys ht entries) {c : TableCall} (hc : c.keys.length = numKeys) :
    ∃ ht', c.apply hash numKeys ht = some ht' ∧
      HoldsEntries hash numKeys ht' (entries ++ TableCall.inserted [c]) := by
  cases c with
  | insert keys payload => exact h.insert hc payload
  | lookup keys =>
    refine ⟨_, h.lookup hc, ?_⟩
    rw [show TableCall.inserted [.lookup keys] = [] from rfl, List.append_nil]
    exact ⟨h.buckets, h.numKeys⟩

/-- What a whole run keeps. -/
lemma run_holdsEntries (calls : List TableCall) (hcalls : ∀ c ∈ calls, c.keys.length = numKeys) :
    ∃ ht, TableCall.run hash numKeys calls = some ht ∧
      HoldsEntries hash numKeys ht (TableCall.inserted calls) := by
  induction calls using List.reverseRecOn with
  | nil => exact ⟨{}, rfl, .empty⟩
  | append_singleton calls c ih =>
    obtain ⟨ht, hrun, hholds⟩ := ih fun c' hc' => hcalls c' (List.mem_append_left _ hc')
    obtain ⟨ht', happly, hholds'⟩ := apply_holdsEntries hholds (hcalls c (by simp))
    refine ⟨ht', ?_, ?_⟩
    · have hfold : calls.foldlM (TableCall.apply hash numKeys) {} = some ht := hrun
      rw [TableCall.run, List.foldlM_append, hfold]
      change (c.apply hash numKeys ht >>= pure) = _
      rw [happly]
      rfl
    · rwa [TableCall.inserted, List.filterMap_append]

lemma matchCount_toInt {ht : RuntimeHashTable} (h : ht.matchBuffer.length < 2 ^ 63) :
    ht.matchCount.toInt = ht.matchBuffer.length := by
  have hnat : ht.matchCount.toNat = ht.matchBuffer.length := by
    rw [RuntimeHashTable.matchCount, BitVec.toNat_ofNat]
    exact Nat.mod_eq_of_lt (by omega)
  rw [BitVec.toInt_eq_toNat_of_lt (by rw [hnat]; omega), hnat]

/-- The hash table is an exact multimap, whatever the hash function and the calls before. -/
theorem hashTable_isMultimap (hash : List Word → Word) (numKeys : Nat) (calls : List TableCall)
    (hcalls : ∀ c ∈ calls, c.keys.length = numKeys) (q : List Word) (hq : q.length = numKeys) :
    ∃ ht ht', TableCall.run hash numKeys calls = some ht ∧
      ht.lookupAll (hash q) q numKeys = some ht' ∧
      ht'.matchBuffer = (TableCall.inserted calls).filter (fun e => e.keyData = q) ∧
      (ht'.matchBuffer.length < 2 ^ 63 → ht'.matchCount.toInt = ht'.matchBuffer.length) ∧
      ∀ idx : Word, ht'.matchAt idx =
        if idx.toInt < 0 ∨ ht'.matchBuffer.length ≤ idx.toInt then none
        else ht'.matchBuffer[idx.toInt.toNat]? := by
  obtain ⟨ht, hrun, hholds⟩ := @run_holdsEntries hash numKeys calls hcalls
  refine ⟨ht, _, hrun, hholds.lookup hq, rfl, ?_, ?_⟩
  · exact matchCount_toInt
  · intro idx
    unfold RuntimeHashTable.matchAt
    split_ifs with hneg hor hor
    · rfl
    · exact absurd (.inl hneg) hor
    · apply List.getElem?_eq_none
      omega
    · rfl

/-- Two keys in one bucket. -/
theorem hashTable_isMultimap_collision : ∃ ht ht', TableCall.run (fun _ => 7) 1
      [.insert [1] [10], .lookup [1], .insert [2] [20], .insert [1] [30]] = some ht ∧
    ht.lookupAll 7 [1] 1 = some ht' ∧ ht'.matchBuffer = [⟨[1], [10]⟩, ⟨[1], [30]⟩] := by
  obtain ⟨ht, ht', hrun, hlookup, hbuffer, -⟩ := hashTable_isMultimap (fun _ => 7) 1
    [.insert [1] [10], .lookup [1], .insert [2] [20], .insert [1] [30]] (by decide) [1] rfl
  exact ⟨ht, ht', hrun, hlookup, hbuffer.trans (by decide)⟩

end

end Proofs

end TidyTuples
