import TidyTuples.Basic
import Mathlib.Logic.Function.Basic

/-!
# The hash table of a join (`RuntimeHashTable`)

An entry is not changed after its insertion, so a pointer to one is modelled by the entry. A
result `none` is undefined behaviour: an index outside an array or vector.
-/

namespace TidyTuples

structure HTEntry where
  keyData : List Word
  payloadData : List Word
deriving DecidableEq, Repr

abbrev numBuckets : Nat := 1024

structure RuntimeHashTable where
  buckets : Fin numBuckets → List HTEntry := fun _ => []
  matchBuffer : List HTEntry := []
  numKeyFields : Nat := 0
  numPayloadFields : Nat := 0

namespace RuntimeHashTable

/-- `hash % NUM_BUCKETS`. -/
def bucketOf (hash : Word) : Fin numBuckets :=
  ⟨hash.toNat % numBuckets, Nat.mod_lt _ (by decide)⟩

/-- `for (int i = 0; i < n; ++i) out.push_back(in[i]);` -/
def copyFields (fields : List Word) (n : Nat) : Option (List Word) :=
  (List.range n).mapM fun i => fields[i]?

def insert (ht : RuntimeHashTable) (hash : Word) (keys payload : List Word)
    (numKeys numPayload : Nat) : Option RuntimeHashTable := do
  let keyData ← copyFields keys numKeys
  let payloadData ← copyFields payload numPayload
  let bucket := ht.buckets (bucketOf hash) ++ [⟨keyData, payloadData⟩]
  return { ht with buckets := Function.update ht.buckets (bucketOf hash) bucket }

/-- The comparison of the fields `is` in order, up to the first difference. -/
def keysMatch (keyData probeKeys : List Word) : List Nat → Option Bool
  | [] => some true
  | i :: is => do
    let a ← keyData[i]?
    let b ← probeKeys[i]?
    if a ≠ b then return false else keysMatch keyData probeKeys is

def lookupAll (ht : RuntimeHashTable) (hash : Word) (probeKeys : List Word) (numKeys : Nat) :
    Option RuntimeHashTable := do
  let found ← (ht.buckets (bucketOf hash)).filterM fun entry =>
    keysMatch entry.keyData probeKeys (List.range numKeys)
  return { ht with matchBuffer := found }

def matchCount (ht : RuntimeHashTable) : Word := BitVec.ofNat 64 ht.matchBuffer.length

/-- `none` is the null pointer. -/
def matchAt (ht : RuntimeHashTable) (idx : Word) : Option HTEntry :=
  if idx.toInt < 0 then none else ht.matchBuffer[idx.toInt.toNat]?

end RuntimeHashTable

/-- `v[i]` with an index of type `int64_t` or `int32_t`. -/
def readVector (v : List Word) (i : Int) : Option Word :=
  if i < 0 then none else v[i.toNat]?

end TidyTuples
