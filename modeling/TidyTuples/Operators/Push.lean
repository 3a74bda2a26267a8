import TidyTuples.Operators.Rows

/-!
# Push semantics of operator trees

What the code of a pipeline does to memory, tuple by tuple and without registers: between the IR
and the list semantics. `none` is undefined behaviour.
-/

namespace TidyTuples

/-- What a consumer does with one tuple. -/
abbrev Effect := Row → Heap → Option Heap

namespace Arch

variable (arch : Arch)

def hashPair : List Word → Word × Word → Word × Word
  | [], hashes => hashes
  | w :: rest, (hash1, hash2) =>
    hashPair rest (arch.crc32 hash1 (arch.zExt w), arch.crc32 hash2 (arch.zExt w))

/-- `hashValues` of values. -/
def hashWords (values : List Word) : Word :=
  let (hash1, hash2) := arch.hashPair values (hashSeed1, hashSeed2)
  (hash1 ^^^ arch.rotateRight 32 hash2) * hashMultiplier

end Arch

/-- The values of the IUs, if all of them are live. -/
def Row.words (row : Row) (ius : List IU) : Option (List Word) := ius.mapM fun iu => row iu.id

lemma Row.words_cons {row : Row} {iu : IU} {ius : List IU} {ws : List Word} :
    row.words (iu :: ius) = some ws ↔
      ∃ w ws', row iu.id = some w ∧ row.words ius = some ws' ∧ ws = w :: ws' := by
  unfold Row.words
  rw [List.mapM_cons]
  cases row iu.id with
  | none => simp
  | some w =>
    cases ius.mapM fun iu => row iu.id with
    | none => simp
    | some ws' => simp [eq_comm]

def Row.bind (row : Row) (iu : IU) (w : Word) : Row := Function.update row iu.id (some w)

/-- A loop over `0, ..., n - 1`; the index is a signed word. -/
def countedEffect (n : Nat) (body : Nat → Heap → Option Heap) (heap : Heap) : Option Heap :=
  if n < 2 ^ 63 then (List.range n).foldlM (fun heap i => body i heap) heap else none

namespace ScanTranslator

def loadColumns (heap : Heap) (i : Nat) : List (IU × Column) → Row → Option Row
  | [], row => some row
  | (iu, col) :: rest, row => do
    let w ← loadColumnValue heap col.address (BitVec.ofNat 64 i)
    loadColumns heap i rest (row.bind iu w)

def effect (scan : ScanTranslator) (parent : Effect) : Heap → Option Heap :=
  countedEffect scan.table.numRows fun i heap => do
    parent (← loadColumns heap i (scan.colIUs.zip scan.table.columns) fun _ => none) heap

end ScanTranslator

def selectEffect (predicate : Predicate) (parent : Effect) : Effect := fun row heap => do
  let v ← predicate.value row
  if v = 0 then return heap else parent row heap

namespace HashJoinTranslator

variable (arch : Arch) (j : HashJoinTranslator)

def insertEffect : Effect := fun row heap => do
  let keys ← row.words j.buildKeys
  let payload ← row.words j.buildPayloadIUs
  insertFn heap (insertArgs j.hashTable (arch.hashWords keys) 0 keys payload)

def bindWords (fields : List Word) : Nat → List IU → Row → Option Row
  | _, [], row => some row
  | i, iu :: rest, row => do
    let w ← readVector fields (((BitVec.ofNat 64 i).truncate 32).toInt)
    bindWords fields (i + 1) rest (row.bind iu w)

/-- The tuple for the `i`-th match of a probe. -/
def matchRow (row : Row) (heap : Heap) (i : Nat) : Option Row := do
  let e ← (heap.hashTables j.hashTable).matchAt (BitVec.ofNat 64 i)
  let row ← bindWords e.keyData 0 j.buildKeys row
  bindWords e.payloadData 0 j.buildPayloadIUs row

def probeEffect (parent : Effect) : Effect := fun row heap => do
  let keys ← row.words j.probeKeys
  let (_, heap) ← lookupAllFn heap (padTo (2 + 4) 0 ([j.hashTable, arch.hashWords keys] ++ keys))
  countedEffect (heap.hashTables j.hashTable).matchBuffer.length
    (fun i heap => do parent (← j.matchRow row heap i) heap) heap

end HashJoinTranslator

/-- The join of two operators as `produce` sets it up. -/
def HashJoinTranslator.of (id : Nat) (build : Operator) (buildKeys probeKeys : List IU)
    (hashTable : Word) : HashJoinTranslator where
  id := id
  buildId := build.id
  buildKeys := buildKeys
  probeKeys := probeKeys
  buildPayloadIUs := Operator.payloadIUs build.outputIUs buildKeys
  hashTable := hashTable

def Operator.effect (arch : Arch) : Operator → Effect → Heap → Option Heap
  | scan s, parent, heap => s.effect parent heap
  | select _ child predicate, parent, heap => child.effect arch (selectEffect predicate parent) heap
  | hashJoin id build probe buildKeys probeKeys hashTable, parent, heap => do
    let j := HashJoinTranslator.of id build buildKeys probeKeys hashTable
    let heap ← build.effect arch (j.insertEffect arch) heap
    probe.effect arch (j.probeEffect arch parent) heap

def printEffect (self : Word) (outputIUs : List IU) : Effect := fun row heap => do
  let vals ← row.words outputIUs
  printRow heap (padTo (2 + 8) 0 ([self, BitVec.ofNat 64 outputIUs.length] ++ vals))

end TidyTuples
