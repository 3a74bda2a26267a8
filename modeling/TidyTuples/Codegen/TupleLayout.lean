import TidyTuples.Codegen.SqlValue

/-!
# Tuple layout, packing and unpacking (`tuple_ops.hpp`)

The null flags are addressed as bytes from the start of the tuple on; the fields follow in eight
bytes each. Offsets are of type `int`, so no result stands for an overflow.
-/

namespace TidyTuples

def sqlTypeToIR : SQLType → IRType
  | .integer => .int64
  | .bigInt => .int64
  | .double => .double
  | .varchar => .uint64
  | .bool => .bool

/-- Addition in `int`. -/
def addInt (a b : Int) : Option Int :=
  if -0x80000000 ≤ a + b ∧ a + b ≤ 0x7FFFFFFF then some (a + b) else none

/-- `if (offset % 8 != 0) offset += 8 - (offset % 8);` -/
def alignTo8 (offset : Int) : Option Int :=
  if offset.tmod 8 ≠ 0 then addInt offset (8 - offset.tmod 8) else some offset

structure FieldLayout where
  byteOffset : Int
  irType : IRType
  sqlType : SQLType
deriving DecidableEq, Repr

structure TupleLayout where
  fields : List FieldLayout
  nullBitmapOffset : Int
  totalSize : Int
deriving DecidableEq, Repr

namespace TupleLayout

/-- The loop over the types: the fields and the offset behind them. -/
def addFields : List SQLType → Int → Option (List FieldLayout × Int)
  | [], offset => some ([], offset)
  | t :: rest, offset => do
    let next ← addInt offset 8
    let (fields, last) ← addFields rest next
    return (⟨offset, sqlTypeToIR t, t⟩ :: fields, last)

def build (types : List SQLType) : Option TupleLayout := do
  let nullBitmapOffset : Int := 0
  let numNullable := (BitVec.ofNat 32 types.length).toInt
  let offset ← addInt nullBitmapOffset ((← addInt numNullable 7).tdiv 8)
  let offset ← alignTo8 offset
  let (fields, totalSize) ← addFields types offset
  return ⟨fields, nullBitmapOffset, totalSize⟩

end TupleLayout

namespace IRProgram

/-- `emitStore(emitGEP(base, offset), value)` -/
def storeAt (p : IRProgram) (base : IRValueRef) (offset : Int) (value : IRValueRef) : IRProgram :=
  let (ptr, p) := p.addGEP base (BitVec.ofInt 64 offset)
  (p.addStore ptr value).2

/-- `emitLoad(t, emitGEP(base, offset))` -/
def loadAt (p : IRProgram) (base : IRValueRef) (offset : Int) (t : IRType) :
    IRValueRef × IRProgram :=
  let (ptr, p) := p.addGEP base (BitVec.ofInt 64 offset)
  p.addLoad t ptr

/-- The null flags of the values from number `i` on. -/
def packFlags (base : IRValueRef) (nullBitmapOffset : Int) :
    List SQLValue → Nat → IRProgram → IRProgram
  | [], _, p => p
  | v :: rest, i, p =>
    packFlags base nullBitmapOffset rest (i + 1)
      (if v.isNullable then p.storeAt base (nullBitmapOffset + i) v.nullRef else p)

def packFields (base : IRValueRef) : List (FieldLayout × SQLValue) → IRProgram → IRProgram
  | [], p => p
  | (fl, v) :: rest, p => packFields base rest (p.storeAt base fl.byteOffset v.valueRef)

/-- `packTuple`; there is a field for every value. -/
def packTuple (p : IRProgram) (base : IRValueRef) (layout : TupleLayout)
    (values : List SQLValue) : IRProgram :=
  packFields base (layout.fields.zip values)
    (packFlags base layout.nullBitmapOffset values 0 p)

/-- The fields from number `i` on. -/
def unpackFields (base : IRValueRef) (nullBitmapOffset : Int) :
    List FieldLayout → Nat → IRProgram → List SQLValue × IRProgram
  | [], _, p => ([], p)
  | fl :: rest, i, p =>
    let (val, p) := p.loadAt base fl.byteOffset fl.irType
    let (nullFlag, p) := p.loadAt base (nullBitmapOffset + i) .bool
    let (result, p) := unpackFields base nullBitmapOffset rest (i + 1) p
    (⟨val, nullFlag, fl.sqlType⟩ :: result, p)

def unpackTuple (p : IRProgram) (base : IRValueRef) (layout : TupleLayout) :
    List SQLValue × IRProgram :=
  unpackFields base layout.nullBitmapOffset layout.fields 0 p

end IRProgram

end TidyTuples
