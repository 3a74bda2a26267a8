import TidyTuples.Codegen.Context
import TidyTuples.Sql.Ast

/-!
# SQL values, tuple hashing and scopes (`sql_value.hpp`, `tuple_ops.hpp`, `ConsumerScope`)
-/

namespace TidyTuples

/-- `nullRef` is the register that says whether the value is NULL; `NullRef` means never. -/
structure SQLValue where
  valueRef : IRValueRef
  nullRef : IRValueRef
  sqlType : SQLType
deriving DecidableEq, Repr

namespace SQLValue

def isNullable (v : SQLValue) : Bool := v.nullRef != .null

def makeNonNull (valueRef : IRValueRef) (t : SQLType) : SQLValue := ⟨valueRef, .null, t⟩

def makeInt (val : Word) : Gen SQLValue := do
  return ⟨← Gen.addConstInt val .int64, .null, .integer⟩

/-- The result is NULL where an operand is. -/
def propagateNull2 (a b : SQLValue) (resultRef : IRValueRef) (rtype : SQLType) : Gen SQLValue := do
  if !a.isNullable && !b.isNullable then return ⟨resultRef, .null, rtype⟩
  else if !a.isNullable then return ⟨resultRef, b.nullRef, rtype⟩
  else if !b.isNullable then return ⟨resultRef, a.nullRef, rtype⟩
  else
    let combinedNull ← Gen.addBinary .lOr .bool a.nullRef b.nullRef
    return ⟨resultRef, combinedNull, rtype⟩

/-- The shape the arithmetic and comparison operators share. -/
def emitOp (op : Opcode) (t : IRType) (rtype : SQLType) (a b : SQLValue) : Gen SQLValue := do
  let r ← Gen.addBinary op t a.valueRef b.valueRef
  propagateNull2 a b r rtype

def add (a b : SQLValue) : Gen SQLValue := emitOp .add .int64 a.sqlType a b

def sub (a b : SQLValue) : Gen SQLValue := emitOp .sub .int64 a.sqlType a b

def eq (a b : SQLValue) : Gen SQLValue := emitOp .cmpEq .bool .bool a b

def ne (a b : SQLValue) : Gen SQLValue := emitOp .cmpNe .bool .bool a b

def lt (a b : SQLValue) : Gen SQLValue := emitOp .cmpLt .bool .bool a b

def gt (a b : SQLValue) : Gen SQLValue := emitOp .cmpGt .bool .bool a b

def le (a b : SQLValue) : Gen SQLValue := emitOp .cmpLe .bool .bool a b

def ge (a b : SQLValue) : Gen SQLValue := emitOp .cmpGe .bool .bool a b

/-- `Bool b = l.asBool() && r.asBool(); {b.ref, NullRef, SQLType::Bool}` -/
def and (a b : SQLValue) : Gen SQLValue := do
  return ⟨← Gen.addBinary .lAnd .bool a.valueRef b.valueRef, .null, .bool⟩

def or (a b : SQLValue) : Gen SQLValue := do
  return ⟨← Gen.addBinary .lOr .bool a.valueRef b.valueRef, .null, .bool⟩

end SQLValue

/-! ### Tuple hashing -/

def hashSeed1 : Word := 6763793487589347598

def hashSeed2 : Word := 4593845798347983834

def hashMultiplier : Word := 11400714819323198485

/-- The loop over the values: both hashes take in each value. The binary `ZExt` is emitted and
not used. -/
def hashLoop : List SQLValue → IRValueRef → IRValueRef → Gen (IRValueRef × IRValueRef)
  | [], hash1, hash2 => return (hash1, hash2)
  | sv :: rest, hash1, hash2 => do
    let _ ← Gen.addBinary .zExt .uint64 sv.valueRef sv.valueRef
    let v ← Gen.addUnary .zExt .uint64 sv.valueRef
    let hash1 ← Gen.addBinary .crc32 .uint64 hash1 v
    let hash2 ← Gen.addBinary .crc32 .uint64 hash2 v
    hashLoop rest hash1 hash2

def hashValues (values : List SQLValue) : Gen IRValueRef := do
  let hash1 ← Gen.addConstInt hashSeed1 .uint64
  let hash2 ← Gen.addConstInt hashSeed2 .uint64
  let (hash1, hash2) ← hashLoop values hash1 hash2
  let rotated ← Gen.addRotateRight hash2 32
  let hash ← Gen.addBinary .xor .uint64 hash1 rotated
  let multiplier ← Gen.addConstInt hashMultiplier .uint64
  Gen.addBinary .mul .uint64 hash multiplier

/-! ### Scopes -/

/-- The live IUs by id. -/
structure ConsumerScope where
  bindings : Nat → Option SQLValue := fun _ => none

namespace ConsumerScope

def get (scope : ConsumerScope) (iu : IU) : Except CppError SQLValue :=
  match scope.bindings iu.id with
  | some v => .ok v
  | none => throwRuntime ("IU not in scope: " ++ iu.name)

def bind (scope : ConsumerScope) (iu : IU) (val : SQLValue) : ConsumerScope :=
  ⟨Function.update scope.bindings iu.id (some val)⟩

/-- `for (IU* iu : ius) vals.push_back(scope.get(iu));` -/
def getAll (scope : ConsumerScope) (ius : List IU) : Gen (List SQLValue) :=
  Gen.ofExcept (ius.mapM scope.get)

end ConsumerScope

end TidyTuples
