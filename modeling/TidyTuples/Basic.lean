import Mathlib.Algebra.Group.Int.Defs
import Mathlib.Algebra.GroupWithZero.Nat
import Mathlib.Data.List.Basic
import Mathlib.Data.List.Infix

/-!
# Machine words and abnormal outcomes

`int64_t` and `uint64_t` values are 64-bit vectors. A C++ computation that does not return
either throws one of the standard exceptions or runs into undefined behaviour; the two are
kept apart so that "throws an error" never covers a crash.
-/

namespace TidyTuples

/-- A 64-bit machine word: `int64_t` and `uint64_t` alike. -/
abbrev Word := BitVec 64

/-- The ways in which a call can fail to return. -/
inductive CppError
  | runtimeError (what : String)
  | outOfRange (what : String)
  | undefinedBehaviour (what : String)
  /-- The iteration bound of a modelled `while` loop ran out. -/
  | diverges
deriving DecidableEq, Repr

/-- `throw std::runtime_error(what)`. -/
def throwRuntime {α : Type} (what : String) : Except CppError α :=
  .error (.runtimeError what)

/-- The value of a run of decimal digits. -/
def digitsValue (digits : List Char) : Nat :=
  digits.foldl (fun v d => 10 * v + (d.toNat - '0'.toNat)) 0

end TidyTuples
