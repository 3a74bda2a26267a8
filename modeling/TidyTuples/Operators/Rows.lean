import TidyTuples.Operators.Translators

/-!
# List semantics of operator trees

What a tree of operators computes, as lists of rows: a scan yields the rows of its table in
storage order, a select keeps the rows whose predicate is not zero, and a join combines every
probe row with every build row of the same key vector.
-/

namespace TidyTuples

/-- The values of one tuple by the id of the IU. -/
abbrev Row := Nat → Option Word

namespace Row

def merge (build probe : Row) : Row := fun id => (build id).or (probe id)

def values (row : Row) (ius : List IU) : List (Option Word) := ius.map fun iu => row iu.id

end Row

/-- 64-bit wrap-around arithmetic; comparisons and connectives yield 0 or 1. -/
def BinOpKind.eval (op : BinOpKind) (a b : Word) : Word :=
  match op with
  | .eq => IRProgram.wordOfBool (a == b)
  | .ne => IRProgram.wordOfBool (a != b)
  | .lt => IRProgram.wordOfBool (a.slt b)
  | .gt => IRProgram.wordOfBool (b.slt a)
  | .le => IRProgram.wordOfBool (a.sle b)
  | .ge => IRProgram.wordOfBool (b.sle a)
  | .add => a + b
  | .sub => a - b
  | .and => IRProgram.wordOfBool (a != 0 && b != 0)
  | .or => IRProgram.wordOfBool (a != 0 || b != 0)

/-- `none` where a column does not resolve or has no value in the row. -/
def Expr.eval (resolveColumn : ColumnRef → Except CppError IU) (row : Row) : Expr → Option Word
  | .colRef ref =>
    match resolveColumn ref with
    | .ok iu => row iu.id
    | .error _ => none
  | .intLit intVal => some intVal
  | .binOp op left right => do
    let a ← left.eval resolveColumn row
    let b ← right.eval resolveColumn row
    return op.eval a b

namespace Predicate

def restValue (p : Predicate) (row : Row) : List Expr → Word → Option Word
  | [], result => some result
  | e :: rest, result => do
    let next ← e.eval p.resolveColumn row
    p.restValue row rest (BinOpKind.and.eval result next)

/-- The conjunction of the conjuncts. -/
def value (p : Predicate) (row : Row) : Option Word :=
  match p.conjuncts with
  | [] => none
  | e :: rest => do p.restValue row rest (← e.eval p.resolveColumn row)

def holds (p : Predicate) (row : Row) : Bool := (p.value row).any (· != 0)

end Predicate

/-- Row `i` of the table. -/
def ScanTranslator.row (scan : ScanTranslator) (i : Nat) : Row := fun id =>
  if id < scan.firstIU then none
  else (scan.table.columns[id - scan.firstIU]?).bind fun col => col.values[i]?

def Operator.rows : Operator → List Row
  | scan s => (List.range s.table.numRows).map s.row
  | select _ child predicate => child.rows.filter predicate.holds
  | hashJoin _ build probe buildKeys probeKeys _ =>
    probe.rows.flatMap fun p =>
      (build.rows.filter fun b => b.values buildKeys = p.values probeKeys).map fun b => b.merge p

/-- The printed rows: the values of the output IUs. -/
def Operator.result (op : Operator) (outputIUs : List IU) : List (List (Option Word)) :=
  op.rows.map fun row => row.values outputIUs

end TidyTuples
