import TidyTuples.Lib.Tuples
import TidyTuples.Operators.Rows
import TidyTuples.Sql.Planner

/-!
# What a query means

The answer to a statement, without operators and IUs: the rows of the cross product of the FROM
tables that satisfy the WHERE clause, projected on the SELECT list. A tuple of the cross product
gives values to qualified columns.
-/

namespace TidyTuples

abbrev Env := Tuples.Tuple ColumnRef Word

namespace Expr

/-- 64-bit wrap-around arithmetic; `none` where a column has no value. -/
def evalIn (env : Env) : Expr → Option Word
  | colRef ref => env ref
  | intLit intVal => some intVal
  | binOp op left right => do
    let a ← left.evalIn env
    let b ← right.evalIn env
    return op.eval a b

def holdsIn (env : Env) (e : Expr) : Bool := (e.evalIn env).any (· != 0)

/-- The columns of an expression. -/
def columns : Expr → List ColumnRef
  | colRef ref => [ref]
  | intLit _ => []
  | binOp _ left right => left.columns ++ right.columns

end Expr

namespace InMemoryTable

/-- The value of a column in row `i`. -/
def value (table : InMemoryTable) (i : Nat) (colName : String) : Option Word :=
  (table.columns.find? fun col => col.name = colName).bind fun col => col.values[i]?

/-- Row `i` of the table under a FROM alias. -/
def envAt (table : InMemoryTable) (aliasName : String) (i : Nat) : Env := fun ref =>
  if ref.tableAlias = aliasName then table.value i ref.colName else none

/-- The column names are distinct and have no dot, and each column has a value a row. -/
structure WellFormed (table : InMemoryTable) : Prop where
  distinct : (table.columns.map Column.name).Nodup
  noDot : ∀ col ∈ table.columns, '.' ∉ col.name.toList
  full : ∀ col ∈ table.columns, col.values.length = table.numRows

end InMemoryTable

/-- The FROM entries: aliases and their tables. -/
abbrev FromEntries := List (String × InMemoryTable)

def crossProduct : FromEntries → List Env
  | [] => [fun _ => none]
  | (aliasName, table) :: rest =>
    ((List.range table.numRows).map (table.envAt aliasName)).flatMap fun env =>
      (crossProduct rest).map (Tuples.merge env)

namespace SelectItem

/-- The columns a SELECT item stands for. -/
def columns (entries : FromEntries) : SelectItem → List ColumnRef
  | star => entries.flatMap fun (aliasName, table) =>
      table.columns.map fun col => ⟨aliasName, col.name⟩
  | item expr _ => expr.columns

end SelectItem

namespace SelectStmt

def entries (stmt : SelectStmt) (catalog : SQLCatalog) : Except CppError FromEntries :=
  stmt.fromList.mapM fun ref => do return (ref.aliasName, ← catalog.lookup ref.tableName)

def outputColumns (stmt : SelectStmt) (entries : FromEntries) : List ColumnRef :=
  stmt.selectList.flatMap (SelectItem.columns entries)

def answer (stmt : SelectStmt) (entries : FromEntries) : List (List (Option Word)) :=
  ((crossProduct entries).filter fun env => stmt.whereExpr.all (Expr.holdsIn env)).map fun env =>
    (stmt.outputColumns entries).map env

/-- The top-level AND conjuncts of the WHERE clause. -/
def conjuncts (stmt : SelectStmt) : List Expr :=
  match stmt.whereExpr with
  | none => []
  | some e => QueryPlanner.flattenAnd e

end SelectStmt

/-- A qualified column of one of the FROM entries. -/
def FromEntries.Has (entries : FromEntries) (ref : ColumnRef) : Prop :=
  ref.tableAlias ≠ "" ∧
    ∃ x ∈ entries, x.1 = ref.tableAlias ∧ ref.colName ∈ x.2.columns.map Column.name

/-- Every column is qualified by a FROM alias and exists. -/
structure SelectStmt.Qualified (stmt : SelectStmt) (entries : FromEntries) : Prop where
  selectList : ∀ ref ∈ stmt.outputColumns entries, FromEntries.Has entries ref
  whereExpr : ∀ e ∈ stmt.whereExpr, ∀ ref ∈ e.columns, FromEntries.Has entries ref

end TidyTuples
