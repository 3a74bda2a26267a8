import TidyTuples.Basic

/-! # SQL abstract syntax (`sql_ast.hpp`) -/

namespace TidyTuples

inductive BinOpKind
  | eq | ne | lt | gt | le | ge | add | sub | and | or
deriving DecidableEq, Repr

/-- `tableAlias` is empty for an unqualified column. -/
structure ColumnRef where
  tableAlias : String
  colName : String
deriving DecidableEq, Repr

inductive Expr
  | colRef (ref : ColumnRef)
  | intLit (intVal : Word)
  | binOp (op : BinOpKind) (left right : Expr)
deriving DecidableEq, Repr

/-- One entry of the SELECT list; only a non-star entry has an expression and an alias. -/
inductive SelectItem
  | star
  | item (expr : Expr) (aliasName : String)
deriving DecidableEq, Repr

structure TableRef where
  tableName : String
  aliasName : String
deriving DecidableEq, Repr

structure SelectStmt where
  selectList : List SelectItem
  fromList : List TableRef
  whereExpr : Option Expr
  limit : Word
deriving DecidableEq, Repr

/-- `limit = -1` of a statement without LIMIT. -/
def noLimit : Word := -1

def makeColumnRef (aliasName col : String) : Expr := .colRef ⟨aliasName, col⟩

def makeIntLit (val : Word) : Expr := .intLit val

def makeBinOp (op : BinOpKind) (lhs rhs : Expr) : Expr := .binOp op lhs rhs

end TidyTuples
