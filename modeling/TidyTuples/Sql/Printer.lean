import TidyTuples.Sql.Ast
import TidyTuples.Sql.Lexer

/-!
# Writing a statement as SQL text

A statement is written as a list of lexemes, with parentheses around an operand only when the
operand binds more loosely than its place requires. `Prints stmt sql` leaves to the writer what
the tokenizer does not look at: the letter case of keywords and the white space between tokens.
-/

namespace TidyTuples

/-- A word that the lexer reads as an identifier. -/
def isIdentifier (name : String) : Bool :=
  match name.toList with
  | [] => false
  | c :: cs => isIdentStart c && cs.all isIdentChar &&
      lookupKeyword (String.ofList ((c :: cs).map Char.toUpper)) == .ident

/-- The upper-case text of the keywords and operators. -/
def TokenKind.symbol : TokenKind → Option String
  | .kwSelect => some "SELECT"
  | .kwFrom => some "FROM"
  | .kwWhere => some "WHERE"
  | .kwAnd => some "AND"
  | .kwOr => some "OR"
  | .kwNot => some "NOT"
  | .kwAs => some "AS"
  | .kwLimit => some "LIMIT"
  | .comma => some ","
  | .dot => some "."
  | .star => some "*"
  | .lparen => some "("
  | .rparen => some ")"
  | .eq => some "="
  | .ne => some "<>"
  | .lt => some "<"
  | .gt => some ">"
  | .le => some "<="
  | .ge => some ">="
  | .plus => some "+"
  | .minus => some "-"
  | .semicolon => some ";"
  | .ident | .intLit | .endOfInput | .unknown => none

inductive Lexeme
  | symbol (kind : TokenKind)
  | ident (name : String)
  | intLit (val : Word)
deriving DecidableEq, Repr

/-- The ways to write one lexeme: keywords in any letter case, numbers in decimal. -/
def Lexeme.Spelled : Lexeme → List Char → Prop
  | .symbol kind, cs => kind.symbol = some (String.ofList (cs.map Char.toUpper))
  | .ident name, cs => cs = name.toList
  | .intLit val, cs => cs ≠ [] ∧ cs.all Char.isDigit = true ∧ digitsValue cs = val.toNat

instance : (l : Lexeme) → (cs : List Char) → Decidable (l.Spelled cs)
  | .symbol kind, cs =>
    inferInstanceAs (Decidable (kind.symbol = some (String.ofList (cs.map Char.toUpper))))
  | .ident name, cs => inferInstanceAs (Decidable (cs = name.toList))
  | .intLit val, cs =>
    inferInstanceAs (Decidable (cs ≠ [] ∧ cs.all Char.isDigit = true ∧ digitsValue cs = val.toNat))

/-- Only identifiers and non-negative literals come back from the lexer. -/
def Lexeme.isWritable : Lexeme → Bool
  | .symbol kind => kind.symbol.isSome
  | .ident name => isIdentifier name
  | .intLit val => !val.slt 0

def Blank (gap : List Char) : Prop := gap.all isSpace = true

instance (gap : List Char) : Decidable (Blank gap) :=
  inferInstanceAs (Decidable (gap.all isSpace = true))

/-- The lexemes in order, with white space between any two of them and perhaps behind the last. -/
inductive Renders : List Lexeme → List Char → Prop
  | nil : Renders [] []
  | cons {l : Lexeme} {ls : List Lexeme} {cs gap rest : List Char} : l.Spelled cs → Blank gap →
      (ls ≠ [] → gap ≠ []) → Renders ls rest → Renders (l :: ls) (cs ++ (gap ++ rest))

/-- The plain spelling: keywords in capitals, numbers without leading zeros. -/
def Lexeme.text : Lexeme → List Char
  | .symbol kind => (kind.symbol.getD "").toList
  | .ident name => name.toList
  | .intLit val => Nat.toDigits 10 val.toNat

/-! ### Expressions -/

def BinOpKind.token : BinOpKind → TokenKind
  | .eq => .eq
  | .ne => .ne
  | .lt => .lt
  | .gt => .gt
  | .le => .le
  | .ge => .ge
  | .add => .plus
  | .sub => .minus
  | .and => .kwAnd
  | .or => .kwOr

/-- The grammar's levels from `orExpr` to `primaryExpr`. -/
def BinOpKind.level : BinOpKind → Nat
  | .or => 0
  | .and => 1
  | .eq | .ne | .lt | .gt | .le | .ge => 2
  | .add | .sub => 3

/-- The level a left operand needs; a comparison is no operand of a comparison. -/
def BinOpKind.leftLevel : BinOpKind → Nat
  | .or => 0
  | .and => 1
  | .eq | .ne | .lt | .gt | .le | .ge => 3
  | .add | .sub => 3

def BinOpKind.rightLevel (op : BinOpKind) : Nat := op.level + 1

def Expr.level : Expr → Nat
  | .colRef _ => 4
  | .intLit _ => 4
  | .binOp op _ _ => op.level

def parenthesise (needed : Bool) (ls : List Lexeme) : List Lexeme :=
  if needed then .symbol .lparen :: (ls ++ [.symbol .rparen]) else ls

def ColumnRef.lexemes (ref : ColumnRef) : List Lexeme :=
  if ref.tableAlias = "" then [.ident ref.colName]
  else [.ident ref.tableAlias, .symbol .dot, .ident ref.colName]

def Expr.lexemes : Expr → List Lexeme
  | .colRef ref => ref.lexemes
  | .intLit val => [.intLit val]
  | .binOp op left right =>
    parenthesise (left.level < op.leftLevel) left.lexemes ++
      .symbol op.token :: parenthesise (right.level < op.rightLevel) right.lexemes

/-- Column names are identifiers and literals are values of `0 .. 2^63 - 1`. -/
def Expr.isWritable : Expr → Bool
  | .colRef ref => (ref.tableAlias == "" || isIdentifier ref.tableAlias) && isIdentifier ref.colName
  | .intLit val => !val.slt 0
  | .binOp _ left right => left.isWritable && right.isWritable

/-! ### Statements -/

def commaSeparated {α : Type} (lexemes : α → List Lexeme) : List α → List Lexeme
  | [] => []
  | [x] => lexemes x
  | x :: xs => lexemes x ++ .symbol .comma :: commaSeparated lexemes xs

def SelectItem.lexemes : SelectItem → List Lexeme
  | .star => [.symbol .star]
  | .item expr aliasName =>
    expr.lexemes ++ if aliasName = "" then [] else [.symbol .kwAs, .ident aliasName]

def TableRef.lexemes (ref : TableRef) : List Lexeme :=
  if ref.aliasName = ref.tableName then [.ident ref.tableName]
  else [.ident ref.tableName, .ident ref.aliasName]

def whereLexemes : Option Expr → List Lexeme
  | none => []
  | some e => .symbol .kwWhere :: e.lexemes

def limitLexemes (limit : Word) : List Lexeme :=
  if limit = noLimit then [] else [.symbol .kwLimit, .intLit limit]

def SelectStmt.lexemes (stmt : SelectStmt) : List Lexeme :=
  .symbol .kwSelect :: (commaSeparated SelectItem.lexemes stmt.selectList ++
    .symbol .kwFrom :: (commaSeparated TableRef.lexemes stmt.fromList ++
      (whereLexemes stmt.whereExpr ++ limitLexemes stmt.limit)))

def SelectItem.isWritable : SelectItem → Bool
  | .star => false
  | .item expr aliasName => expr.isWritable && (aliasName == "" || isIdentifier aliasName)

/-- The statements that have a text. -/
structure SelectStmt.Writable (stmt : SelectStmt) : Prop where
  selectList : stmt.selectList = [.star] ∨
    stmt.selectList ≠ [] ∧ ∀ item ∈ stmt.selectList, item.isWritable = true
  fromList : stmt.fromList ≠ []
  tables : ∀ ref ∈ stmt.fromList,
    isIdentifier ref.tableName = true ∧ isIdentifier ref.aliasName = true
  whereExpr : ∀ e ∈ stmt.whereExpr, e.isWritable = true
  limit : stmt.limit = noLimit ∨ stmt.limit.slt 0 = false

/-- `sql` is the statement as text. -/
def Prints (stmt : SelectStmt) (sql : String) : Prop :=
  ∃ lead text, sql.toList = lead ++ text ∧ Blank lead ∧ Renders stmt.lexemes text

def SelectStmt.toSQL (stmt : SelectStmt) : String :=
  String.ofList (stmt.lexemes.flatMap fun l => l.text ++ [' '])

end TidyTuples
