import TidyTuples.Sql.Ast
import TidyTuples.Sql.Lexer

/-!
# The recursive-descent parser (`sql_parser.cpp`)

The parser state `pos` is the suffix `tokens[pos..]`. Reading `tokens[pos]` past the end of the
vector is undefined behaviour. The three loops `lhs op rhs op ...` are one definition with the
operand parser and the accepted operators as parameters.
-/

namespace TidyTuples

/-- A parsing procedure: consumes a prefix of the remaining tokens. -/
abbrev Parser (α : Type) := StateT (List Token) (Except CppError) α

namespace Parser

def fail {α : Type} (e : CppError) : Parser α := fun _ => .error e

def peek : Parser Token
  | [] => .error (.undefinedBehaviour "token vector read past its end")
  | t :: ts => .ok (t, t :: ts)

/-- The cursor never moves past END_OF_INPUT. -/
def consume : Parser Token
  | [] => .error (.undefinedBehaviour "token vector read past its end")
  | t :: ts => .ok (t, if t.kind = .endOfInput then t :: ts else ts)

def expect (k : TokenKind) (msg : String) : Parser Token := do
  let t ← peek
  if t.kind = k then consume
  else fail (.runtimeError (msg ++ "; got '" ++ t.text ++ "'"))

def tryConsume (k : TokenKind) : Parser Bool := do
  let t ← peek
  if t.kind = k then
    let _ ← consume
    return true
  else return false

/-- `while (at(op)) { consume(); rhs = operand(); lhs = makeBinOp(op, lhs, rhs); }` -/
def leftAssocLoop (opOf : TokenKind → Option BinOpKind) (operand : Parser Expr) :
    Nat → Expr → Parser Expr
  | 0, _ => fail .diverges
  | n + 1, lhs => do
    let t ← peek
    match opOf t.kind with
    | none => return lhs
    | some op =>
      let _ ← consume
      let rhs ← operand
      leftAssocLoop opOf operand n (makeBinOp op lhs rhs)

/-- The number of tokens that are left; every loop below is bounded by it. -/
def remaining : Parser Nat := fun ts => .ok (ts.length, ts)

def leftAssoc (opOf : TokenKind → Option BinOpKind) (operand : Parser Expr) : Parser Expr := do
  let lhs ← operand
  leftAssocLoop opOf operand ((← remaining) + 1) lhs

def orOp : TokenKind → Option BinOpKind
  | .kwOr => some .or
  | _ => none

def andOp : TokenKind → Option BinOpKind
  | .kwAnd => some .and
  | _ => none

def compOp : TokenKind → Option BinOpKind
  | .eq => some .eq
  | .ne => some .ne
  | .lt => some .lt
  | .gt => some .gt
  | .le => some .le
  | .ge => some .ge
  | _ => none

def addOp : TokenKind → Option BinOpKind
  | .plus => some .add
  | .minus => some .sub
  | _ => none

/-- `addExpr := primaryExpr [('+' | '-') primaryExpr]*` -/
def parseAddExpr (parsePrimary : Parser Expr) : Parser Expr := leftAssoc addOp parsePrimary

/-- `compExpr := addExpr [('='|'<>'|'<'|'>'|'<='|'>=') addExpr]` -/
def parseCompExpr (parsePrimary : Parser Expr) : Parser Expr := do
  let lhs ← parseAddExpr parsePrimary
  let t ← peek
  match compOp t.kind with
  | none => return lhs
  | some op =>
    let _ ← consume
    let rhs ← parseAddExpr parsePrimary
    return makeBinOp op lhs rhs

/-- `andExpr := compExpr ('AND' compExpr)*` -/
def parseAndExpr (parsePrimary : Parser Expr) : Parser Expr :=
  leftAssoc andOp (parseCompExpr parsePrimary)

/-- `orExpr := andExpr ('OR' andExpr)*` -/
def parseOrExpr (parsePrimary : Parser Expr) : Parser Expr :=
  leftAssoc orOp (parseAndExpr parsePrimary)

/-- `primaryExpr := INT_LIT | IDENT ['.' IDENT] | '(' orExpr ')'`. The argument bounds the
nesting of parentheses. -/
def parsePrimary : Nat → Parser Expr
  | 0 => fail .diverges
  | n + 1 => do
    let t ← peek
    if t.kind = .intLit then
      let t ← consume
      return makeIntLit t.intVal
    else if t.kind = .ident then
      let first ← consume
      if ← tryConsume .dot then
        let col ← expect .ident "Expected column name after '.'"
        return makeColumnRef first.text col.text
      else return makeColumnRef "" first.text
    else if t.kind = .lparen then
      let _ ← consume
      let e ← parseOrExpr (parsePrimary n)
      let _ ← expect .rparen "Expected ')'"
      return e
    else fail (.runtimeError ("Unexpected token in expression: '" ++ t.text ++ "'"))

/-- `parseOrExpr()` as the statement level calls it: a token can open at most one parenthesis. -/
def parseExpr : Parser Expr := do
  parseOrExpr (parsePrimary (← remaining))

/-- `do { items.push_back(item()); } while (tryConsume(COMMA));` -/
def commaListLoop {α : Type} (item : Parser α) : Nat → Parser (List α)
  | 0 => fail .diverges
  | n + 1 => do
    let x ← item
    if ← tryConsume .comma then
      let xs ← commaListLoop item n
      return x :: xs
    else return [x]

def commaList {α : Type} (item : Parser α) : Parser (List α) := do
  commaListLoop item (← remaining)

def parseSelectItem : Parser SelectItem := do
  let expr ← parseExpr
  if ← tryConsume .kwAs then
    let aliasTok ← expect .ident "Expected alias"
    return .item expr aliasTok.text
  else return .item expr ""

/-- `* | expr [AS alias] (, expr [AS alias])*` -/
def parseSelectList : Parser (List SelectItem) := do
  let t ← peek
  if t.kind = .star then
    let _ ← consume
    return [.star]
  else commaList parseSelectItem

def parseTableRef : Parser TableRef := do
  let tableName ← expect .ident "Expected table name"
  let t ← peek
  if t.kind = .ident then
    let aliasTok ← consume
    return ⟨tableName.text, aliasTok.text⟩
  else return ⟨tableName.text, tableName.text⟩

/-- `tableName [alias] (, tableName [alias])*` -/
def parseFromList : Parser (List TableRef) := commaList parseTableRef

def parseWhere : Parser (Option Expr) := do
  if ← tryConsume .kwWhere then
    let e ← parseExpr
    return some e
  else return none

def parseLimit : Parser Word := do
  if ← tryConsume .kwLimit then
    let t ← expect .intLit "Expected integer after LIMIT"
    if t.intVal.slt 0 then fail (.runtimeError "LIMIT value must be non-negative")
    else return t.intVal
  else return noLimit

def parseSelect : Parser SelectStmt := do
  let _ ← expect .kwSelect "Expected SELECT"
  let selectList ← parseSelectList
  let _ ← expect .kwFrom "Expected FROM"
  let fromList ← parseFromList
  let whereExpr ← parseWhere
  let limit ← parseLimit
  let _ ← tryConsume .semicolon
  let t ← peek
  if t.kind = .endOfInput then return ⟨selectList, fromList, whereExpr, limit⟩
  else fail (.runtimeError ("Unexpected token after query: '" ++ t.text ++ "'"))

/-- `Parser parser(tokens); return parser.parseSelect();` -/
def run (tokens : List Token) : Except CppError SelectStmt := parseSelect.run' tokens

end Parser

/-- `parseSQL`. -/
def parseSQL (sql : String) : Except CppError SelectStmt := do
  Parser.run (← tokenize sql)

end TidyTuples
