import TidyTuples.Basic

/-!
# The SQL tokenizer (`sql_lexer.cpp`)

The scanner state `i` is the suffix of characters that are still to be read. A `std::string`
byte is a character; the `<cctype>` predicates are those of the "C" locale, so no byte above
127 is a letter, a digit or white space.
-/

namespace TidyTuples

inductive TokenKind
  | kwSelect | kwFrom | kwWhere | kwAnd | kwOr | kwNot | kwAs | kwLimit
  | ident | intLit
  | comma | dot | star | lparen | rparen
  | eq | ne | lt | gt | le | ge
  | plus | minus
  | semicolon | endOfInput | unknown
deriving DecidableEq, Repr

/-- `text` is the raw text and `intVal` the parsed value of an integer literal. -/
structure Token where
  kind : TokenKind
  text : String
  intVal : Word
deriving DecidableEq, Repr

/-- `Token(k, t)` with the default `intVal = 0`. -/
def Token.mk' (kind : TokenKind) (text : String) : Token := ⟨kind, text, 0⟩

def lookupKeyword (upper : String) : TokenKind :=
  if upper = "SELECT" then .kwSelect
  else if upper = "FROM" then .kwFrom
  else if upper = "WHERE" then .kwWhere
  else if upper = "AND" then .kwAnd
  else if upper = "OR" then .kwOr
  else if upper = "NOT" then .kwNot
  else if upper = "AS" then .kwAs
  else if upper = "LIMIT" then .kwLimit
  else .ident

def isSpace (c : Char) : Bool :=
  c == ' ' || (9 ≤ c.toNat && c.toNat ≤ 13)

def isIdentStart (c : Char) : Bool := c.isAlpha || c == '_'

def isIdentChar (c : Char) : Bool := c.isAlphanum || c == '_'

/-- `std::stoll` on a run of decimal digits. -/
def stoll (digits : List Char) : Except CppError Word :=
  if digitsValue digits < 2 ^ 63 then .ok (BitVec.ofNat 64 (digitsValue digits))
  else .error (.outOfRange "stoll")

/-- The `switch` on operators and punctuation: the token at `c :: rest` and what follows it. -/
def scanOperator (c : Char) (rest : List Char) : Except CppError (Token × List Char) :=
  match c, rest with
  | ',', _ => .ok (.mk' .comma ",", rest)
  | '.', _ => .ok (.mk' .dot ".", rest)
  | '*', _ => .ok (.mk' .star "*", rest)
  | '(', _ => .ok (.mk' .lparen "(", rest)
  | ')', _ => .ok (.mk' .rparen ")", rest)
  | '+', _ => .ok (.mk' .plus "+", rest)
  | '-', _ => .ok (.mk' .minus "-", rest)
  | ';', _ => .ok (.mk' .semicolon ";", rest)
  | '=', _ => .ok (.mk' .eq "=", rest)
  | '>', '=' :: rest' => .ok (.mk' .ge ">=", rest')
  | '>', _ => .ok (.mk' .gt ">", rest)
  | '<', '>' :: rest' => .ok (.mk' .ne "<>", rest')
  | '<', '=' :: rest' => .ok (.mk' .le "<=", rest')
  | '<', _ => .ok (.mk' .lt "<", rest)
  | _, _ => throwRuntime ("Unexpected character in SQL: '" ++ String.ofList [c] ++ "'")

/-- The scanning loop; every iteration reads at least one character. -/
def tokenizeLoop : Nat → List Char → Except CppError (List Token)
  | _, [] => .ok [.mk' .endOfInput ""]
  | 0, _ :: _ => .error .diverges
  | n + 1, c :: cs => do
    if isSpace c then
      tokenizeLoop n cs
    else if c.isDigit then
      let numStr := (c :: cs).takeWhile Char.isDigit
      let val ← stoll numStr
      let tokens ← tokenizeLoop n ((c :: cs).dropWhile Char.isDigit)
      return ⟨.intLit, String.ofList numStr, val⟩ :: tokens
    else if isIdentStart c then
      let word := (c :: cs).takeWhile isIdentChar
      let upper := word.map Char.toUpper
      let tokens ← tokenizeLoop n ((c :: cs).dropWhile isIdentChar)
      return .mk' (lookupKeyword (String.ofList upper)) (String.ofList word) :: tokens
    else
      let (token, rest) ← scanOperator c cs
      let tokens ← tokenizeLoop n rest
      return token :: tokens

def tokenize (sql : String) : Except CppError (List Token) :=
  tokenizeLoop sql.toList.length sql.toList

end TidyTuples
