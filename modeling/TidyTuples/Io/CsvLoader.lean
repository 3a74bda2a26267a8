import TidyTuples.Operators.Translators
import Mathlib.Data.List.DropRight

/-!
# Loading a CSV file (`csv_loader.hpp`)

A `std::string` is the list of its bytes, each as a character; a file is the list of its lines as
`getline` returns them. Where the column vectors are allocated is left open.
-/

namespace TidyTuples

abbrev Bytes := List Char

/-! ### The dictionary of strings -/

structure StringDict where
  strToId : List (Bytes × Word) := []
  idToStr : List Bytes := []

namespace StringDict

def intern (d : StringDict) (s : Bytes) : Word × StringDict :=
  match d.strToId.lookup s with
  | some id => (id, d)
  | none =>
    let id := BitVec.ofNat 64 (d.idToStr.length + 1)
    (id, { strToId := (s, id) :: d.strToId, idToStr := d.idToStr ++ [s] })

def lookup (d : StringDict) (id : Word) : Bytes :=
  if id.toInt < 1 ∨ d.idToStr.length < id.toInt then "(null)".toList
  else d.idToStr.getD (id.toInt.toNat - 1) []

end StringDict

structure CSVTable where
  table : InMemoryTable
  strings : StringDict
  isStringCol : List Bool

/-! ### Fields -/

/-- The characters of `" \t\r\n\""`. -/
def isTrimmed (c : Char) : Bool := c = ' ' || c = '\t' || c = '\r' || c = '\n' || c = '"'

/-- Trimmed at both ends. -/
def csvTrim (s : Bytes) : Bytes := (s.dropWhile isTrimmed).rdropWhile isTrimmed

/-- The loop of `csvSplitLine`, with the field read so far and whether a quote is open. -/
def splitFields : Bytes → Bytes → Bool → List Bytes
  | [], cur, _ => [csvTrim cur]
  | '"' :: '"' :: rest, cur, true => splitFields rest (cur ++ ['"']) true
  | '"' :: rest, cur, inQuote => splitFields rest cur (!inQuote)
  | ',' :: rest, cur, false => csvTrim cur :: splitFields rest [] false
  | c :: rest, cur, inQuote => splitFields rest (cur ++ [c]) inQuote

def csvSplitLine (line : Bytes) : List Bytes := splitFields line [] false

/-- The sign and the digits of a number. -/
def signAndDigits : Bytes → Bool × Bytes
  | '-' :: rest => (true, rest)
  | '+' :: rest => (false, rest)
  | s => (false, s)

/-- The value of a decimal integer, of any size. -/
def decimalValue (s : Bytes) : Option Int :=
  let (negative, digits) := signAndDigits s
  if digits = [] ∨ digits.all Char.isDigit = false then none
  else some (if negative then -(digitsValue digits : Int) else digitsValue digits)

/-- `std::stoll` throws out of range. -/
def tryParseInt (s : Bytes) : Option Word := do
  let value ← decimalValue s
  if -2 ^ 63 ≤ value ∧ value < 2 ^ 63 then return BitVec.ofInt 64 value else none

/-! ### `loadCSV` -/

/-- `fields.resize(numCols)` -/
def resizeFields (numCols : Nat) (fields : List Bytes) : List Bytes :=
  fields.take numCols ++ List.replicate (numCols - fields.length) []

/-- The cells of the data rows. -/
def rawRows (numCols : Nat) (lines : List Bytes) : List (List Bytes) :=
  (lines.filter fun line => line ≠ [] ∧ line ≠ ['\r']).map fun line =>
    resizeFields numCols (csvSplitLine line)

/-- A cell that makes its column a string column. -/
def isNonInt (cell : Bytes) : Bool := cell ≠ [] && (tryParseInt cell).isNone

/-- Pass 1: the first 200 rows decide. -/
def stringColumns (numCols : Nat) (rows : List (List Bytes)) : List Bool :=
  (List.range numCols).map fun c => (rows.take 200).any fun row => isNonInt (row.getD c [])

def storeCell (isString : Bool) (cell : Bytes) (strings : StringDict) : Word × StringDict :=
  if isString then
    if cell = [] then (0, strings) else strings.intern cell
  else ((tryParseInt cell).getD 0, strings)

def storeRow : List (Bool × Bytes) → StringDict → List Word × StringDict
  | [], strings => ([], strings)
  | (isString, cell) :: rest, strings =>
    let (v, strings) := storeCell isString cell strings
    let (vs, strings) := storeRow rest strings
    (v :: vs, strings)

/-- Pass 2: row by row, and in a row column by column. -/
def storeRows (isStringCol : List Bool) :
    List (List Bytes) → StringDict → List (List Word) × StringDict
  | [], strings => ([], strings)
  | row :: rest, strings =>
    let (vs, strings) := storeRow (isStringCol.zip row) strings
    let (vss, strings) := storeRows isStringCol rest strings
    (vs :: vss, strings)

/-- The header without a byte order mark. -/
def stripBOM (line : Bytes) : Bytes :=
  if line.take 3 = [Char.ofNat 0xEF, Char.ofNat 0xBB, Char.ofNat 0xBF] then line.drop 3 else line

def loadCSV (address : Nat → Word) (path tableName : String) (file : Option (List Bytes)) :
    Except CppError CSVTable :=
  match file with
  | none => throwRuntime ("Cannot open CSV file: " ++ path)
  | some [] => throwRuntime ("CSV file is empty: " ++ path)
  | some (header :: lines) =>
    let headers := csvSplitLine (stripBOM header)
    let numCols := headers.length
    if numCols = 0 then throwRuntime ("CSV has no columns: " ++ path)
    else
      let rows := rawRows numCols lines
      let isStringCol := stringColumns numCols rows
      let (values, strings) := storeRows isStringCol rows {}
      .ok { table :=
              { name := tableName
                numRows := rows.length
                columns := headers.mapIdx fun c name =>
                  ⟨String.ofList name, .integer, address c, values.map fun row => row.getD c 0⟩ }
            strings, isStringCol }

end TidyTuples
