import TidyTuples.Io.CsvLoader
import TidyTuples.Sql.RunQuery

/-!
# The read-eval-print loop (`main.cpp`)

A table is known by the address of the object that owns it, so that a pointer to a table can dangle.
What a command prints is its data without the layout; timings and the log are left out.
-/

namespace TidyTuples

/-! ### Tables -/

/-- An entry owns a table loaded from a CSV file or a hard-coded one. -/
inductive TableEntry
  | csv (owner : Nat) (table : CSVTable)
  | mem (owner : Nat) (table : InMemoryTable)

namespace TableEntry

def ptr : TableEntry → Nat
  | csv owner _ => owner
  | mem owner _ => owner

/-- `*ptr()` -/
def table : TableEntry → InMemoryTable
  | csv _ t => t.table
  | mem _ t => t

def csvTable? : TableEntry → Option CSVTable
  | csv _ t => some t
  | mem _ _ => none

end TableEntry

/-- `g_tableStorage` and `g_tables`. -/
structure ReplState where
  tableStorage : List TableEntry := []
  tables : List Nat := []

/-- What a line finds outside the program: the files, and where its objects are allocated. -/
structure ReplHost where
  file : Bytes → Option (List Bytes)
  owner : Nat
  columns : Nat → Word
  operators : Nat → Word
  printer : Word
  heap : Heap
  regs : VReg → Value
  fuel : Nat

def customersTable (address : Nat → Word) : InMemoryTable :=
  ⟨"customers", 3, [⟨"id", .integer, address 0, [1, 2, 3]⟩,
    ⟨"name", .integer, address 1, [100, 200, 300]⟩]⟩

def ordersTable (address : Nat → Word) : InMemoryTable :=
  ⟨"orders", 5, [⟨"id", .integer, address 2, [10, 11, 12, 13, 14]⟩,
    ⟨"customer_id", .integer, address 3, [1, 2, 1, 3, 2]⟩,
    ⟨"amount", .integer, address 4, [50, 150, 200, 75, 300]⟩]⟩

namespace ReplState

/-- The table behind a pointer; its owner must still be there. -/
def deref (st : ReplState) (p : Nat) : Except CppError InMemoryTable :=
  match st.tableStorage.find? fun e => e.ptr = p with
  | some e => .ok e.table
  | none => .error (.undefinedBehaviour "dangling InMemoryTable pointer")

def addEntry (st : ReplState) (e : TableEntry) : ReplState :=
  ⟨st.tableStorage ++ [e], st.tables ++ [e.ptr]⟩

/-- `addBuiltinTables`, into empty vectors. -/
def builtin (owner : Nat → Nat) (address : Nat → Word) : ReplState :=
  (({} : ReplState).addEntry (.mem (owner 0) (customersTable address))).addEntry
    (.mem (owner 1) (ordersTable address))

/-- Replaces the first table of the same name. -/
def registerCSVTable (st : ReplState) (owner : Nat) (csv : CSVTable) : Except CppError ReplState :=
  let e := TableEntry.csv owner csv
  match st.tableStorage.findIdx? fun e' => e'.table.name = csv.table.name with
  | some i =>
    if i < st.tables.length then .ok ⟨st.tableStorage.set i e, st.tables.set i e.ptr⟩
    else .error (.undefinedBehaviour "g_tables[i]")
  | none => .ok (st.addEntry e)

def findCSVTable (st : ReplState) (name : String) : Option CSVTable :=
  st.tableStorage.findSome? fun e => e.csvTable?.filter fun t => t.table.name = name

/-- The loop over `g_tables`. -/
def findTable (st : ReplState) (name : String) : List Nat → Except CppError (Option InMemoryTable)
  | [] => return none
  | p :: rest => do
    let t ← st.deref p
    if t.name = name then return some t else st.findTable name rest

/-- What `runQuery` registers in its catalog. -/
def catalog (st : ReplState) : Except CppError SQLCatalog := st.tables.mapM st.deref

/-- The column vectors in memory. -/
def columnMemory (st : ReplState) (address : Word) : List Word :=
  match (st.tableStorage.flatMap (·.table.columns)).find? (·.address == address) with
  | some col => col.values
  | none => []

end ReplState

/-! ### What is printed -/

inductive ResultLine
  | row (values : List Word)
  | more (hidden : Nat)
deriving DecidableEq, Repr

/-- The loop of `printResult`; `total` is `r.rows.size()`. -/
def printRows (total : Nat) : Nat → List (List Word) → List ResultLine
  | _, [] => []
  | printed, row :: rest =>
    if 40 ≤ printed ∧ 45 < total then
      if printed = 40 then .more (total - 40) :: printRows total (printed + 1) rest
      else printRows total (printed + 1) rest
    else .row row :: printRows total (printed + 1) rest

inductive Cell
  | number (value : Word)
  | text (bytes : Bytes)
deriving DecidableEq, Repr

structure SchemaView where
  name : String
  numRows : Nat
  columnNames : List String
  rows : List (List Cell)
  hidden : Nat
deriving DecidableEq, Repr

/-- What is printed for a line, and whether the loop goes on. -/
inductive Reply
  | silent
  | quit
  | help
  | tables (list : List (String × Nat × List String))
  | schema (view : SchemaView)
  | unknownTable (name : String)
  | usage
  | loaded (name : String) (rows : Nat) (columns : List (String × Bool))
  | loadError (e : CppError)
  | unknownCommand (line : Bytes)
  | needsStatement
  /-- What was printed before the end, or before an exception. -/
  | explained (sections : List ExplainSection) (failed : Option CppError)
  | result (columnNames : List String) (lines : List ResultLine) (total : Nat)
  | error (e : CppError)
  /-- The machine code still runs. -/
  | running
deriving DecidableEq, Repr

/-- `printResult` -/
def printResult (r : QueryResult) : Reply :=
  if r.columnNames = [] then .silent
  else .result r.columnNames (printRows r.rows.length 0 r.rows) r.rows.length

/-- `catch (const std::exception&)` -/
def catchException {α : Type} (x : Except CppError α) : Except CppError (Except CppError α) :=
  match x with
  | .ok a => .ok (.ok a)
  | .error (.runtimeError what) => .ok (.error (.runtimeError what))
  | .error (.outOfRange what) => .ok (.error (.outOfRange what))
  | .error e => .error e

/-! ### Commands -/

/-- The characters of `" \t"`. -/
def isBlankOrTab (c : Char) : Bool := c = ' ' || c = '\t'

/-- The characters of `" \t\r\n"`. -/
def isLineBlank (c : Char) : Bool := c = ' ' || c = '\t' || c = '\r' || c = '\n'

def trimLine (s : Bytes) : Bytes := (s.dropWhile isLineBlank).rdropWhile isLineBlank

/-- What `>>` reads from a stream, word by word. -/
def words (s : Bytes) : List Bytes := (s.splitOnP isSpace).filter (· ≠ [])

def cmdLoad (host : ReplHost) (args : Bytes) (st : ReplState) : Except CppError (Reply × ReplState) :=
  match words args with
  | path :: tableName :: _ => do
    match ← catchException
      (loadCSV host.columns (String.ofList path) (String.ofList tableName) (host.file path)) with
    | .error e => return (.loadError e, st)
    | .ok csv =>
      let st ← st.registerCSVTable host.owner csv
      return (.loaded csv.table.name csv.table.numRows
        ((csv.table.columns.map Column.name).zip csv.isStringCol), st)
  | _ => return (.usage, st)

def cmdTables (st : ReplState) : Except CppError Reply := do
  let ts ← st.catalog
  return .tables (ts.map fun t => (t.name, t.numRows, t.columns.map Column.name))

/-- The argument of `.schema` without blanks around it; one of blanks and tabs only is kept. -/
def schemaName (arg : Bytes) : Bytes :=
  let name := if arg.all isBlankOrTab then arg else arg.dropWhile isBlankOrTab
  if name.all isLineBlank then name else name.rdropWhile isLineBlank

def schemaCell (csv : Option CSVTable) (col : Nat) (v : Word) : Cell :=
  match csv with
  | some t => if t.isStringCol.getD col false then .text (t.strings.lookup v) else .number v
  | none => .number v

def schemaRow (columns : List Column) (csv : Option CSVTable) (row : Nat) :
    Except CppError (List Cell) :=
  columns.zipIdx.mapM fun (col, c) =>
    match col.values[row]? with
    | some v => .ok (schemaCell csv c v)
    | none => .error (.undefinedBehaviour "columns[col][row]")

def cmdSchema (arg : Bytes) (st : ReplState) : Except CppError Reply := do
  let name := String.ofList (schemaName arg)
  match ← st.findTable name st.tables with
  | none => return .unknownTable name
  | some found =>
    let csv := st.findCSVTable name
    let showRows := min found.numRows 20
    let rows ← (List.range showRows).mapM (schemaRow found.columns csv)
    return .schema ⟨found.name, found.numRows, found.columns.map Column.name, rows,
      found.numRows - showRows⟩

/-- The flags in front of the statement, with blanks before each. -/
def explainFlags : Bytes → ExplainOptions → ExplainOptions × Bytes
  | 't' :: 't' :: '=' :: '1' :: rest, opts => explainFlags rest { opts with showTT := true }
  | 'f' :: 's' :: '=' :: '1' :: rest, opts => explainFlags rest { opts with showFS := true }
  | c :: rest, opts => if isBlankOrTab c then explainFlags rest opts else (opts, c :: rest)
  | [], opts => (opts, [])

def parseExplain (rest : Bytes) : ExplainOptions × Bytes :=
  if rest.all isBlankOrTab then ({}, []) else explainFlags rest { showTree := true }

/-- `runQuery(sql, tables, explain, out)`: what it prints and what it returns. -/
def queryCatalog (arch : Arch) (host : ReplHost) (memory : Word → List Word) (catalog : SQLCatalog)
    (sql : Bytes) (explain : Option ExplainOptions) :
    List ExplainSection × Except CppError (Option QueryResult) :=
  let heap := { host.heap with columns := memory }
  (explain.elim [] fun opts =>
      explainSections host.operators catalog host.printer (String.ofList sql) opts heap,
    runQuery arch host.operators catalog host.printer (String.ofList sql) explain.isSome heap
      host.regs host.fuel)

/-- `runQuery(sql, g_tables, …)` -/
def queryTables (arch : Arch) (host : ReplHost) (st : ReplState) (sql : Bytes)
    (explain : Option ExplainOptions) : List ExplainSection × Except CppError (Option QueryResult) :=
  match st.catalog with
  | .error e => ([], .error e)
  | .ok catalog => queryCatalog arch host st.columnMemory catalog sql explain

/-- A line that is a statement, run by `query`. -/
def execStatement (query : Bytes → Option ExplainOptions →
    List ExplainSection × Except CppError (Option QueryResult)) (line : Bytes) :
    Except CppError Reply := do
  if (line.map Char.toUpper).take 7 = "EXPLAIN".toList then
    let (opts, sql) := parseExplain (line.drop 7)
    if sql = [] then return .needsStatement
    let (sections, result) := query sql (some opts)
    match ← catchException result with
    | .error e => return .explained sections (some e)
    | .ok _ => return .explained sections none
  else
    match ← catchException (query line none).2 with
    | .error e => return .error e
    | .ok none => return .running
    | .ok (some r) => return printResult r

def execCommand (host : ReplHost) (cmd : Bytes) (st : ReplState) :
    Except CppError (Reply × ReplState) := do
  if cmd = "quit".toList ∨ cmd = "exit".toList then return (.quit, st)
  else if cmd = "tables".toList then return (← cmdTables st, st)
  else if cmd = "help".toList then return (.help, st)
  else if cmd.take 6 = "schema".toList then return (← cmdSchema (cmd.drop 6) st, st)
  else if cmd.take 4 = "load".toList then cmdLoad host (cmd.drop 4) st
  else return (.unknownCommand ('.' :: cmd), st)

def execLine (arch : Arch) (host : ReplHost) (rawLine : Bytes) (st : ReplState) :
    Except CppError (Reply × ReplState) := do
  match trimLine rawLine with
  | [] => return (.silent, st)
  | c :: rest =>
    if c = '.' then execCommand host rest st
    else return (← execStatement (queryTables arch host st) (c :: rest), st)

/-- The loop of `runREPL` over the lines of the input. -/
def runREPL (arch : Arch) : List (ReplHost × Bytes) → ReplState → Except CppError (List Reply × ReplState)
  | [], st => return ([], st)
  | (host, line) :: rest, st => do
    let (reply, st) ← execLine arch host line st
    if reply = .quit then return ([reply], st)
    let (replies, st) ← runREPL arch rest st
    return (reply :: replies, st)

end TidyTuples
