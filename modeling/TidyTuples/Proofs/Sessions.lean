import TidyTuples.Repl
import TidyTuples.Lib.KeyedList

/-!
# Sessions

The loop keeps pointers to tables beside the entries that own them. To the user it is a store of
tables by name: no pointer ever dangles, and a name stands for what was last loaded under it.
-/

namespace TidyTuples

open KeyedList

/-! ### The store of tables -/

/-- A table with the dictionary of the file it was loaded from. -/
structure NamedTable where
  table : InMemoryTable
  csv : Option CSVTable

def NamedTable.name (t : NamedTable) : String := t.table.name

/-- The tables, by name, in the order of their first registration. -/
abbrev TableSet := List NamedTable

namespace TableSet

def builtin (address : Nat → Word) : TableSet :=
  [⟨customersTable address, none⟩, ⟨ordersTable address, none⟩]

def register (ts : TableSet) (csv : CSVTable) : TableSet :=
  upsert NamedTable.name ⟨csv.table, some csv⟩ ts

def find (ts : TableSet) (name : String) : Option NamedTable := get? NamedTable.name name ts

def catalog (ts : TableSet) : SQLCatalog := ts.map NamedTable.table

def memory (ts : TableSet) (address : Word) : List Word :=
  match (ts.flatMap (·.table.columns)).find? (·.address == address) with
  | some col => col.values
  | none => []

def load (host : ReplHost) (args : Bytes) (ts : TableSet) : Except CppError (Reply × TableSet) :=
  match words args with
  | path :: tableName :: _ => do
    match ← catchException
      (loadCSV host.columns (String.ofList path) (String.ofList tableName) (host.file path)) with
    | .error e => return (.loadError e, ts)
    | .ok csv =>
      return (.loaded csv.table.name csv.table.numRows
        ((csv.table.columns.map Column.name).zip csv.isStringCol), ts.register csv)
  | _ => return (.usage, ts)

def schema (arg : Bytes) (ts : TableSet) : Except CppError Reply :=
  let name := String.ofList (schemaName arg)
  match ts.find name with
  | none => return .unknownTable name
  | some t => do
    let showRows := min t.table.numRows 20
    let rows ← (List.range showRows).mapM (schemaRow t.table.columns t.csv)
    return .schema ⟨t.table.name, t.table.numRows, t.table.columns.map Column.name, rows,
      t.table.numRows - showRows⟩

def query (arch : Arch) (host : ReplHost) (ts : TableSet) :
    Bytes → Option ExplainOptions → List ExplainSection × Except CppError (Option QueryResult) :=
  queryCatalog arch host ts.memory ts.catalog

def command (host : ReplHost) (cmd : Bytes) (ts : TableSet) : Except CppError (Reply × TableSet) := do
  if cmd = "quit".toList ∨ cmd = "exit".toList then return (.quit, ts)
  else if cmd = "tables".toList then
    return (.tables (ts.catalog.map fun t => (t.name, t.numRows, t.columns.map Column.name)), ts)
  else if cmd = "help".toList then return (.help, ts)
  else if cmd.take 6 = "schema".toList then return (← ts.schema (cmd.drop 6), ts)
  else if cmd.take 4 = "load".toList then ts.load host (cmd.drop 4)
  else return (.unknownCommand ('.' :: cmd), ts)

/-- The session of a user who knows tables by their names only. -/
def step (arch : Arch) (host : ReplHost) (rawLine : Bytes) (ts : TableSet) :
    Except CppError (Reply × TableSet) := do
  match trimLine rawLine with
  | [] => return (.silent, ts)
  | c :: rest =>
    if c = '.' then ts.command host rest
    else return (← execStatement (ts.query arch host) (c :: rest), ts)

def session (arch : Arch) : List (ReplHost × Bytes) → TableSet → Except CppError (List Reply × TableSet)
  | [], ts => return ([], ts)
  | (host, line) :: rest, ts => do
    let (reply, ts) ← ts.step arch host line
    if reply = .quit then return ([reply], ts)
    let (replies, ts) ← session arch rest ts
    return (reply :: replies, ts)

end TableSet

def TableEntry.value (e : TableEntry) : NamedTable := ⟨e.table, e.csvTable?⟩

/-- The table that `.load` makes of the file and the name it is given. -/
def loadedFrom (host : ReplHost) (args : Bytes) : Option CSVTable :=
  match words args with
  | path :: tableName :: _ =>
    (loadCSV host.columns (String.ofList path) (String.ofList tableName) (host.file path)).toOption
  | _ => none

/-- The table that a line loads. -/
def loadedBy (x : ReplHost × Bytes) : Option CSVTable :=
  match trimLine x.2 with
  | [] => none
  | c :: cmd =>
    if c = '.' ∧ cmd.take 4 = "load".toList then loadedFrom x.1 (cmd.drop 4) else none

/-- A table is allocated where no other is. -/
def FreshOwners (arch : Arch) : List (ReplHost × Bytes) → ReplState → Prop
  | [], _ => True
  | (host, line) :: rest, st => ((loadedBy (host, line)).isSome → host.owner ∉ st.tables) ∧
      match execLine arch host line st with
      | .ok (_, st') => FreshOwners arch rest st'
      | .error _ => True

instance decidableFreshOwners (arch : Arch) : (lines : List (ReplHost × Bytes)) → (st : ReplState) →
    Decidable (FreshOwners arch lines st)
  | [], _ => .isTrue trivial
  | (host, line) :: rest, st =>
    have : Decidable (match execLine arch host line st with
        | .ok (_, st') => FreshOwners arch rest st'
        | .error _ => True) :=
      match execLine arch host line st with
      | .ok (_, st') => decidableFreshOwners arch rest st'
      | .error _ => .isTrue trivial
    inferInstanceAs (Decidable (_ ∧ _))

namespace Proofs

/-- The entries own the tables of the store, and the pointers are theirs, in order. -/
structure Owns (st : ReplState) (ts : TableSet) : Prop where
  parallel : st.tables = st.tableStorage.map TableEntry.ptr
  owners : (st.tableStorage.map TableEntry.ptr).Nodup
  values : st.tableStorage.map TableEntry.value = ts
  names : (ts.map NamedTable.name).Nodup

/-- The same outcome, with a represented store where there is one. -/
inductive Refines {α : Type} : Except CppError (α × ReplState) → Except CppError (α × TableSet) → Prop
  | ok {a : α} {st : ReplState} {ts : TableSet} : Owns st ts → Refines (.ok (a, st)) (.ok (a, ts))
  | error {e : CppError} : Refines (.error e) (.error e)

section

variable {st : ReplState} {ts : TableSet} {arch : Arch} {host : ReplHost} {name : String}

/-! ### Reading the tables -/

lemma Owns.deref (h : Owns st ts) {e : TableEntry} (he : e ∈ st.tableStorage) :
    st.deref e.ptr = .ok e.table := by
  have hfind : st.tableStorage.find? (fun e' => e'.ptr = e.ptr) = some e :=
    get?_of_mem h.owners he
  unfold ReplState.deref
  rw [hfind]

lemma Owns.mapM_deref (h : Owns st ts) {es : List TableEntry}
    (hsub : es ⊆ st.tableStorage) :
    (es.map TableEntry.ptr).mapM st.deref = .ok (es.map TableEntry.table) := by
  induction es with
  | nil => rfl
  | cons e es ih =>
    rw [List.map_cons, List.mapM_cons, h.deref (hsub List.mem_cons_self),
      ih fun e' he' => hsub (List.mem_cons_of_mem e he')]
    rfl

lemma Owns.catalog (h : Owns st ts) : st.catalog = .ok ts.catalog := by
  unfold ReplState.catalog TableSet.catalog
  rw [h.parallel, h.mapM_deref (List.Subset.refl _), ← h.values, List.map_map]
  rfl

lemma find_map {es : List TableEntry} : TableSet.find (es.map TableEntry.value) name =
    (get? (fun e : TableEntry => e.table.name) name es).map TableEntry.value := by
  unfold TableSet.find get?
  rw [List.find?_map]
  rfl

lemma Owns.findTable (h : Owns st ts) :
    st.findTable name st.tables = .ok ((ts.find name).map NamedTable.table) := by
  have hfrom : ∀ es : List TableEntry, es ⊆ st.tableStorage →
      st.findTable name (es.map TableEntry.ptr) =
        .ok ((TableSet.find (es.map TableEntry.value) name).map NamedTable.table) := by
    intro es hsub
    induction es with
    | nil => rfl
    | cons e es ih =>
      rw [find_map] at ih ⊢
      have hrest := ih fun e' he' => hsub (List.mem_cons_of_mem e he')
      rw [List.map_cons, ReplState.findTable, h.deref (hsub List.mem_cons_self)]
      unfold get? at hrest ⊢
      by_cases hname : e.table.name = name
      · simp only [List.find?_cons, hname, decide_true]
        change (if e.table.name = name then _ else _) = _
        rw [if_pos hname]
        rfl
      · simp only [List.find?_cons, hname, decide_false]
        change (if e.table.name = name then _ else _) = _
        rw [if_neg hname, hrest]
  rw [h.parallel, hfrom st.tableStorage (List.Subset.refl _), h.values]

/-- The CSV table of a name is the one behind the pointer to that name. -/
lemma Owns.findCSVTable (h : Owns st ts) :
    st.findCSVTable name = (ts.find name).bind NamedTable.csv := by
  have hfrom : ∀ es : List TableEntry, ((es.map TableEntry.value).map NamedTable.name).Nodup →
      es.findSome? (fun e => e.csvTable?.filter fun t => t.table.name = name) =
        (TableSet.find (es.map TableEntry.value) name).bind NamedTable.csv := by
    intro es hnodup
    induction es with
    | nil => rfl
    | cons e es ih =>
      rw [List.map_cons, List.map_cons] at hnodup
      obtain ⟨hnot, hrest⟩ := List.nodup_cons.mp hnodup
      have hes := ih hrest
      rw [find_map] at hes ⊢
      unfold get? at hes ⊢
      by_cases hname : e.table.name = name
      · -- no later entry has the name
        have hnone : es.find? (fun e' => e'.table.name = name) = none := by
          rw [List.find?_eq_none]
          intro e' he' heq
          refine hnot ?_
          have hsame : e'.value.name = e.value.name := by
            change e'.table.name = e.table.name
            rw [hname]
            exact of_decide_eq_true heq
          rw [← hsame]
          exact List.mem_map_of_mem (List.mem_map_of_mem he')
        rw [hnone] at hes
        rw [List.findSome?_cons, hes]
        cases e with
        | csv owner t =>
          change t.table.name = name at hname
          simp [TableEntry.csvTable?, TableEntry.table, TableEntry.value, hname, Option.filter]
        | mem owner t =>
          change t.name = name at hname
          simp [TableEntry.csvTable?, TableEntry.table, TableEntry.value, hname]
      · rw [List.findSome?_cons, hes]
        cases e with
        | csv owner t =>
          change ¬ t.table.name = name at hname
          simp [TableEntry.csvTable?, TableEntry.table, hname, Option.filter]
        | mem owner t =>
          change ¬ t.name = name at hname
          simp [TableEntry.csvTable?, TableEntry.table, hname]
  unfold ReplState.findCSVTable
  rw [hfrom st.tableStorage (h.values ▸ h.names), h.values]

lemma Owns.columnMemory (h : Owns st ts) : st.columnMemory = ts.memory := by
  funext address
  unfold ReplState.columnMemory TableSet.memory
  rw [← h.values, List.flatMap_map]
  rfl

/-! ### Registering a table -/

lemma Owns.register (h : Owns st ts) {owner : Nat} (howner : owner ∉ st.tables)
    (csv : CSVTable) : ∃ st', st.registerCSVTable owner csv = .ok st' ∧
      Owns st' (ts.register csv) := by
  have hstorage : ∀ st' : ReplState,
      st'.tableStorage = upsert (fun e => e.table.name) (.csv owner csv) st.tableStorage →
      st'.tables = st'.tableStorage.map TableEntry.ptr → st'.tables.Nodup →
      Owns st' (ts.register csv) := by
    intro st' hst' hparallel hnodup
    refine ⟨hparallel, hparallel ▸ hnodup, ?_, nodup_upsert h.names⟩
    have hname : ∀ e : TableEntry, e.value.name = e.table.name := fun _ => rfl
    rw [hst', map_upsert NamedTable.name TableEntry.value hname, h.values]
    rfl
  have hlen : st.tables.length = st.tableStorage.length := by
    rw [h.parallel, List.length_map]
  unfold ReplState.registerCSVTable
  cases hidx : st.tableStorage.findIdx? fun e => e.table.name = csv.table.name with
  | none =>
    refine ⟨_, rfl, hstorage _ (upsert_of_none hidx).symm ?_ ?_⟩
    · change st.tables ++ [owner] = (st.tableStorage ++ [TableEntry.csv owner csv]).map TableEntry.ptr
      rw [h.parallel, List.map_append]
      rfl
    · change (st.tables ++ [owner]).Nodup
      rw [← List.concat_eq_append]
      exact (h.parallel ▸ h.owners).concat howner
  | some i =>
    have hi : i < st.tableStorage.length := (List.findIdx?_eq_some_iff_findIdx_eq.mp hidx).1
    dsimp only
    rw [if_pos (hlen ▸ hi)]
    refine ⟨_, rfl, hstorage _ (upsert_of_some hidx).symm ?_ ?_⟩
    · change st.tables.set i owner = (st.tableStorage.set i (TableEntry.csv owner csv)).map TableEntry.ptr
      rw [h.parallel, List.map_set]
      rfl
    · exact (h.parallel ▸ h.owners).set howner

/-! ### Lines -/

lemma Owns.cmdSchema (h : Owns st ts) (arg : Bytes) :
    cmdSchema arg st = ts.schema arg := by
  unfold TidyTuples.cmdSchema TableSet.schema
  dsimp only
  rw [h.findTable]
  cases hfind : ts.find (String.ofList (schemaName arg)) with
  | none => rfl
  | some t =>
    simp only [h.findCSVTable, hfind]
    rfl

lemma Owns.queryTables (h : Owns st ts) :
    queryTables arch host st = ts.query arch host := by
  funext sql explain
  unfold TidyTuples.queryTables TableSet.query
  rw [h.catalog, h.columnMemory]

lemma refines_reply (h : Owns st ts) (x : Except CppError Reply) :
    Refines (do return (← x, st)) (do return (← x, ts)) := by
  cases x with
  | ok reply => exact .ok h
  | error e => exact .error

lemma Owns.load (h : Owns st ts) {args : Bytes}
    (howner : (loadedFrom host args).isSome → host.owner ∉ st.tables) :
    Refines (cmdLoad host args st) (ts.load host args) := by
  unfold cmdLoad TableSet.load
  unfold loadedFrom at howner
  cases hwords : words args with
  | nil => exact .ok h
  | cons path rest =>
    cases rest with
    | nil => exact .ok h
    | cons tableName rest =>
      rw [hwords] at howner
      dsimp only at howner ⊢
      cases hload : loadCSV host.columns (String.ofList path) (String.ofList tableName)
          (host.file path) with
      | error e =>
        cases e with
        | runtimeError what => exact .ok h
        | outOfRange what => exact .ok h
        | undefinedBehaviour what => exact .error
        | diverges => exact .error
      | ok csv =>
        rw [hload] at howner
        obtain ⟨st', hst', h'⟩ := h.register (howner rfl) csv
        simp only [catchException, bind, Except.bind, hst']
        exact .ok h'

lemma Owns.command (h : Owns st ts) {cmd : Bytes} (howner : cmd.take 4 = "load".toList →
    (loadedFrom host (cmd.drop 4)).isSome → host.owner ∉ st.tables) :
    Refines (execCommand host cmd st) (ts.command host cmd) := by
  unfold execCommand TableSet.command
  split_ifs
  · exact .ok h
  · unfold cmdTables
    rw [h.catalog]
    exact .ok h
  · exact .ok h
  · rw [h.cmdSchema]
    exact refines_reply h _
  · exact h.load (howner ‹_›)
  · exact .ok h

lemma Owns.step (h : Owns st ts) {line : Bytes}
    (howner : (loadedBy (host, line)).isSome → host.owner ∉ st.tables) :
    Refines (execLine arch host line st) (ts.step arch host line) := by
  unfold execLine TableSet.step
  unfold loadedBy at howner
  dsimp only at howner
  cases htrim : trimLine line with
  | nil => exact .ok h
  | cons c rest =>
    rw [htrim] at howner
    dsimp only at howner ⊢
    split_ifs with hc
    · refine h.command fun hload => ?_
      rwa [if_pos ⟨hc, hload⟩] at howner
    · rw [h.queryTables]
      exact refines_reply h _

/-- Line by line. -/
theorem Owns.session (h : Owns st ts) (lines : List (ReplHost × Bytes))
    (hfresh : FreshOwners arch lines st) :
    Refines (runREPL arch lines st) (ts.session arch lines) := by
  induction lines generalizing st ts with
  | nil => exact .ok h
  | cons x rest ih =>
    obtain ⟨host, line⟩ := x
    obtain ⟨howner, hrest⟩ := hfresh
    have hstep : Refines (execLine arch host line st) (ts.step arch host line) := h.step howner
    rw [runREPL, TableSet.session]
    generalize ts.step arch host line = result at hstep ⊢
    cases hexec : execLine arch host line st with
    | error e =>
      rw [hexec] at hstep
      cases hstep
      exact .error
    | ok r =>
      rw [hexec] at hstep hrest
      cases hstep with
      | @ok reply st' ts' h' =>
        by_cases hquit : reply = .quit
        · simp only [bind, Except.bind, hquit, if_true]
          exact .ok h'
        · have hlater := ih h' hrest
          simp only [bind, Except.bind, hquit, if_false]
          generalize ts'.session arch rest = result' at hlater ⊢
          cases hrun : runREPL arch rest st' with
          | error e =>
            rw [hrun] at hlater
            cases hlater
            exact .error
          | ok r' =>
            rw [hrun] at hlater
            cases hlater with
            | ok h'' => exact .ok h''

lemma builtin_owns {owner : Nat → Nat} (howner : owner 0 ≠ owner 1) (address : Nat → Word) :
    Owns (.builtin owner address) (TableSet.builtin address) where
  parallel := rfl
  owners := by simpa [ReplState.builtin, ReplState.addEntry, TableEntry.ptr] using howner
  values := rfl
  names := (by decide : ["customers", "orders"].Nodup)

/-- A session of the loop is a session on tables by name: the same replies, and in the end the same
tables, each owned once and pointed to once. -/
theorem runREPL_refines (arch : Arch) (lines : List (ReplHost × Bytes)) (owner : Nat → Nat)
    (address : Nat → Word) (howner : owner 0 ≠ owner 1)
    (hfresh : FreshOwners arch lines (.builtin owner address)) :
    Refines (runREPL arch lines (.builtin owner address))
      ((TableSet.builtin address).session arch lines) :=
  (builtin_owns howner address).session lines hfresh

/-- The host of the `n`-th line, with one file of orders. -/
def ordersHost (n : Nat) : ReplHost where
  file path :=
    if path = "d.csv".toList then some ["id,amount".toList, "7,3000".toList] else none
  owner := n
  columns c := 4096 + 64 * BitVec.ofNat 64 c
  operators id := 16384 + 256 * BitVec.ofNat 64 id
  printer := 8192
  heap := emptyHeap
  regs _ := .word 0
  fuel := 0

/-- The orders are replaced; the line behind `.quit` is not executed. -/
def ordersSession : List (ReplHost × Bytes) :=
  [(ordersHost 2, ".load d.csv orders".toList), (ordersHost 3, " .schema orders ".toList),
    (ordersHost 4, ".quit".toList), (ordersHost 5, ".load d.csv customers".toList)]

theorem runREPL_refines_orders :
    Refines (runREPL .x86 ordersSession (.builtin id fun c => BitVec.ofNat 64 c))
      ((TableSet.builtin fun c => BitVec.ofNat 64 c).session .x86 ordersSession) :=
  runREPL_refines .x86 ordersSession id (fun c => BitVec.ofNat 64 c) (by decide) (by decide +kernel)

/-! ### What a name stands for -/

lemma load_tables {args : Bytes} {reply : Reply} {ts' : TableSet}
    (h : ts.load host args = .ok (reply, ts')) :
    ts' = (loadedFrom host args).elim ts ts.register := by
  unfold TableSet.load at h
  unfold loadedFrom
  cases hwords : words args with
  | nil =>
    rw [hwords] at h
    cases h
    rfl
  | cons path rest =>
    cases rest with
    | nil =>
      rw [hwords] at h
      cases h
      rfl
    | cons tableName rest =>
      rw [hwords] at h
      dsimp only at h ⊢
      cases hload : loadCSV host.columns (String.ofList path) (String.ofList tableName)
          (host.file path) with
      | error e =>
        rw [hload] at h
        cases e <;> cases h <;> rfl
      | ok csv =>
        rw [hload] at h
        cases h
        rfl

/-- A command registers what it loads. -/
lemma command_tables {cmd : Bytes} {reply : Reply} {ts' : TableSet}
    (h : ts.command host cmd = .ok (reply, ts')) :
    ts' = ts ∧ cmd.take 4 ≠ "load".toList ∨
      cmd.take 4 = "load".toList ∧ ts.load host (cmd.drop 4) = .ok (reply, ts') := by
  unfold TableSet.command at h
  split_ifs at h with hquit htables hhelp hschema hload
  · cases h
    refine .inl ⟨rfl, ?_⟩
    rcases hquit with rfl | rfl <;> decide
  · cases h
    exact .inl ⟨rfl, by rw [htables]; decide⟩
  · cases h
    exact .inl ⟨rfl, by rw [hhelp]; decide⟩
  · have hnot : cmd.take 4 ≠ "load".toList := by
      have hfour : cmd.take 4 = (cmd.take 6).take 4 := by
        rw [List.take_take]
        rfl
      rw [hfour, hschema]
      decide
    cases hview : ts.schema (cmd.drop 6) with
    | error e =>
      rw [hview] at h
      cases h
    | ok view =>
      rw [hview] at h
      cases h
      exact .inl ⟨rfl, hnot⟩
  · exact .inr ⟨hload, h⟩
  · cases h
    exact .inl ⟨rfl, hload⟩

/-- A line registers what it loads. -/
lemma step_tables {line : Bytes} {reply : Reply} {ts' : TableSet}
    (h : ts.step arch host line = .ok (reply, ts')) :
    ts' = (loadedBy (host, line)).elim ts ts.register := by
  unfold TableSet.step at h
  unfold loadedBy
  dsimp only
  cases htrim : trimLine line with
  | nil =>
    rw [htrim] at h
    cases h
    rfl
  | cons c rest =>
    rw [htrim] at h
    dsimp only at h ⊢
    by_cases hc : c = '.'
    · rw [if_pos hc] at h
      rcases command_tables h with ⟨rfl, hnot⟩ | ⟨hload, h⟩
      · rw [if_neg fun hboth => hnot hboth.2]
        rfl
      · rw [if_pos ⟨hc, hload⟩]
        exact load_tables h
    · rw [if_neg hc] at h
      rw [if_neg fun hboth => hc hboth.1]
      cases hreply : execStatement (ts.query arch host) (c :: rest) with
      | error e =>
        rw [hreply] at h
        cases h
      | ok reply' =>
        rw [hreply] at h
        cases h
        rfl

/-- The lines up to `.quit` register what they load, in order. -/
lemma session_tables {lines : List (ReplHost × Bytes)} {replies : List Reply} {ts' : TableSet}
    (h : ts.session arch lines = .ok (replies, ts')) :
    ts' = ((lines.take replies.length).filterMap loadedBy).foldl TableSet.register ts := by
  induction lines generalizing ts replies with
  | nil =>
    cases h
    rfl
  | cons x rest ih =>
    obtain ⟨host, line⟩ := x
    rw [TableSet.session] at h
    cases hstep : ts.step arch host line with
    | error e =>
      rw [hstep] at h
      cases h
    | ok r =>
      obtain ⟨reply, ts₁⟩ := r
      have hone := step_tables hstep
      have hregister : ∀ xs : List (ReplHost × Bytes),
          (((host, line) :: xs).filterMap loadedBy).foldl TableSet.register ts =
            (xs.filterMap loadedBy).foldl TableSet.register ts₁ := by
        intro xs
        rw [hone, List.filterMap_cons]
        cases loadedBy (host, line) <;> rfl
      simp only [hstep, bind, Except.bind] at h
      split_ifs at h with hquit
      · cases h
        exact (hregister []).symm
      · cases hrest : ts₁.session arch rest with
        | error e =>
          rw [hrest] at h
          cases h
        | ok r =>
          rw [hrest] at h
          cases h
          rw [ih hrest]
          exact (hregister _).symm

lemma catalog_lookup (hnodup : (ts.map NamedTable.name).Nodup) (name : String) :
    ts.catalog.lookup name = match ts.find name with
      | some t => .ok t.table
      | none => throwRuntime ("Unknown table: " ++ name) := by
  have hnames : (ts.catalog.map InMemoryTable.name).Nodup := by
    unfold TableSet.catalog
    rw [List.map_map]
    exact hnodup
  have hreverse := get?_reverse (k := name) hnames
  unfold SQLCatalog.lookup TableSet.find
  unfold get? at hreverse ⊢
  simp only [beq_eq_decide]
  rw [hreverse]
  unfold TableSet.catalog
  rw [List.find?_map]
  cases hfind : ts.find? fun t => decide (t.name = name) with
  | none =>
    have hfind' : ts.find? ((fun t : InMemoryTable => decide (t.name = name)) ∘ NamedTable.table) = none :=
      hfind
    rw [hfind']
    rfl
  | some t =>
    have hfind' : ts.find? ((fun t : InMemoryTable => decide (t.name = name)) ∘ NamedTable.table) =
        some t := hfind
    rw [hfind']
    rfl

/-- The built-in tables have no dictionary. -/
lemma find_builtin (address : Nat → Word) (name : String) :
    ((TableSet.builtin address).find name).map NamedTable.table =
        (TableSet.builtin address).catalog.find? (fun t => t.name = name) ∧
      ((TableSet.builtin address).find name).bind NamedTable.csv = none := by
  unfold TableSet.find get? TableSet.catalog
  rw [List.find?_map]
  refine ⟨rfl, ?_⟩
  cases hfind : (TableSet.builtin address).find? fun t => t.name = name with
  | none => rfl
  | some t =>
    have hmem := List.mem_of_find?_eq_some hfind
    unfold TableSet.builtin at hmem
    rcases List.mem_pair.mp hmem with rfl | rfl <;> rfl

/-- After some loads a name stands for the last of them. -/
lemma find_register (ts : TableSet) (csvs : List CSVTable) (name : String) :
    (csvs.foldl TableSet.register ts).find name =
      ((csvs.reverse.find? fun csv => csv.table.name = name).map fun csv =>
        (⟨csv.table, some csv⟩ : NamedTable)).or (ts.find name) := by
  have hfold : csvs.foldl TableSet.register ts =
      (csvs.map fun csv => (⟨csv.table, some csv⟩ : NamedTable)).foldl
        (fun ts t => upsert NamedTable.name t ts) ts := by
    rw [List.foldl_map]
    rfl
  unfold TableSet.find
  rw [hfold, get?_foldl_upsert, ← List.map_reverse]
  unfold get?
  rw [List.find?_map]
  rfl

/-- In every session each pointer is that of the entry beside it and leads to its table, the names are
distinct, and a name stands for the table that was last loaded under it, or else for a built-in one:
in the catalog, for the loop over the pointers and for the search for the dictionary. -/
theorem runREPL_lookup (arch : Arch) (lines : List (ReplHost × Bytes)) (owner : Nat → Nat)
    (address : Nat → Word) (howner : owner 0 ≠ owner 1)
    (hfresh : FreshOwners arch lines (.builtin owner address)) (replies : List Reply) (st : ReplState)
    (h : runREPL arch lines (.builtin owner address) = .ok (replies, st)) :
    st.tables = st.tableStorage.map TableEntry.ptr ∧
    (∀ e ∈ st.tableStorage, st.deref e.ptr = .ok e.table) ∧
    (st.tableStorage.map fun e => e.table.name).Nodup ∧
    ∀ name, ∃ last : Option CSVTable,
      last = ((lines.take replies.length).filterMap loadedBy).reverse.find? (fun csv =>
        csv.table.name = name) ∧
      st.findCSVTable name = last ∧
      st.findTable name st.tables = .ok ((last.map CSVTable.table).or
        ((TableSet.builtin address).catalog.find? fun t => t.name = name)) ∧
      ∃ catalog, st.catalog = .ok catalog ∧ catalog.lookup name = match last with
        | some csv => .ok csv.table
        | none => (TableSet.builtin address).catalog.lookup name := by
  have hrefines := (builtin_owns howner address).session lines hfresh
  rw [h] at hrefines
  cases hsession : (TableSet.builtin address).session arch lines with
  | error e =>
    rw [hsession] at hrefines
    cases hrefines
  | ok r =>
    rw [hsession] at hrefines
    cases hrefines with
    | @ok _ _ ts hts =>
      refine ⟨hts.parallel, fun e he => hts.deref he, ?_, fun name => ⟨_, rfl, ?_⟩⟩
      · have hnames := hts.names
        rwa [← hts.values, List.map_map] at hnames
      · have hfind := find_register (TableSet.builtin address)
          ((lines.take replies.length).filterMap loadedBy) name
        rw [← session_tables hsession] at hfind
        have hbuiltin := find_builtin address name
        refine ⟨?_, ?_, ts.catalog, hts.catalog, ?_⟩
        · rw [hts.findCSVTable, hfind]
          cases ((lines.take replies.length).filterMap loadedBy).reverse.find? fun csv =>
              csv.table.name = name with
          | none => exact hbuiltin.2
          | some csv => rfl
        · rw [hts.findTable, hfind]
          cases ((lines.take replies.length).filterMap loadedBy).reverse.find? fun csv =>
              csv.table.name = name with
          | none => exact congrArg Except.ok hbuiltin.1
          | some csv => rfl
        · rw [catalog_lookup hts.names, catalog_lookup (builtin_owns howner address).names, hfind]
          cases ((lines.take replies.length).filterMap loadedBy).reverse.find? fun csv =>
            csv.table.name = name <;> rfl

end

lemma ordersSession_runs : (runREPL .x86 ordersSession (.builtin id fun c => BitVec.ofNat 64 c)).map
    Prod.fst = .ok [.loaded "orders" 1 [("id", false), ("amount", false)],
      .schema ⟨"orders", 1, ["id", "amount"], [[.number 7, .number 3000]], 0⟩, .quit] := by
  decide +kernel

theorem runREPL_lookup_orders : ∃ replies st,
    runREPL .x86 ordersSession (.builtin id fun c => BitVec.ofNat 64 c) = .ok (replies, st) ∧
    st.findTable "orders" st.tables = .ok (some ⟨"orders", 1,
      [⟨"id", .integer, 4096, [7]⟩, ⟨"amount", .integer, 4160, [3000]⟩]⟩) ∧
    st.findCSVTable "customers" = none := by
  have hreplies := ordersSession_runs
  cases hrun : runREPL .x86 ordersSession (.builtin id fun c => BitVec.ofNat 64 c) with
  | error e =>
    rw [hrun] at hreplies
    cases hreplies
  | ok r =>
    rw [hrun] at hreplies
    obtain ⟨-, -, -, hname⟩ := runREPL_lookup .x86 ordersSession id
      (fun c => BitVec.ofNat 64 c) (by decide) (by decide +kernel) r.1 r.2 hrun
    refine ⟨r.1, r.2, rfl, ?_, ?_⟩
    · obtain ⟨last, hlast, -, htable, -⟩ := hname "orders"
      rw [htable, hlast, Except.ok.inj hreplies]
      decide +kernel
    · obtain ⟨last, hlast, hcsv, -⟩ := hname "customers"
      rw [hcsv, hlast, Except.ok.inj hreplies]
      decide +kernel

end Proofs

end TidyTuples
