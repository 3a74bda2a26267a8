import TidyTuples.Proofs.QueryResults
import TidyTuples.Proofs.Sessions

/-!
# Queries in a session

What the loop prints for a statement: the answer over the tables last loaded, the first forty rows of
a long one.
-/

namespace TidyTuples

/-- All rows, or the first forty of more than 45 and how many are left. -/
def shownRows (rows : List (List Word)) : List ResultLine :=
  if rows.length ≤ 45 then rows.map .row
  else (rows.take 40).map .row ++ [.more (rows.length - 40)]

/-- What a result looks like. -/
def QueryResult.shown (r : QueryResult) : Reply :=
  if r.columnNames = [] then .silent
  else .result r.columnNames (shownRows r.rows) r.rows.length

/-- Columns at one address are the same: vectors that are not empty do not overlap. -/
def ColumnsApart (st : ReplState) : Prop :=
  ∀ c ∈ st.tableStorage.flatMap (·.table.columns), ∀ c' ∈ st.tableStorage.flatMap (·.table.columns),
    c.address = c'.address → c.values = c'.values

namespace Proofs

/-! ### Printing -/

lemma printRows_short {total : Nat} (h : total ≤ 45) (printed : Nat) (rows : List (List Word)) :
    printRows total printed rows = rows.map .row := by
  induction rows generalizing printed with
  | nil => rfl
  | cons row rest ih =>
    rw [printRows, if_neg fun hboth => absurd hboth.2 (Nat.not_lt_of_le h), ih]
    rfl

/-- Behind the forty-first nothing is printed. -/
lemma printRows_behind {total printed : Nat} (h : 45 < total) (hprinted : 40 < printed)
    (rows : List (List Word)) : printRows total printed rows = [] := by
  induction rows generalizing printed with
  | nil => rfl
  | cons row rest ih =>
    rw [printRows, if_pos ⟨Nat.le_of_lt hprinted, h⟩, if_neg (Nat.ne_of_gt hprinted)]
    exact ih (Nat.lt_succ_of_lt hprinted)

lemma printRows_long {total printed : Nat} (h : 45 < total) (hprinted : printed ≤ 40)
    {rows : List (List Word)} (hrows : 40 < printed + rows.length) : printRows total printed rows =
      (rows.take (40 - printed)).map .row ++ [.more (total - 40)] := by
  induction rows generalizing printed with
  | nil =>
    rw [List.length_nil] at hrows
    omega
  | cons row rest ih =>
    rw [List.length_cons] at hrows
    by_cases hlast : printed = 40
    · subst hlast
      rw [printRows, if_pos ⟨Nat.le_refl _, h⟩, if_pos rfl, printRows_behind h (Nat.lt_succ_self _)]
      rfl
    · rw [printRows, if_neg fun hboth => hlast (Nat.le_antisymm hprinted hboth.1),
        ih (by omega) (by omega), show 40 - printed = (40 - (printed + 1)) + 1 by omega,
        List.take_succ_cons]
      rfl

lemma printRows_eq (rows : List (List Word)) : printRows rows.length 0 rows = shownRows rows := by
  unfold shownRows
  split_ifs with hshort
  · exact printRows_short hshort 0 rows
  · have hlong : 45 < rows.length := Nat.lt_of_not_le hshort
    exact printRows_long hlong (Nat.zero_le _) (by omega)

lemma printResult_eq (r : QueryResult) : printResult r = r.shown := by
  rw [printResult, QueryResult.shown, printRows_eq]

/-! ### Statements -/

lemma memory_of_mem {st : ReplState} (hapart : ColumnsApart st) {c : Column}
    (hc : c ∈ st.tableStorage.flatMap (·.table.columns)) : st.columnMemory c.address = c.values := by
  unfold ReplState.columnMemory
  cases hfind : (st.tableStorage.flatMap (·.table.columns)).find? (·.address == c.address) with
  | none =>
    have hnone := List.find?_eq_none.mp hfind c hc
    simp at hnone
  | some c' =>
    have hmem := List.mem_of_find?_eq_some hfind
    have haddress := List.find?_some hfind
    exact hapart c' hmem c hc (beq_iff_eq.mp haddress)

/-- The columns of the FROM entries are those of stored tables. -/
lemma loaded_of_owns {st : ReplState} {ts : TableSet} (h : Owns st ts)
    (hapart : ColumnsApart st) {stmt : SelectStmt} {entries : FromEntries}
    (hentries : stmt.entries ts.catalog = .ok entries) (heap : Heap) :
    entries.Loaded { heap with columns := st.columnMemory } := by
  intro x hx col hcol
  have hall := (entries_forall₂ hentries).flip
  obtain ⟨ref, -, -, hlookup⟩ := forall₂_mem_left hall hx
  rw [catalog_lookup h.names] at hlookup
  cases hfind : ts.find ref.tableName with
  | none =>
    rw [hfind] at hlookup
    cases hlookup
  | some t =>
    rw [hfind] at hlookup
    have htable : t.table = x.2 := Except.ok.inj hlookup
    have ht : t ∈ st.tableStorage.map TableEntry.value := h.values ▸ List.mem_of_find?_eq_some hfind
    obtain ⟨e, he, rfl⟩ := List.mem_map.mp ht
    refine memory_of_mem hapart (List.mem_flatMap.mpr ⟨e, he, ?_⟩)
    change col ∈ e.value.table.columns
    rwa [htable]

lemma execLine_statement (arch : Arch) (host : ReplHost) {line : Bytes} (st : ReplState)
    (hnil : trimLine line ≠ []) (hcommand : (trimLine line).head? ≠ some '.')
    (hexplain : ((trimLine line).map Char.toUpper).take 7 ≠ "EXPLAIN".toList) :
    execLine arch host line st =
      match catchException (queryTables arch host st (trimLine line) none).2 with
      | .error e => .error e
      | .ok (.error e) => .ok (.error e, st)
      | .ok (.ok none) => .ok (.running, st)
      | .ok (.ok (some r)) => .ok (printResult r, st) := by
  unfold execLine
  cases htrim : trimLine line with
  | nil => exact absurd htrim hnil
  | cons c rest =>
    rw [htrim] at hcommand hexplain
    have hc : c ≠ '.' := fun heq => hcommand (congrArg some heq)
    dsimp only
    rw [if_neg hc]
    unfold execStatement
    rw [if_neg hexplain]
    cases catchException (queryTables arch host st (c :: rest) none).2 with
    | error e => rfl
    | ok x =>
      cases x with
      | error e => rfl
      | ok x => cases x <;> rfl

lemma queryTables_eq (arch : Arch) (host : ReplHost) {st : ReplState} {catalog : SQLCatalog}
    (h : st.catalog = .ok catalog) (sql : Bytes) :
    (queryTables arch host st sql none).2 =
      runQuery arch host.operators catalog host.printer (String.ofList sql) false
        { host.heap with columns := st.columnMemory } host.regs host.fuel := by
  unfold queryTables
  rw [h]
  rfl

/-- At the prompt, after any session, a statement over the tables of that time is rejected or its
answer is printed. -/
theorem execLine_answers (arch : Arch) (lines : List (ReplHost × Bytes)) (owner : Nat → Nat)
    (address : Nat → Word) (howner : owner 0 ≠ owner 1)
    (hfresh : FreshOwners arch lines (.builtin owner address)) (replies : List Reply) (st : ReplState)
    (hrun : runREPL arch lines (.builtin owner address) = .ok (replies, st))
    (hapart : ColumnsApart st) (catalog : SQLCatalog) (hcatalog : st.catalog = .ok catalog)
    (host : ReplHost) (line : Bytes) (stmt : SelectStmt) (entries : FromEntries)
    (hcommand : (trimLine line).head? ≠ some '.')
    (hexplain : ((trimLine line).map Char.toUpper).take 7 ≠ "EXPLAIN".toList)
    (hparse : parseSQL (String.ofList (trimLine line)) = .ok stmt)
    (ha : stmt.Answerable catalog entries)
    (htables : FreshTables host.operators (3 * stmt.fromList.length) host.heap)
    (hruns : RunsAsPlanned arch host.operators catalog host.printer stmt
      { host.heap with columns := st.columnMemory } host.regs) :
    (∃ e, ∀ fuel, execLine arch { host with fuel } line st = .ok (.error e, st) ∨
      execLine arch { host with fuel } line st = .error e) ∨
    ∃ rows, (rows.map (·.map some)).Perm (stmt.answer entries) ∧ ∃ n, ∀ fuel ≥ n,
      execLine arch { host with fuel } line st =
        .ok (QueryResult.shown ⟨stmt.outputNames entries, applyLimit stmt.limit rows⟩, st) := by
  have hnil : trimLine line ≠ [] := by
    intro hempty
    have hrejects : (parseSQL (String.ofList [])).isOk = false := by decide +kernel
    rw [hempty] at hparse
    rw [hparse] at hrejects
    cases hrejects
  have hexec : ∀ fuel, execLine arch { host with fuel } line st = _ := fun fuel =>
    execLine_statement arch { host with fuel } st hnil hcommand hexplain
  have hquery := fun fuel => queryTables_eq arch { host with fuel } hcatalog
    (trimLine line)
  -- the tables of the statement are those of the session
  have hrefines := (builtin_owns howner address).session lines hfresh
  rw [hrun] at hrefines
  cases hsession : (TableSet.builtin address).session arch lines with
  | error e =>
    rw [hsession] at hrefines
    cases hrefines
  | ok r =>
    rw [hsession] at hrefines
    cases hrefines with
    | @ok _ _ ts hts =>
      have hsame : catalog = ts.catalog := Except.ok.inj (hcatalog.symm.trans hts.catalog)
      have hloaded := loaded_of_owns hts hapart (hsame ▸ ha.found) host.heap
      cases hcompile : compileStmt host.operators catalog host.printer stmt (initialContext
          (Heap.newPrinter { host.heap with columns := st.columnMemory } host.printer)) with
      | error e =>
        refine .inl ⟨e, fun fuel => ?_⟩
        rw [hexec, hquery, runQuery_of_error hparse hcompile]
        cases e <;> simp [catchException]
      | ok r =>
        obtain ⟨rows, hperm, n, hn⟩ := runQuery_of_compiled hparse ha hloaded
          ⟨htables.apart, htables.empty⟩ hruns hcompile
        refine .inr ⟨rows, hperm, n, fun fuel hfuel => ?_⟩
        rw [hexec, hquery, hn fuel hfuel, ← printResult_eq]
        rfl

/-! ### The orders, once they are loaded -/

def loadedOrders : InMemoryTable :=
  ⟨"orders", 1, [⟨"id", .integer, 4096, [7]⟩, ⟨"amount", .integer, 4160, [3000]⟩]⟩

/-- `SELECT o.amount FROM orders o WHERE o.id = 7` -/
def ordersStmt : SelectStmt where
  selectList := [.item (.colRef ⟨"o", "amount"⟩) ""]
  fromList := [⟨"orders", "o"⟩]
  whereExpr := some (.binOp .eq (.colRef ⟨"o", "id"⟩) (.intLit 7))
  limit := noLimit

def ordersLine : Bytes := " SELECT o.amount FROM orders o WHERE o.id = 7 ".toList

def ordersCatalog : SQLCatalog := [customersTable fun c => BitVec.ofNat 64 c, loadedOrders]

lemma ordersStmt_qualified : ordersStmt.Qualified [("o", loadedOrders)] where
  selectList := by
    intro ref href
    have : ref = ⟨"o", "amount"⟩ := by
      simpa [ordersStmt, SelectStmt.outputColumns, SelectItem.columns, Expr.columns] using href
    subst this
    exact ⟨by decide, _, List.mem_cons_self, rfl, by decide⟩
  whereExpr := by
    rintro e ⟨⟩ ref href
    have : ref = ⟨"o", "id"⟩ := by simpa [Expr.columns] using href
    subst this
    exact ⟨by decide, _, List.mem_cons_self, rfl, by decide⟩

lemma ordersStmt_answerable : ordersStmt.Answerable ordersCatalog [("o", loadedOrders)] := by
  have hall : ∀ x ∈ [("o", loadedOrders)], x.2 = loadedOrders := by
    intro x hx
    rw [List.mem_singleton.mp hx]
  refine ⟨by decide, by decide, ordersStmt_qualified, by decide, fun x hx => ?_, fun x hx => ?_⟩
  · rw [hall x hx]
    exact ⟨by decide, by decide, by decide⟩
  · rw [hall x hx]
    decide

instance (st : ReplState) : Decidable (ColumnsApart st) := by
  unfold ColumnsApart
  infer_instance

/-- The tables after a session are the orders that were loaded, and the statement is run on them. -/
def runsOnOrders (r : List Reply × ReplState) : Bool :=
  decide (r.2.catalog = .ok ordersCatalog) && decide (ColumnsApart r.2) &&
    decide ((execLine .x86 (ordersHost 6) ordersLine r.2).map Prod.fst = .ok .running) &&
    (compileStmt (ordersHost 6).operators ordersCatalog 8192 ordersStmt
      (initialContext (Heap.newPrinter { emptyHeap with columns := r.2.columnMemory } 8192))).toOption.all
        plansClean

lemma ordersSession_clean : (runREPL .x86 (ordersSession.take 2)
    (.builtin id fun c => BitVec.ofNat 64 c)).toOption.any runsOnOrders = true := by
  decide +kernel

theorem execLine_answers_orders : ∃ replies st, runREPL .x86 (ordersSession.take 2)
      (.builtin id fun c => BitVec.ofNat 64 c) = .ok (replies, st) ∧ ∃ n, ∀ fuel ≥ n,
    execLine .x86 { ordersHost 6 with fuel } ordersLine st =
      .ok (.result ["amount"] [.row [3000]] 1, st) := by
  have hclean := ordersSession_clean
  cases hrun : runREPL .x86 (ordersSession.take 2) (.builtin id fun c => BitVec.ofNat 64 c) with
  | error e =>
    rw [hrun] at hclean
    cases hclean
  | ok r =>
    rw [hrun] at hclean
    obtain ⟨hthree, hplans⟩ := Bool.and_eq_true_iff.mp hclean
    obtain ⟨htwo, hstarts⟩ := Bool.and_eq_true_iff.mp hthree
    obtain ⟨hcatalog, hapart⟩ := Bool.and_eq_true_iff.mp htwo
    have hrunning := of_decide_eq_true hstarts
    refine ⟨r.1, r.2, rfl, ?_⟩
    rcases execLine_answers .x86 (ordersSession.take 2) id (fun c => BitVec.ofNat 64 c) (by decide)
      (by decide +kernel) r.1 r.2 hrun (of_decide_eq_true hapart) ordersCatalog
      (of_decide_eq_true hcatalog) (ordersHost 6) ordersLine ordersStmt [("o", loadedOrders)]
      (by decide) (by decide) (by decide +kernel) ordersStmt_answerable
      ⟨by decide, fun _ _ => rfl⟩ (runsAsPlanned_of_plansClean hplans) with
      ⟨e, herror⟩ | ⟨rows, hperm, hruns⟩
    · change (execLine .x86 { ordersHost 6 with fuel := 0 } ordersLine r.2).map Prod.fst = _ at hrunning
      rcases herror 0 with hreply | hreply
      · rw [hreply] at hrunning
        cases hrunning
      · rw [hreply] at hrunning
        cases hrunning
    · have hsome : rows.map (·.map some) = [[3000]].map (·.map some) :=
        List.perm_singleton.mp (hperm.trans (by decide))
      have hrows : rows = [[3000]] :=
        List.map_injective_iff.mpr (List.map_injective_iff.mpr (Option.some_injective Word)) hsome
      rw [hrows] at hruns
      exact hruns

end Proofs

end TidyTuples
