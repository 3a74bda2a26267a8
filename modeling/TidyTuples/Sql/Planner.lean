import TidyTuples.Operators.Translators

/-!
# The query planner (`sql_planner.cpp`, `sql_catalog.hpp`)

From a parsed statement to a tree of operators. The maps keyed by alias are association lists
with one entry a key. Where `alloc` puts the hash table of an operator is left open.
-/

namespace TidyTuples

/-- `tables[tbl->name] = tbl` for every table, in order. -/
abbrev SQLCatalog := List InMemoryTable

def SQLCatalog.lookup (catalog : SQLCatalog) (name : String) : Except CppError InMemoryTable :=
  match catalog.reverse.find? (·.name == name) with
  | some tbl => .ok tbl
  | none => throwRuntime ("Unknown table: " ++ name)

structure PlanResult where
  root : Operator
  outputIUs : List IU
  columnNames : List String

namespace QueryPlanner

/-- `std::unordered_map<std::string, ScanTranslator*> scans`. The tables of `aliasTables` are
those of the scans. -/
abbrev Scans := List (String × ScanTranslator)

/-! ### Conjuncts and aliases -/

/-- The top-level AND conjuncts. -/
def flattenAnd : Expr → List Expr
  | .binOp .and left right => flattenAnd left ++ flattenAnd right
  | e => [e]

/-- The aliases of an expression, each once, appended to `out`. -/
def collectAliases : Expr → List String → List String
  | .colRef ref, out =>
    if ref.tableAlias = "" ∨ ref.tableAlias ∈ out then out else out ++ [ref.tableAlias]
  | .binOp _ left right, out => collectAliases right (collectAliases left out)
  | .intLit _, out => out

def conjunctAliases (e : Expr) : List String := collectAliases e []

/-! ### Column resolution -/

/-- The search for an unqualified column; `found` is the alias it was found under so far. -/
def searchScans (colName : String) : Scans → String → Except CppError String
  | [], found =>
    if found = "" then throwRuntime ("Column not found: " ++ colName) else .ok found
  | (aliasName, scan) :: rest, found =>
    match scan.getIU colName with
    | .error _ => searchScans colName rest found
    | .ok _ =>
      if found = "" then searchScans colName rest aliasName
      else
        let msg := "Ambiguous column reference: " ++ colName
        -- an error that mentions a missing column does not end the search
        if "Column not found".toList <:+: msg.toList then searchScans colName rest found
        else throwRuntime msg

def resolveAlias (scans : Scans) (ref : ColumnRef) : Except CppError String :=
  if ref.tableAlias ≠ "" then
    match scans.lookup ref.tableAlias with
    | some _ => .ok ref.tableAlias
    | none => throwRuntime ("Unknown table alias: " ++ ref.tableAlias)
  else searchScans ref.colName scans ""

def resolveColumn (scans : Scans) (ref : ColumnRef) : Except CppError IU := do
  let aliasName ← if ref.tableAlias = "" then resolveAlias scans ref else pure ref.tableAlias
  match scans.lookup aliasName with
  | some scan => scan.getIU ref.colName
  | none => throwRuntime ("Unknown table alias: " ++ aliasName)

/-! ### Phase 1: the scans -/

def newOperator : Gen Nat := fun ctx =>
  .ok (ctx.numOperators, { ctx with numOperators := ctx.numOperators + 1 })

/-- `ScanTranslator`'s constructor. -/
def newScan (table : InMemoryTable) : Gen ScanTranslator := do
  let id ← newOperator
  fun ctx => .ok (⟨id, table, ctx.nextIUId⟩,
    { ctx with nextIUId := ctx.nextIUId + table.columns.length })

def createScans (catalog : SQLCatalog) : List TableRef → Scans → Gen Scans
  | [], scans => return scans
  | ref :: rest, scans => do
    let tbl ← Gen.ofExcept (catalog.lookup ref.tableName)
    let scan ← newScan tbl
    createScans catalog rest ((ref.aliasName, scan) :: scans.filter (·.1 != ref.aliasName))

/-! ### Phase 2: classification of the conjuncts -/

structure JoinKey where
  buildAlias : String
  probeAlias : String
  buildIU : IU
  probeIU : IU

structure Conjuncts where
  filterConjuncts : String → List Expr := fun _ => []
  joinKeys : List JoinKey := []
  postJoinFilters : List Expr := []

/-- `filterConjuncts[alias].push_back(c)`. -/
def Conjuncts.addFilter (cs : Conjuncts) (aliasName : String) (c : Expr) : Conjuncts :=
  let filters := cs.filterConjuncts aliasName ++ [c]
  { cs with filterConjuncts := Function.update cs.filterConjuncts aliasName filters }

/-- `scans[alias]->getIU(colName)`: an unknown alias is looked up to a null pointer. -/
def scanIU (scans : Scans) (aliasName colName : String) : Except CppError IU :=
  match scans.lookup aliasName with
  | some scan => scan.getIU colName
  | none => .error (.undefinedBehaviour "null ScanTranslator")

/-- The side whose alias comes first in FROM is the build side. -/
def makeJoinKey (scans : Scans) (aliases : List String) (lcr rcr : ColumnRef) :
    Except CppError JoinKey := do
  let la ← if lcr.tableAlias = "" then resolveAlias scans lcr else pure lcr.tableAlias
  let ra ← if rcr.tableAlias = "" then resolveAlias scans rcr else pure rcr.tableAlias
  if aliases.idxOf la ≤ aliases.idxOf ra then
    let buildIU ← scanIU scans la lcr.colName
    let probeIU ← scanIU scans ra rcr.colName
    return ⟨la, ra, buildIU, probeIU⟩
  else
    let buildIU ← scanIU scans ra rcr.colName
    let probeIU ← scanIU scans la lcr.colName
    return ⟨ra, la, buildIU, probeIU⟩

/-- `Eq(col, col)`. -/
def asColumnEq : Expr → Option (ColumnRef × ColumnRef)
  | .binOp .eq (.colRef l) (.colRef r) => some (l, r)
  | _ => none

def classifyConjunct (scans : Scans) (aliases : List String) (cs : Conjuncts) (c : Expr) :
    Except CppError Conjuncts :=
  match conjunctAliases c, asColumnEq c with
  | [aliasName], _ => .ok (cs.addFilter aliasName c)
  | [_, _], some (lcr, rcr) => do
    let jk ← makeJoinKey scans aliases lcr rcr
    return { cs with joinKeys := cs.joinKeys ++ [jk] }
  | _, _ => .ok { cs with postJoinFilters := cs.postJoinFilters ++ [c] }

def classify (scans : Scans) (aliases : List String) (whereExpr : Option Expr) :
    Except CppError Conjuncts :=
  match whereExpr with
  | none => .ok {}
  | some e => (flattenAnd e).foldlM (classifyConjunct scans aliases) {}

/-! ### Phase 3: the operator tree -/

def predicateOf (scans : Scans) (conjuncts : List Expr) : Predicate :=
  ⟨conjuncts, resolveColumn scans⟩

/-- The scan of an alias under its filter, if it has one. -/
def planScan (scans : Scans) (cs : Conjuncts) (aliasName : String) : Gen Operator := do
  match scans.lookup aliasName with
  | none => Gen.fail (.undefinedBehaviour "null ScanTranslator")
  | some scan =>
    if cs.filterConjuncts aliasName = [] then return .scan scan
    else
      let id ← newOperator
      return .select id (.scan scan) (predicateOf scans (cs.filterConjuncts aliasName))

/-- `plans`, filled in FROM order. -/
def planScans (scans : Scans) (cs : Conjuncts) :
    List String → List (String × Operator) → Gen (List (String × Operator))
  | [], plans => return plans
  | aliasName :: rest, plans => do
    let plan ← planScan scans cs aliasName
    planScans scans cs rest ((aliasName, plan) :: plans.filter (·.1 != aliasName))

/-- The keys of the first join, build side first. -/
def firstJoinKeys (joinKeys : List JoinKey) (firstAlias newAlias : String) : List (IU × IU) :=
  joinKeys.filterMap fun jk =>
    if jk.buildAlias = firstAlias ∧ jk.probeAlias = newAlias then some (jk.buildIU, jk.probeIU)
    else if jk.probeAlias = firstAlias ∧ jk.buildAlias = newAlias then some (jk.probeIU, jk.buildIU)
    else none

/-- The keys of a further join: all that mention the new alias. -/
def laterJoinKeys (joinKeys : List JoinKey) (newAlias : String) : List (IU × IU) :=
  joinKeys.filterMap fun jk =>
    if jk.buildAlias = newAlias then some (jk.buildIU, jk.probeIU)
    else if jk.probeAlias = newAlias then some (jk.probeIU, jk.buildIU)
    else none

/-- `plans[alias]`. -/
def planAt (plans : List (String × Operator)) (aliasName : String) : Gen Operator :=
  match plans.lookup aliasName with
  | some plan => pure plan
  | none => Gen.fail (.undefinedBehaviour "null OperatorTranslator")

/-- `HashJoinTranslator`'s constructor. -/
def newHashJoin (alloc : Nat → Word) (build probe : Operator) (keys : List (IU × IU)) :
    Gen Operator := do
  let id ← newOperator
  return .hashJoin id build probe (keys.map Prod.fst) (keys.map Prod.snd) (alloc id)

/-- The joins behind the first one: the new scan is the build side, the tree so far the probe
side. -/
def joinRest (alloc : Nat → Word) (joinKeys : List JoinKey) (plans : List (String × Operator)) :
    List String → Operator → Gen Operator
  | [], planRoot => return planRoot
  | newAlias :: rest, planRoot => do
    let build ← planAt plans newAlias
    let joined ← newHashJoin alloc build planRoot (laterJoinKeys joinKeys newAlias)
    joinRest alloc joinKeys plans rest joined

def joinTree (alloc : Nat → Word) (joinKeys : List JoinKey) (plans : List (String × Operator))
    (aliases : List String) : Gen Operator :=
  match aliases with
  | [] => Gen.fail (.undefinedBehaviour "aliases[0]")
  | [only] => planAt plans only
  | first :: second :: rest => do
    let build ← planAt plans first
    let probe ← planAt plans second
    let joined ← newHashJoin alloc build probe (firstJoinKeys joinKeys first second)
    joinRest alloc joinKeys plans rest joined

/-- The filter over the joins, if a conjunct is left for it. -/
def wrapPostJoin (scans : Scans) (cs : Conjuncts) (planRoot : Operator) : Gen Operator := do
  if cs.postJoinFilters = [] then return planRoot
  else
    let id ← newOperator
    return .select id planRoot (predicateOf scans cs.postJoinFilters)

/-! ### Phase 4: the SELECT list -/

/-- The columns of one FROM entry, as `*` expands to them. -/
def expandAlias (scans : Scans) (aliasName : String) : Except CppError (List (IU × String)) :=
  match scans.lookup aliasName with
  | none => .error (.undefinedBehaviour "null InMemoryTable")
  | some scan => scan.table.columns.mapM fun col => do
    return (← scan.getIU col.name, col.name)

def resolveItem (scans : Scans) (aliases : List String) :
    SelectItem → Except CppError (List (IU × String))
  | .star => do return (← aliases.mapM (expandAlias scans)).flatten
  | .item (.colRef ref) aliasName => do
    let iu ← resolveColumn scans ref
    return [(iu, if aliasName = "" then ref.colName else aliasName)]
  | .item _ _ => throwRuntime "Only column references supported in SELECT list"

def resolveSelectList (scans : Scans) (aliases : List String) (selectList : List SelectItem) :
    Except CppError (List (IU × String)) := do
  return (← selectList.mapM (resolveItem scans aliases)).flatten

/-- `QueryPlanner::plan`. -/
def plan (alloc : Nat → Word) (catalog : SQLCatalog) (stmt : SelectStmt) : Gen PlanResult := do
  let aliases := stmt.fromList.map TableRef.aliasName
  let scans ← createScans catalog stmt.fromList []
  let cs ← Gen.ofExcept (classify scans aliases stmt.whereExpr)
  let plans ← planScans scans cs aliases []
  let joined ← joinTree alloc cs.joinKeys plans aliases
  let root ← wrapPostJoin scans cs joined
  let output ← Gen.ofExcept (resolveSelectList scans aliases stmt.selectList)
  return ⟨root, output.map Prod.fst, output.map Prod.snd⟩

end QueryPlanner

end TidyTuples
