import TidyTuples.Proofs.PlanCorrect
import Mathlib.Algebra.BigOperators.Group.List.Basic

/-!
# The FROM entries in the join tree

The scans, the filters and the plans are kept by alias, but the joins run over the FROM list: a
repeated alias leads to the scan of its last entry each time.
-/

namespace TidyTuples

/-- The scans at the leaves, from left to right. -/
def Operator.scans : Operator → List ScanTranslator
  | scan s => [s]
  | select _ child _ => child.scans
  | hashJoin _ build probe _ _ _ => build.scans ++ probe.scans

namespace Proofs

open QueryPlanner

/-- Every FROM entry has a scan of its own in the tree, the sides of every join are two operators,
and without a WHERE clause the result is as large as the cross product. -/
structure TakesPart (stmt : SelectStmt) (entries : FromEntries) (result : PlanResult) : Prop where
  tables : (result.root.scans.map ScanTranslator.table).Perm (entries.map Prod.snd)
  distinct : (result.root.scans.map ScanTranslator.id).Nodup
  sides : SidesDistinct result.root
  count : stmt.whereExpr = none → (result.root.result result.outputIUs).length =
    (entries.map fun x => x.2.numRows).prod

section

variable {scans : Scans} {cs : Conjuncts} {order : List String} {root : Operator}
  {catalog : SQLCatalog} {stmt : SelectStmt} {ctx ctx' : CompilationContext}

/-! ### The leaves of a plan -/

lemma ScanUnder.leaves {a : String} (h : ScanUnder scans cs a root) :
    root.scans.map some = [scans.lookup a] := by
  cases h with
  | bare hs => rw [hs, Operator.scans, List.map_singleton]
  | filtered hs => rw [hs, Operator.scans, Operator.scans, List.map_singleton]

/-- The leaves are the scans of the aliases, in the order of the joins. -/
lemma Joined.leaves (h : Joined scans cs order root) :
    root.scans.map some = order.map fun a => scans.lookup a := by
  induction h with
  | scan h => exact h.leaves
  | first hb hp =>
    rw [Operator.scans, List.map_append, hb.leaves, hp.leaves]
    rfl
  | later _ _ hb _ ih =>
    rw [Operator.scans, List.map_append, hb.leaves, ih]
    rfl

lemma Planned.leaves (h : Planned scans cs order root) :
    root.scans.map some = order.map fun a => scans.lookup a := by
  cases h with
  | bare h => exact h.leaves
  | filtered h => exact h.leaves

lemma leaves_distinct (hleaves : root.scans.map some = order.map fun a => scans.lookup a)
    (hapart : ScansApart ctx scans) : (root.scans.map ScanTranslator.id).Nodup ↔ order.Nodup := by
  constructor
  · intro hids
    have hscans := (List.Nodup.of_map _ hids).map (Option.some_injective _)
    rw [hleaves] at hscans
    exact List.Nodup.of_map _ hscans
  · intro horder
    have hpair : (order.map fun a => scans.lookup a).Pairwise fun x y =>
        ∀ s t : ScanTranslator, x = some s → y = some t → s.id ≠ t.id := by
      rw [List.pairwise_map]
      exact horder.imp fun {a b} hab s t hs ht => (hapart.apart a b s t hs ht hab).1
    rw [← hleaves, List.pairwise_map] at hpair
    rw [List.Nodup, List.pairwise_map]
    exact hpair.imp fun h => h _ _ rfl rfl

lemma leaves_tables {entries : FromEntries}
    (hleaves : root.scans.map some = order.map fun a => scans.lookup a)
    (he : EntriesOf entries scans) (horder : order.Perm (entries.map Prod.fst)) :
    (root.scans.map ScanTranslator.table).Perm (entries.map Prod.snd) := by
  have htables : (entries.map Prod.fst).map (fun a => (scans.lookup a).map ScanTranslator.table) =
      (entries.map Prod.snd).map some := by
    rw [List.map_map, List.map_map]
    apply List.map_congr_left
    intro x hx
    obtain ⟨s, hs, htable⟩ := he.scan x hx
    change (scans.lookup x.1).map _ = _
    rw [hs, Option.map_some, htable]
    rfl
  have hperm := horder.map fun a => (scans.lookup a).map ScanTranslator.table
  have hscans : order.map (fun a => (scans.lookup a).map ScanTranslator.table) =
      (root.scans.map ScanTranslator.table).map some := by
    have h := congrArg (List.map (Option.map ScanTranslator.table)) hleaves
    rw [List.map_map, List.map_map] at h
    rw [List.map_map]
    exact h.symm
  rw [hscans, htables] at hperm
  have hsome := hperm.filterMap id
  simpa using hsome

/-! ### The size of a cross product -/

/-- Without keys every build row matches. -/
lemma join_rows_length (id : Nat) (build probe : Operator) (ht : Word) :
    (Operator.hashJoin id build probe [] [] ht).rows.length =
      build.rows.length * probe.rows.length := by
  have hall : ∀ p : Row, (build.rows.filter fun b => b.values [] = p.values []) = build.rows := by
    intro p
    apply List.filter_eq_self.mpr
    intro b _
    exact decide_eq_true rfl
  rw [Operator.rows, List.length_flatMap]
  simp only [hall, List.length_map, List.map_const', List.sum_replicate_nat]
  exact Nat.mul_comm _ _

lemma ScanUnder.rows_length {a : String} (h : ScanUnder scans cs a root)
    (hnone : cs.filterConjuncts a = []) :
    root.rows.length = (root.scans.map fun s => s.table.numRows).prod := by
  cases h with
  | bare => simp [Operator.rows, Operator.scans]
  | filtered _ hsome => exact absurd hnone hsome

lemma Joined.rows_length (h : Joined scans cs order root) (hnone : ∀ a, cs.filterConjuncts a = [])
    (hkeys : cs.joinKeys = []) :
    root.rows.length = (root.scans.map fun s => s.table.numRows).prod := by
  induction h with
  | scan h => exact h.rows_length (hnone _)
  | first hb hp =>
    rw [hkeys, Operator.scans, List.map_append, List.prod_append, ← hb.rows_length (hnone _),
      ← hp.rows_length (hnone _)]
    exact join_rows_length _ _ _ _
  | later _ _ hb _ ih =>
    rw [hkeys, Operator.scans, List.map_append, List.prod_append, ← hb.rows_length (hnone _), ← ih]
    exact join_rows_length _ _ _ _

/-! ### All entries -/

/-- Where scans are created, the tables exist. -/
lemma createScans_entries {refs : List TableRef} {scans scans' : Scans}
    (h : createScans catalog refs scans ctx = .ok (scans', ctx')) : ∃ entries : FromEntries,
      refs.mapM (fun ref => do return (ref.aliasName, ← catalog.lookup ref.tableName)) =
        Except.ok entries := by
  induction refs generalizing scans ctx with
  | nil => exact ⟨[], rfl⟩
  | cons ref rest ih =>
    obtain ⟨table, hlookup, hrest⟩ := run_createScans_cons h
    obtain ⟨entries, hentries⟩ := ih hrest
    refine ⟨(ref.aliasName, table) :: entries, ?_⟩
    rw [List.mapM_cons, hentries, hlookup]
    rfl

end

/-- Every FROM entry of a planned statement takes part if and only if no alias is repeated. -/
theorem takesPart_iff (alloc : Nat → Word) (catalog : SQLCatalog) (stmt : SelectStmt)
    (ctx ctx' : CompilationContext) (result : PlanResult)
    (h : plan alloc catalog stmt ctx = .ok (result, ctx')) :
    ∃ entries, stmt.entries catalog = .ok entries ∧
      (TakesPart stmt entries result ↔ (stmt.fromList.map TableRef.aliasName).Nodup) := by
  obtain ⟨scans, cs, hof, -⟩ := plan_spec h
  obtain ⟨ctx₁, hscans, happart⟩ := hof.created
  obtain ⟨entries, hentries⟩ := createScans_entries hscans
  refine ⟨entries, hentries, ?_⟩
  have hperm := joinOrder_perm (stmt.fromList.map TableRef.aliasName)
  have hleaves := hof.root.leaves
  constructor
  · intro htakes
    exact hperm.nodup_iff.mp ((leaves_distinct hleaves happart).mp htakes.distinct)
  · intro hnodup
    have he := hof.scansOf.entriesOf hentries hnodup
    have horder := hperm.nodup_iff.mpr hnodup
    have htables := leaves_tables hleaves he (by rwa [entries_aliases hentries])
    refine ⟨htables, (leaves_distinct hleaves happart).mpr horder, hof.root.distinct (joinBase_nodup horder), ?_⟩
    intro hwhere
    have hclass := hof.classified
    rw [hwhere] at hclass
    cases hclass
    have hjoined : Joined scans {} (joinOrder (stmt.fromList.map TableRef.aliasName)) result.root := by
      have hplanned := hof.root
      generalize result.root = root at hplanned ⊢
      cases hplanned with
      | bare h => exact h
      | filtered _ hsome => exact absurd rfl hsome
    have hcount := (htables.map InMemoryTable.numRows).prod_eq
    rw [List.map_map, List.map_map] at hcount
    rw [Operator.result, List.length_map, hjoined.rows_length (fun _ => rfl) rfl]
    exact hcount

/-- `SELECT * FROM pair a, pair b` with these aliases. -/
def crossStmt (aliases : List String) : SelectStmt where
  selectList := [.star]
  fromList := aliases.map fun a => ⟨"pair", a⟩
  whereExpr := none
  limit := noLimit

/-- The identities of the scans in the tree, where the statement is planned. -/
def scanIds (stmt : SelectStmt) : Except CppError (List Nat) :=
  (plan (fun _ => 16384) [pairTable] stmt (initialContext emptyHeap)).map fun r =>
    r.1.root.scans.map ScanTranslator.id

theorem takesPart_iff_pair : ∃ result ctx',
    plan (fun _ => 16384) [pairTable] (crossStmt ["a", "b"]) (initialContext emptyHeap) =
      .ok (result, ctx') ∧ TakesPart (crossStmt ["a", "b"]) [("a", pairTable), ("b", pairTable)] result := by
  have hids : scanIds (crossStmt ["a", "b"]) = .ok [0, 1] := by decide +kernel
  unfold scanIds at hids
  cases hplan : plan (fun _ => 16384) [pairTable] (crossStmt ["a", "b"]) (initialContext emptyHeap) with
  | error e =>
    rw [hplan] at hids
    cases hids
  | ok r =>
    obtain ⟨entries, hentries, htakes⟩ := takesPart_iff _ _ _ _ _ _ hplan
    have hpair : (crossStmt ["a", "b"]).entries [pairTable] =
        .ok [("a", pairTable), ("b", pairTable)] := by rfl
    obtain rfl := Except.ok.inj (hentries.symm.trans hpair)
    exact ⟨r.1, r.2, rfl, htakes.mpr (by decide)⟩

/-- `FROM pair a, pair a`: both sides of the join are the scan of the second entry. -/
theorem takesPart_repeated : ¬ ∀ alloc catalog stmt ctx ctx' result,
    plan alloc catalog stmt ctx = .ok (result, ctx') →
    ∃ entries, stmt.entries catalog = .ok entries ∧ TakesPart stmt entries result := by
  intro hall
  have hids : scanIds (crossStmt ["a", "a"]) = .ok [1, 1] := by decide +kernel
  unfold scanIds at hids
  cases hplan : plan (fun _ => 16384) [pairTable] (crossStmt ["a", "a"]) (initialContext emptyHeap) with
  | error e =>
    rw [hplan] at hids
    cases hids
  | ok r =>
    obtain ⟨entries, -, htakes⟩ := hall _ _ _ _ _ _ hplan
    rw [hplan] at hids
    have hscans : r.1.root.scans.map ScanTranslator.id = [1, 1] := Except.ok.inj hids
    have hdistinct := htakes.distinct
    rw [hscans] at hdistinct
    revert hdistinct
    decide

end Proofs

end TidyTuples
