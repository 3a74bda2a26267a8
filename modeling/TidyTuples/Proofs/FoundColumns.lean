import TidyTuples.Proofs.EquiJoins
import TidyTuples.Proofs.Reordering
import TidyTuples.Proofs.Writable

/-!
# Where columns are found

A column name is looked up in the scans, and these have the tables of the FROM entries: of the last
one, where an alias is repeated.
-/

namespace TidyTuples

/-- A column of the table answers to the name. -/
def InMemoryTable.Offers (table : InMemoryTable) (colName : String) : Prop :=
  ∃ col ∈ table.columns, table.Answers col colName

namespace FromEntries

/-- The table that is scanned under an alias: that of its last entry. -/
def tableOf (entries : FromEntries) (aliasName : String) : Option InMemoryTable :=
  entries.reverse.lookup aliasName

/-- The entries with the tables that are scanned. -/
def scanned (entries : FromEntries) : FromEntries :=
  entries.map fun x => (x.1, (entries.tableOf x.1).getD x.2)

/-- The column is found in the table of the alias. An unqualified column is found where no other
table has an answer to its name. -/
structure Finds (entries : FromEntries) (ref : ColumnRef) (a : String) : Prop where
  offered : ∃ x ∈ entries, x.1 = a ∧ x.2.Offers ref.colName
  qualified : ref.tableAlias ≠ "" → ref.tableAlias = a
  unqualified : ref.tableAlias = "" → ∀ x ∈ entries, x.2.Offers ref.colName → x.1 = a

end FromEntries

namespace Proofs

open QueryPlanner

/-- The scans of FROM entries, one for each alias. -/
structure FromScans (entries : FromEntries) (scans : Scans) (ctx : CompilationContext) : Prop where
  scan : ∀ x ∈ entries, ∃ s, scans.lookup x.1 = some s ∧ s.table = x.2
  only : ∀ a s, scans.lookup a = some s → (a, s.table) ∈ entries
  keys : (scans.map Prod.fst).Nodup
  named : ∀ x ∈ entries, x.1 ≠ ""
  apart : ScansApart ctx scans

section

variable {catalog : SQLCatalog} {stmt : SelectStmt} {entries : FromEntries} {scans : Scans}
  {ctx ctx' : CompilationContext} {ref : ColumnRef} {iu : IU} {a : String}

/-! ### The scans -/

lemma lookup_iff_mem {α : Type} {l : List (String × α)} (h : (l.map Prod.fst).Nodup) {a : String}
    {x : α} : l.lookup a = some x ↔ (a, x) ∈ l := by
  induction l with
  | nil => simp
  | cons y rest ih =>
    obtain ⟨hy, hrest⟩ := List.nodup_cons.mp h
    rw [List.lookup_cons, List.mem_cons]
    by_cases hay : a = y.1
    · subst hay
      have hnot : (y.1, x) ∉ rest := fun hmem =>
        hy (List.mem_map.mpr ⟨_, hmem, rfl⟩)
      rw [beq_self_eq_true, or_iff_left hnot, Prod.ext_iff]
      simp [eq_comm]
    · have hne : (a, x) ≠ y := fun heq => hay (congrArg Prod.fst heq)
      rw [beq_eq_false_iff_ne.mpr hay, or_iff_right hne]
      exact ih hrest

lemma createScans_keys {refs : List TableRef} {scans scans' : Scans}
    (hkeys : (scans.map Prod.fst).Nodup)
    (h : createScans catalog refs scans ctx = .ok (scans', ctx')) : (scans'.map Prod.fst).Nodup := by
  induction refs generalizing scans ctx with
  | nil =>
    obtain ⟨rfl, -⟩ := run_pure_ok h
    exact hkeys
  | cons ref rest ih =>
    obtain ⟨table, -, hrest⟩ := run_createScans_cons h
    apply ih _ hrest
    rw [List.map_cons]
    apply List.nodup_cons.mpr
    constructor
    · intro hmem
      obtain ⟨x, hx, hname⟩ := List.mem_map.mp hmem
      have hne := (List.mem_filter.mp hx).2
      rw [hname] at hne
      simp at hne
    · exact hkeys.sublist (List.filter_sublist.map Prod.fst)

lemma isIdentifier_ne_empty {name : String} (h : isIdentifier name = true) : name ≠ "" := by
  rintro rfl
  revert h
  decide +kernel

/-! ### The tables that are scanned -/

/-- The scans that are created hold the tables of the last entries. -/
lemma createScans_tables {refs : List TableRef}
    (h : createScans catalog refs scans ctx = .ok (scans', ctx'))
    (hentries : List.Forall₂ (fun ref x => ref.aliasName = x.1 ∧
      catalog.lookup ref.tableName = .ok x.2) refs entries) (a : String) :
    (scans'.lookup a).map ScanTranslator.table =
      (entries.tableOf a).or ((scans.lookup a).map ScanTranslator.table) := by
  induction hentries generalizing scans ctx with
  | nil =>
    obtain ⟨rfl, rfl⟩ := run_pure_ok h
    rfl
  | @cons ref x refs entries hx _ ih =>
    obtain ⟨hname, htable⟩ := hx
    obtain ⟨table, hlookup, hrest⟩ := run_createScans_cons h
    have hsame : table = x.2 := Except.ok.inj (hlookup.symm.trans htable)
    have hlast : FromEntries.tableOf (x :: entries) a =
        (FromEntries.tableOf entries a).or (if a = x.1 then some x.2 else none) := by
      unfold FromEntries.tableOf
      rw [List.reverse_cons, List.lookup_append]
      congr 1
      rw [List.lookup_cons, List.lookup_nil]
      by_cases hax : a = x.1
      · rw [if_pos hax, hax, beq_self_eq_true]
      · rw [if_neg hax, beq_eq_false_iff_ne.mpr hax]
    rw [ih hrest, hlast, Option.or_assoc, lookup_insert, hname, hsame]
    congr 1
    split_ifs
    · rfl
    · rfl

/-- The scans and the FROM entries name the same tables. -/
lemma scans_tables (hentries : stmt.entries catalog = .ok entries)
    (hscans : createScans catalog stmt.fromList [] ctx = .ok (scans, ctx')) (a : String) :
    (scans.lookup a).map ScanTranslator.table = entries.tableOf a := by
  rw [createScans_tables hscans (entries_forall₂ hentries) a]
  exact Option.or_none

lemma tableOf_eq_none_iff {a : String} : entries.tableOf a = none ↔ a ∉ entries.map Prod.fst := by
  unfold FromEntries.tableOf
  rw [List.lookup_eq_none_iff, List.mem_map]
  constructor
  · rintro hne ⟨x, hx, rfl⟩
    have hself := hne x (List.mem_reverse.mpr hx)
    simp at hself
  · intro hnot x hx
    simp only [bne_iff_ne]
    rintro rfl
    exact hnot ⟨x, List.mem_reverse.mp hx, rfl⟩

lemma scanned_aliases (entries : FromEntries) :
    entries.scanned.map Prod.fst = entries.map Prod.fst := by
  rw [FromEntries.scanned, List.map_map]
  rfl

lemma tableOf_of_mem {x : String × InMemoryTable} (hx : x ∈ entries) :
    ∃ table, entries.tableOf x.1 = some table ∧ (x.1, table) ∈ entries := by
  cases htable : entries.tableOf x.1 with
  | none => exact absurd (List.mem_map_of_mem hx) (tableOf_eq_none_iff.mp htable)
  | some table =>
    obtain ⟨before, after, hsplit, -⟩ := List.lookup_eq_some_iff.mp htable
    have hmem : (x.1, table) ∈ entries.reverse := hsplit ▸ List.mem_append_right _ List.mem_cons_self
    exact ⟨table, rfl, List.mem_reverse.mp hmem⟩

lemma mem_scanned {x : String × InMemoryTable} :
    x ∈ entries.scanned ↔ entries.tableOf x.1 = some x.2 := by
  constructor
  · intro hx
    obtain ⟨y, hy, rfl⟩ := List.mem_map.mp hx
    obtain ⟨table, htable, -⟩ := tableOf_of_mem hy
    dsimp only
    rw [htable]
    rfl
  · intro htable
    obtain ⟨y, hy, hname⟩ : ∃ y ∈ entries, y.1 = x.1 := by
      have hmem : x.1 ∈ entries.map Prod.fst := by
        by_contra hnot
        rw [tableOf_eq_none_iff.mpr hnot] at htable
        cases htable
      exact List.mem_map.mp hmem
    refine List.mem_map.mpr ⟨y, hy, ?_⟩
    rw [hname, htable]
    rfl

/-- Where no alias is repeated, every entry has its own table. -/
lemma scanned_eq (h : (entries.map Prod.fst).Nodup) : entries.scanned = entries := by
  unfold FromEntries.scanned
  nth_rewrite 3 [← List.map_id entries]
  apply List.map_congr_left
  intro x hx
  obtain ⟨table, htable, hmem⟩ := tableOf_of_mem hx
  rw [htable]
  exact List.inj_on_of_nodup_map h hmem hx rfl

lemma fromScans_of_created (hscans : createScans catalog stmt.fromList [] ctx = .ok (scans, ctx'))
    (hentries : stmt.entries catalog = .ok entries) (hwritable : stmt.Writable) :
    FromScans entries.scanned scans ctx' := by
  obtain ⟨-, hapart, -⟩ := createScans_scansOf hscans
  have htables := scans_tables hentries hscans
  constructor
  · intro x hx
    have hx' := mem_scanned.mp hx
    rw [← htables] at hx'
    exact Option.map_eq_some_iff.mp hx'
  · intro a s hs
    apply mem_scanned.mpr
    rw [← htables, hs]
    rfl
  · exact createScans_keys (show ([].map Prod.fst : List String).Nodup from List.nodup_nil) hscans
  · intro x hx
    have hmem : x.1 ∈ stmt.fromList.map TableRef.aliasName := by
      rw [← entries_aliases hentries, ← scanned_aliases]
      exact List.mem_map_of_mem hx
    obtain ⟨ref, href, hname⟩ := List.mem_map.mp hmem
    exact hname ▸ isIdentifier_ne_empty (hwritable.tables ref href).2
  · exact hapart

/-! ### Where columns are found -/

lemma getIU_isOk {scan : ScanTranslator} {colName : String} :
    (scan.getIU colName).isOk = true ↔ scan.table.Offers colName := by
  unfold InMemoryTable.Offers
  rw [← getIU_ok_iff]
  cases scan.getIU colName with
  | error e => simp [Except.isOk, Except.toBool]
  | ok iu => simp [Except.isOk, Except.toBool]

lemma FromScans.scan_iff (h : FromScans entries scans ctx) {s : ScanTranslator} :
    scans.lookup a = some s ↔ (a, s) ∈ scans := lookup_iff_mem h.keys

/-- Exactly one scan answers to an unqualified column that is found. -/
lemma FromScans.hits_iff (h : FromScans entries scans ctx) (hne : ref.tableAlias = "") :
    (∃ s, hits scans ref.colName = [(a, s)]) ↔ entries.Finds ref a := by
  constructor
  · rintro ⟨s, hs⟩
    obtain ⟨hmem, hok, hunique⟩ := (filter_eq_singleton h.keys).mp hs
    have hentry := h.only a s (h.scan_iff.mpr hmem)
    constructor
    · exact ⟨(a, s.table), hentry, rfl, getIU_isOk.mp hok⟩
    · exact fun hq => absurd hne hq
    · intro _ x hx hoffers
      obtain ⟨t, ht, htable⟩ := h.scan x hx
      exact hunique (x.1, t) (h.scan_iff.mp ht) (getIU_isOk.mpr (htable.symm ▸ hoffers))
  · intro hfinds
    obtain ⟨x, hx, rfl, hoffers⟩ := hfinds.offered
    obtain ⟨s, hs, htable⟩ := h.scan x hx
    refine ⟨s, (filter_eq_singleton h.keys).mpr ⟨h.scan_iff.mp hs, ?_, ?_⟩⟩
    · exact getIU_isOk.mpr (htable.symm ▸ hoffers)
    · intro y hy hok
      have hentry := h.only y.1 y.2 (h.scan_iff.mpr hy)
      exact hfinds.unqualified hne _ hentry (getIU_isOk.mp hok)

/-- A column resolves to an IU of the scan in which it is found. -/
lemma FromScans.resolveColumn_iff (h : FromScans entries scans ctx)
    (hspace : ' ' ∉ ref.colName.toList) : resolveColumn scans ref = .ok iu ↔
      ∃ a s, entries.Finds ref a ∧ scans.lookup a = some s ∧ s.getIU ref.colName = .ok iu := by
  by_cases hne : ref.tableAlias = ""
  · have hnames : ∀ x ∈ scans, x.1 ≠ "" := fun x hx =>
      h.named _ (h.only x.1 x.2 (h.scan_iff.mpr hx))
    have halias : resolveAlias scans ref = searchScans ref.colName scans "" :=
      if_neg (not_not.mpr hne)
    rw [searchScans_eq hspace hnames] at halias
    simp only [← h.hits_iff hne]
    rcases hhits : hits scans ref.colName with _ | ⟨x, _ | ⟨y, rest⟩⟩
    · rw [hhits] at halias
      rw [resolveColumn_of_error hne halias]
      apply iff_of_false
      · intro hok
        cases hok
      · rintro ⟨a, s, ⟨t, ht⟩, -⟩
        cases ht
    · have hmem : x ∈ hits scans ref.colName := hhits ▸ List.mem_singleton_self x
      have hlookup : scans.lookup x.1 = some x.2 := h.scan_iff.mpr (List.mem_of_mem_filter hmem)
      rw [hhits] at halias
      rw [resolveColumn_of_found hne halias hlookup]
      constructor
      · exact fun hok => ⟨x.1, x.2, ⟨x.2, rfl⟩, hlookup, hok⟩
      · rintro ⟨a, s, ⟨t, ht⟩, hs, hok⟩
        cases ht
        rw [hlookup] at hs
        cases hs
        exact hok
    · rw [hhits] at halias
      rw [resolveColumn_of_error hne halias]
      apply iff_of_false
      · intro hok
        cases hok
      · rintro ⟨a, s, ⟨t, ht⟩, -⟩
        cases ht
  · rw [Proofs.resolveColumn_iff hne]
    constructor
    · rintro ⟨s, hs, hok⟩
      refine ⟨ref.tableAlias, s, ?_, hs, hok⟩
      constructor
      · exact ⟨_, h.only _ _ hs, rfl, getIU_ok_iff.mp ⟨iu, hok⟩⟩
      · exact fun _ => rfl
      · exact fun hq => absurd hq hne
    · rintro ⟨a, s, hfinds, hs, hok⟩
      rw [hfinds.qualified hne]
      exact ⟨s, hs, hok⟩

lemma FromScans.resolves_of_finds (h : FromScans entries scans ctx)
    (hspace : ' ' ∉ ref.colName.toList) (hfinds : entries.Finds ref a) :
    ∃ iu, resolveColumn scans ref = .ok iu ∧ iu.id ∈ idsOf scans a := by
  obtain ⟨x, hx, rfl, hoffers⟩ := hfinds.offered
  obtain ⟨s, hs, htable⟩ := h.scan x hx
  obtain ⟨iu, hiu⟩ := getIU_ok_iff.mpr (htable.symm ▸ hoffers : s.table.Offers ref.colName)
  refine ⟨iu, (h.resolveColumn_iff hspace).mpr ⟨x.1, s, hfinds, hs, hiu⟩, ?_⟩
  rw [idsOf, hs]
  exact getIU_ids hiu

/-- The column is found in the table whose IU it resolves to. -/
lemma FromScans.finds_iff (h : FromScans entries scans ctx) (hspace : ' ' ∉ ref.colName.toList) :
    (∃ iu, resolveColumn scans ref = .ok iu ∧ iu.id ∈ idsOf scans a) ↔ entries.Finds ref a := by
  constructor
  · rintro ⟨iu, hres, hid⟩
    obtain ⟨b, s, hfinds, hs, hok⟩ := (h.resolveColumn_iff hspace).mp hres
    have hidb : iu.id ∈ idsOf scans b := by
      rw [idsOf, hs]
      exact getIU_ids hok
    have hab : a = b := by
      by_contra hne
      exact Set.disjoint_left.mp (idsOf_disjoint h.apart hne) hid hidb
    rwa [hab]
  · exact h.resolves_of_finds hspace

lemma FromScans.resolves_iff (h : FromScans entries scans ctx) (hspace : ' ' ∉ ref.colName.toList) :
    (∃ iu, resolveColumn scans ref = .ok iu) ↔ ∃ a, entries.Finds ref a := by
  constructor
  · rintro ⟨iu, hres⟩
    obtain ⟨a, s, hfinds, -⟩ := (h.resolveColumn_iff hspace).mp hres
    exact ⟨a, hfinds⟩
  · rintro ⟨a, hfinds⟩
    obtain ⟨iu, hres, -⟩ := h.resolves_of_finds hspace hfinds
    exact ⟨iu, hres⟩

/-! ### Names of writable statements -/

lemma columns_isIdentifier {e : Expr} (h : e.isWritable = true) :
    ∀ ref ∈ e.columns, isIdentifier ref.colName = true := by
  induction e with
  | colRef ref =>
    rw [Expr.isWritable, Bool.and_eq_true] at h
    intro ref' href
    rw [List.mem_singleton.mp href]
    exact h.2
  | intLit n => exact fun ref href => absurd href List.not_mem_nil
  | binOp op l r ihl ihr =>
    rw [Expr.isWritable, Bool.and_eq_true] at h
    exact List.forall_mem_append.mpr ⟨ihl h.1, ihr h.2⟩

lemma noSpace_of_isIdentifier {name : String} (h : isIdentifier name = true) : ' ' ∉ name.toList :=
  notMem_of_isIdentifier h (by decide +kernel)

lemma conjunct_noSpace (hwritable : stmt.Writable) {c : Expr} (hc : c ∈ stmt.conjuncts)
    (href : ref ∈ c.columns) : ' ' ∉ ref.colName.toList := by
  obtain ⟨e, he, hmem⟩ := columns_of_mem_conjuncts hc href
  exact noSpace_of_isIdentifier (columns_isIdentifier (hwritable.whereExpr e he) ref hmem)

lemma item_isWritable (hwritable : stmt.Writable) {expr : Expr} {name : String}
    (hitem : SelectItem.item expr name ∈ stmt.selectList) : expr.isWritable = true := by
  rcases hwritable.selectList with hstar | ⟨-, hall⟩
  · rw [hstar] at hitem
    cases List.mem_singleton.mp hitem
  · have hexpr := hall _ hitem
    rw [SelectItem.isWritable, Bool.and_eq_true] at hexpr
    exact hexpr.1

lemma item_noSpace (hwritable : stmt.Writable) {expr : Expr} {name : String}
    (hitem : SelectItem.item expr name ∈ stmt.selectList) (href : ref ∈ expr.columns) :
    ' ' ∉ ref.colName.toList :=
  noSpace_of_isIdentifier (columns_isIdentifier (item_isWritable hwritable hitem) ref href)

/-! ### The SELECT list -/

/-- The IUs of some columns are columns of scans in the tree. -/
def OutputOf (entries : FromEntries) (scans : Scans) (output : List (IU × String))
    (refs : List ColumnRef) : Prop :=
  List.Forall₂ (fun p _ => p.1.id ∈ idsOfAll scans (entries.map Prod.fst)) output refs

lemma FromScans.resolveItem_output (h : FromScans entries scans ctx) (hwritable : stmt.Writable)
    {item : SelectItem} (hitem : item ∈ stmt.selectList) {ps : List (IU × String)}
    (hps : resolveItem scans (entries.map Prod.fst) item = .ok ps) :
    OutputOf entries scans ps (item.columns entries) := by
  cases item with
  | star =>
    obtain ⟨pss, rfl, hall⟩ := resolveStar_ok hps
    apply List.rel_flatten
    rw [List.forall₂_map_right_iff] at hall ⊢
    apply List.Forall₂.flip
    apply forall₂_imp_mem hall.flip
    intro x hx ps hexp
    obtain ⟨s, hs, htable⟩ := h.scan x hx
    change List.Forall₂ _ ps (x.2.columns.map _)
    rw [List.forall₂_map_right_iff, ← htable]
    apply (expandAlias_ok hs hexp).imp
    intro p col hget
    refine ⟨x.1, List.mem_map_of_mem hx, ?_⟩
    rw [idsOf, hs]
    exact getIU_ids hget
  | item expr name =>
    obtain ⟨ref, iu, x, rfl, hres, rfl⟩ := resolveColumnItem_ok hps
    obtain ⟨a, s, hfinds, hs, hget⟩ :=
      (h.resolveColumn_iff (item_noSpace hwritable hitem List.mem_cons_self)).mp hres
    obtain ⟨x, hx, rfl, -⟩ := hfinds.offered
    refine .cons ⟨x.1, List.mem_map_of_mem hx, ?_⟩ .nil
    rw [idsOf, hs]
    exact getIU_ids hget

lemma FromScans.resolveSelectList_output (h : FromScans entries scans ctx)
    (hwritable : stmt.Writable) {output : List (IU × String)}
    (houtput : resolveSelectList scans (entries.map Prod.fst) stmt.selectList = .ok output) :
    OutputOf entries scans output (stmt.outputColumns entries) := by
  obtain ⟨pss, rfl, hall⟩ := resolveSelectList_ok houtput
  apply List.rel_flatten
  rw [List.forall₂_map_right_iff]
  apply List.Forall₂.flip
  apply forall₂_imp_mem hall.flip
  intro item hitem ps hps
  exact h.resolveItem_output hwritable hitem hps

/-- The SELECT list is resolved when its items are stars and columns that are found. -/
lemma FromScans.resolveSelectList_iff (h : FromScans entries scans ctx)
    (hwritable : stmt.Writable) :
    (∃ output, resolveSelectList scans (entries.map Prod.fst) stmt.selectList = .ok output) ↔
      ∀ item ∈ stmt.selectList, item = .star ∨
        ∃ ref name a, item = .item (.colRef ref) name ∧ entries.Finds ref a := by
  constructor
  · rintro ⟨output, houtput⟩ item hitem
    obtain ⟨pss, -, hall⟩ := resolveSelectList_ok houtput
    obtain ⟨ps, -, hps⟩ := forall₂_mem_left hall.flip hitem
    cases item with
    | star => exact .inl rfl
    | item expr name =>
      obtain ⟨ref, iu, x, rfl, hres, -⟩ := resolveColumnItem_ok hps
      have hspace := item_noSpace hwritable hitem List.mem_cons_self
      obtain ⟨a, hfinds⟩ := (h.resolves_iff hspace).mp ⟨iu, hres⟩
      exact .inr ⟨ref, name, a, rfl, hfinds⟩
  · intro hitems
    cases houtput : resolveSelectList scans (entries.map Prod.fst) stmt.selectList with
    | ok output => exact ⟨output, rfl⟩
    | error e =>
      obtain ⟨item, hitem, herr⟩ := resolveSelectList_error houtput
      rcases hitems item hitem with rfl | ⟨ref, name, a, rfl, hfinds⟩
      · obtain ⟨b, hb, hexp⟩ := resolveStar_error herr
        obtain ⟨x, hx, rfl⟩ := List.mem_map.mp hb
        obtain ⟨s, hs, -⟩ := h.scan x hx
        obtain ⟨col, hcol, hget⟩ := expandAlias_error hs hexp
        obtain ⟨iu, hiu⟩ := getIU_ok_iff.mpr ⟨col, hcol, answers_own s.table col⟩
        rw [hget] at hiu
        cases hiu
      · have hspace := item_noSpace hwritable hitem List.mem_cons_self
        obtain ⟨iu, hiu, -⟩ := h.resolves_of_finds hspace hfinds
        dsimp only [resolveItem] at herr
        rw [hiu] at herr
        cases herr

/-! ### The WHERE clause -/

/-- Only join keys are resolved while the conjuncts are classified. -/
lemma classify_ok_iff {aliases : List String} :
    (∃ cs, classify scans aliases stmt.whereExpr = .ok cs) ↔
      ∀ c ∈ stmt.conjuncts, (keyColumns c).isSome → ∀ ref ∈ c.columns,
        ∃ iu, resolveColumn scans ref = .ok iu := by
  constructor
  · rintro ⟨cs, hcs⟩ c hc hkey ref href
    obtain ⟨⟨l, r⟩, hlr⟩ := Option.isSome_iff_exists.mp hkey
    obtain ⟨rfl, -⟩ := keyColumns_iff.mp hlr
    obtain ⟨jk, -, lIU, rIU, hl, hr, -⟩ := (classify_spec hcs).complete hc hlr
    rcases List.mem_pair.mp href with rfl | rfl
    · exact ⟨lIU, hl⟩
    · exact ⟨rIU, hr⟩
  · intro hkeys
    cases hcs : classify scans aliases stmt.whereExpr with
    | ok cs => exact ⟨cs, rfl⟩
    | error e =>
      obtain ⟨c, hc, l, r, hlr, herr⟩ := classify_error hcs
      have hres := hkeys c hc (by rw [hlr]; rfl)
      obtain ⟨rfl, hl, hr, -⟩ := keyColumns_iff.mp hlr
      obtain ⟨lIU, hlIU⟩ := hres l List.mem_cons_self
      obtain ⟨rIU, hrIU⟩ := hres r (List.mem_cons_of_mem l (List.mem_singleton_self r))
      obtain ⟨jk, hjk⟩ := @makeJoinKey_ok scans aliases l r hl hr lIU rIU hlIU hrIU
      rw [hjk] at herr
      cases herr

end

end Proofs

end TidyTuples
