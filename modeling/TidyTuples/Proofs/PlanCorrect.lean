import TidyTuples.Proofs.PlanShape
import TidyTuples.Proofs.Scoping
import TidyTuples.Proofs.ControlFlow

/-!
# Plans compute the answer

A plan that code generation accepts computes the answer to its statement: every conjunct is
enforced somewhere in the tree, and the tree's rows are those of the cross product.
-/

namespace TidyTuples.Proofs

open QueryPlanner Tuples

/-! ### Trees that code is generated for -/

section

variable {scans : Scans} {cs : Conjuncts} {ctx : CompilationContext} {conjs : List Expr}
  {order : List String} {root : Operator}

lemma ScanUnder.distinct {a : String} (h : ScanUnder scans cs a root) : SidesDistinct root := by
  cases h with
  | bare => exact trivial
  | filtered => exact trivial

lemma ScanUnder.raises {P : CppError → Prop} {a : String} (h : ScanUnder scans cs a root)
    (hP : ∀ ref e, resolveColumn scans ref = .error e → P e) : root.Raises P := by
  cases h with
  | bare => exact trivial
  | filtered hs hsome => exact ⟨trivial, hsome, hP⟩

lemma Joined.distinct (h : Joined scans cs order root) (hbase : (joinBase order).Nodup) :
    SidesDistinct root := by
  induction h with
  | scan h => exact h.distinct
  | first hb hp hid =>
    exact ⟨fun heq => joinBase_pair hbase (hid.mp heq), hb.distinct, hp.distinct⟩
  | later _ htwo hb hid ih => exact ⟨hid, hb.distinct, ih (joinBase_cons htwo ▸ hbase)⟩

lemma Joined.raises {P : CppError → Prop} (h : Joined scans cs order root)
    (hP : ∀ ref e, resolveColumn scans ref = .error e → P e) : root.Raises P := by
  induction h with
  | scan h => exact h.raises hP
  | first hb hp _ => exact ⟨hb.raises hP, hp.raises hP⟩
  | later _ _ hb _ ih => exact ⟨hb.raises hP, ih⟩

lemma Planned.distinct (h : Planned scans cs order root) (hbase : (joinBase order).Nodup) :
    SidesDistinct root := by
  cases h with
  | bare h => exact h.distinct hbase
  | filtered h => exact h.distinct hbase

/-- A plan raises the errors of the column resolution. -/
lemma Planned.raises {P : CppError → Prop} (h : Planned scans cs order root)
    (hP : ∀ ref e, resolveColumn scans ref = .error e → P e) : root.Raises P := by
  cases h with
  | bare h => exact h.raises hP
  | filtered h hsome => exact ⟨h.raises hP, hsome, hP⟩

/-! ### Rows of the tree -/

/-- The induction is on the joins; the keys of each are in scope because the tree is. -/
lemma Joined.tree (h : Joined scans cs order root) (hnodup : order.Nodup) (hs : root.Scoped)
    (hclass : Classified scans conjs cs) (hapart : ScansApart ctx scans)
    (hq : ∀ c ∈ conjs, AllQualified c)
    (hwf : ∀ a s, scans.lookup a = some s → s.table.WellFormed) : TreeOf scans conjs order root := by
  induction h with
  | scan h => exact h.tree hclass
  | @first f n build probe id ht hb hp hid =>
    obtain ⟨-, -, hbk, hpk⟩ := hs
    have hne := (List.nodup_cons.mp hnodup).1
    exact (hb.tree hclass).join hapart hq hne (hp.tree hclass) hbk hpk
      (first_keys_iff hclass hwf (by simpa using hne))
  | @later n done build probe id ht hjoined htwo hb hid ih =>
    obtain ⟨-, hsp, hbk, hpk⟩ := hs
    obtain ⟨hn, hdone⟩ := List.nodup_cons.mp hnodup
    have hprobe := ih hdone hsp
    have hscope : ∀ p ∈ laterJoinKeys cs.joinKeys n, p.2.id ∈ idsOfAll scans done :=
      fun p hp => (hprobe.outputs _).mp (hpk _ (List.mem_map_of_mem hp))
    exact (hb.tree hclass).join hapart hq hn hprobe hbk hpk
      (later_keys_iff hclass hapart hwf hscope)

/-- Every conjunct is a filter, a key or in the filter over the joins. -/
lemma Planned.rows (h : Planned scans cs order root) (hnodup : order.Nodup) (hs : root.Scoped)
    (hclass : Classified scans conjs cs) (hapart : ScansApart ctx scans)
    (hq : ∀ c ∈ conjs, AllQualified c)
    (hwf : ∀ a s, scans.lookup a = some s → s.table.WellFormed)
    (hall : ∀ c ∈ conjs, ∀ a ∈ conjunctAliases c, a ∈ order) : (root.rows : Multiset Row) =
      (prodAll (order.map (bagOf scans))).filter fun t => conjs.all (satisfies scans t) = true := by
  have hcases : ∀ t : Row, conjs.all (satisfies scans t) = true ↔ keeps scans conjs order t = true ∧
      cs.postJoinFilters.all (satisfies scans t) = true := by
    intro t
    rw [List.all_eq_true, keeps_iff, List.all_eq_true, hclass.postJoin]
    constructor
    · intro h
      exact ⟨fun c hc _ => h c hc, fun c hc => h c (List.mem_filter.mp hc).1⟩
    · rintro ⟨hkeep, hpost⟩ c hc
      by_cases hkind : (conjunctAliases c).length = 1 ∨ (keyColumns c).isSome
      · exact hkeep c hc ⟨hkind, hall c hc⟩
      · rw [not_or, Option.not_isSome_iff_eq_none] at hkind
        exact hpost c (List.mem_filter.mpr ⟨hc, decide_eq_true hkind⟩)
  cases h with
  | bare hj hnone =>
    rw [(hj.tree hnodup hs hclass hapart hq hwf).rows]
    apply Multiset.filter_congr
    intro t _
    rw [hcases, hnone]
    simp
  | @filtered op id hj hsome =>
    have htree := hj.tree hnodup hs.1 hclass hapart hq hwf
    have hfilter : op.rows.filter (predicateOf scans cs.postJoinFilters).holds =
        op.rows.filter fun t => cs.postJoinFilters.all (satisfies scans t) := by
      apply List.filter_congr
      intro t _
      rw [predicate_holds hsome]
      rfl
    have hrows : ((Operator.select id op (predicateOf scans cs.postJoinFilters)).rows :
        Multiset Row) = (op.rows : Multiset Row).filter fun t =>
          cs.postJoinFilters.all (satisfies scans t) = true := by
      rw [Multiset.filter_coe]
      simp only [Bool.decide_eq_true]
      exact congrArg _ hfilter
    rw [hrows, htree.rows, Multiset.filter_filter]
    apply Multiset.filter_congr
    intro t _
    rw [hcases, and_comm]

end

/-! ### Rows as tuples of columns -/

section

variable {catalog : SQLCatalog} {stmt : SelectStmt} {entries : FromEntries} {scans : Scans}
  {ctx : CompilationContext}

/-- The FROM entries with their scans. -/
structure EntriesOf (entries : FromEntries) (scans : Scans) : Prop where
  nodup : (entries.map Prod.fst).Nodup
  scan : ∀ x ∈ entries, ∃ s, scans.lookup x.1 = some s ∧ s.table = x.2
  only : ∀ a s, scans.lookup a = some s → (a, s.table) ∈ entries

lemma entries_forall₂ (h : stmt.entries catalog = .ok entries) :
    List.Forall₂ (fun ref x => ref.aliasName = x.1 ∧ catalog.lookup ref.tableName = .ok x.2)
      stmt.fromList entries := by
  apply (mapM_ok h).imp
  intro ref x hx
  cases hlookup : catalog.lookup ref.tableName with
  | error e =>
    rw [hlookup] at hx
    cases hx
  | ok table =>
    rw [hlookup] at hx
    cases hx
    exact ⟨rfl, rfl⟩

lemma entries_aliases (h : stmt.entries catalog = .ok entries) :
    entries.map Prod.fst = stmt.fromList.map TableRef.aliasName := by
  have hall := entries_forall₂ h
  clear h
  generalize stmt.fromList = refs at hall ⊢
  induction hall with
  | nil => rfl
  | cons hx _ ih => rw [List.map_cons, List.map_cons, hx.1, ih]

lemma ScansOf.entriesOf (h : ScansOf catalog stmt.fromList scans)
    (hentries : stmt.entries catalog = .ok entries)
    (hnodup : (stmt.fromList.map TableRef.aliasName).Nodup) : EntriesOf entries scans := by
  have haliases := entries_aliases hentries
  have hnodup' : (entries.map Prod.fst).Nodup := haliases ▸ hnodup
  have honly : ∀ a s, scans.lookup a = some s → (a, s.table) ∈ entries := by
    intro a s hs
    obtain ⟨ref, href, rfl, htable⟩ := h.table a s hs
    obtain ⟨x, hx, hname, hlookup⟩ := forall₂_mem_left (entries_forall₂ hentries) href
    have hxtable : s.table = x.2 := Except.ok.inj (htable.symm.trans hlookup)
    rwa [hname, hxtable]
  refine ⟨hnodup', fun x hx => ?_, honly⟩
  have hmem : x.1 ∈ stmt.fromList.map TableRef.aliasName :=
    haliases ▸ List.mem_map_of_mem hx
  obtain ⟨ref, href, hname⟩ := List.mem_map.mp hmem
  obtain ⟨s, hs⟩ := h.found ref href
  rw [hname] at hs
  have hsame := List.inj_on_of_nodup_map hnodup' (honly x.1 s hs) hx rfl
  exact ⟨s, hs, congrArg Prod.snd hsame⟩

/-- The row gives values to the columns of the FROM entries. -/
noncomputable def rowEnv (entries : FromEntries) (scans : Scans) (t : Row) : Env :=
  open Classical in
  fun ref => if entries.Has ref then t.env (resolveColumn scans) ref else none

/-- The columns of the FROM entries in a tuple. -/
noncomputable def restrictEnv (entries : FromEntries) (env : Env) : Env :=
  open Classical in
  fun ref => if entries.Has ref then env ref else none

lemma rowEnv_of_has {ref : ColumnRef} (h : entries.Has ref) (t : Row) :
    rowEnv entries scans t ref = t.env (resolveColumn scans) ref := if_pos h

lemma rowEnv_of_not {ref : ColumnRef} (h : ¬ entries.Has ref) (t : Row) :
    rowEnv entries scans t ref = none := if_neg h

lemma restrictEnv_of_has {ref : ColumnRef} (h : entries.Has ref) (env : Env) :
    restrictEnv entries env ref = env ref := if_pos h

lemma restrictEnv_of_not {ref : ColumnRef} (h : ¬ entries.Has ref) (env : Env) :
    restrictEnv entries env ref = none := if_neg h

lemma rowEnv_merge (a b : Row) : rowEnv entries scans (merge a b) =
    merge (rowEnv entries scans a) (rowEnv entries scans b) := by
  funext ref
  rw [merge]
  by_cases h : entries.Has ref
  · rw [rowEnv_of_has h, rowEnv_of_has h, rowEnv_of_has h]
    unfold Row.env
    cases resolveColumn scans ref <;> rfl
  · rw [rowEnv_of_not h, rowEnv_of_not h, rowEnv_of_not h]
    rfl

lemma restrictEnv_merge (a b : Env) : restrictEnv entries (merge a b) =
    merge (restrictEnv entries a) (restrictEnv entries b) := by
  funext ref
  rw [merge]
  by_cases h : entries.Has ref
  · rw [restrictEnv_of_has h, restrictEnv_of_has h, restrictEnv_of_has h]
    rfl
  · rw [restrictEnv_of_not h, restrictEnv_of_not h, restrictEnv_of_not h]
    rfl

/-- A column of a FROM entry resolves to the IU that has its values. -/
lemma EntriesOf.resolves (he : EntriesOf entries scans) (hwf : ∀ x ∈ entries, x.2.WellFormed)
    {ref : ColumnRef} (h : entries.Has ref) : ∃ s iu, scans.lookup ref.tableAlias = some s ∧
      resolveColumn scans ref = .ok iu ∧ ∀ i, s.row i iu.id = s.table.value i ref.colName := by
  obtain ⟨hne, x, hx, hname, hcol⟩ := h
  obtain ⟨s, hs, htable⟩ := he.scan x hx
  rw [hname] at hs
  rw [← htable] at hcol
  have hwfs : s.table.WellFormed := htable ▸ hwf x hx
  obtain ⟨iu, hget, hvalue⟩ := getIU_value hwfs hcol
  exact ⟨s, iu, hs, (resolveColumn_iff hne).mpr ⟨s, hs, hget⟩, hvalue⟩

/-- A row of a scan is the row of its table. -/
lemma EntriesOf.row (he : EntriesOf entries scans) (hwf : ∀ x ∈ entries, x.2.WellFormed)
    (hapart : ScansApart ctx scans) {a : String} {s : ScanTranslator} (hs : scans.lookup a = some s)
    (i : Nat) : rowEnv entries scans (s.row i) = restrictEnv entries (s.table.envAt a i) := by
  funext ref
  unfold rowEnv restrictEnv
  split_ifs with hhas
  · obtain ⟨s', iu, hs', hres, hvalue⟩ := he.resolves hwf hhas
    rw [env_of_resolves hres, InMemoryTable.envAt]
    split_ifs with ha
    · rw [ha, hs] at hs'
      cases hs'
      exact hvalue i
    · have hdisj := idsOf_disjoint hapart ha
      have hid : iu.id ∈ idsOf scans ref.tableAlias := resolveColumn_ids hhas.1 hres
      apply row_outside
      have hout := Set.disjoint_left.mp hdisj hid
      rwa [idsOf, hs] at hout
  · rfl

/-- The bag of a scan is that of its FROM entry. -/
lemma EntriesOf.bag (he : EntriesOf entries scans) (hwf : ∀ x ∈ entries, x.2.WellFormed)
    (hapart : ScansApart ctx scans) {x : String × InMemoryTable} (hx : x ∈ entries) :
    (bagOf scans x.1).map (rowEnv entries scans) =
      Multiset.map (restrictEnv entries) ↑((List.range x.2.numRows).map (x.2.envAt x.1)) := by
  obtain ⟨s, hs, htable⟩ := he.scan x hx
  unfold bagOf
  rw [hs, ← htable, Multiset.map_coe, Multiset.map_coe, Operator.rows, List.map_map, List.map_map]
  apply congrArg Multiset.ofList
  apply List.map_congr_left
  intro i _
  exact he.row hwf hapart hs i

lemma crossProduct_eq (entries : FromEntries) : (crossProduct entries : Multiset Env) =
    prodAll (entries.map fun x => (↑((List.range x.2.numRows).map (x.2.envAt x.1)) : Multiset Env)) := by
  induction entries with
  | nil => rfl
  | cons x rest ih =>
    rw [crossProduct, List.map_cons, prodAll, ← ih, prod]
    exact (Multiset.coe_bind _ _).symm

/-- The product of the scans is the cross product of the FROM entries. -/
lemma EntriesOf.product (he : EntriesOf entries scans) (hwf : ∀ x ∈ entries, x.2.WellFormed)
    (hapart : ScansApart ctx scans) :
    (prodAll ((entries.map Prod.fst).map (bagOf scans))).map (rowEnv entries scans) =
      Multiset.map (restrictEnv entries) ↑(crossProduct entries) := by
  have hnone : ∀ f : Env → Env, f = restrictEnv entries → f (fun _ => none) = fun _ => none := by
    rintro f rfl
    funext ref
    unfold restrictEnv
    split_ifs <;> rfl
  have hrow : rowEnv entries scans (fun _ => none) = fun _ => none := by
    funext ref
    unfold rowEnv Row.env
    split_ifs
    · cases resolveColumn scans ref <;> rfl
    · rfl
  rw [crossProduct_eq, map_prodAll rowEnv_merge hrow, map_prodAll restrictEnv_merge (hnone _ rfl),
    List.map_map, List.map_map, List.map_map]
  apply congrArg prodAll
  apply List.map_congr_left
  intro x hx
  exact he.bag hwf hapart hx

/-! ### The SELECT list -/

/-- The IUs of some columns. -/
def ResolveTo (scans : Scans) (output : List (IU × String)) (refs : List ColumnRef) : Prop :=
  List.Forall₂ (fun p ref => resolveColumn scans ref = .ok p.1) output refs

lemma ResolveTo.flatten {outputs : List (List (IU × String))} {refss : List (List ColumnRef)}
    (h : List.Forall₂ (ResolveTo scans) outputs refss) :
    ResolveTo scans outputs.flatten refss.flatten :=
  List.rel_flatten h

lemma forall₂_imp_mem {α β : Type} {R S : α → β → Prop} {xs : List α} {ys : List β}
    (h : List.Forall₂ R xs ys) (himp : ∀ x ∈ xs, ∀ y, R x y → S x y) : List.Forall₂ S xs ys := by
  induction h with
  | nil => exact .nil
  | cons hR _ ih =>
    exact .cons (himp _ List.mem_cons_self _ hR) (ih fun x hx => himp x (List.mem_cons_of_mem _ hx))

/-- One IU for each column of the table. -/
lemma expandAlias_ok {a : String} {s : ScanTranslator} (hs : scans.lookup a = some s)
    {ps : List (IU × String)} (h : expandAlias scans a = .ok ps) :
    List.Forall₂ (fun p col => s.getIU col.name = .ok p.1) ps s.table.columns := by
  unfold expandAlias at h
  rw [hs] at h
  apply List.Forall₂.flip
  apply (mapM_ok h).imp
  intro col p hp
  cases hget : s.getIU col.name with
  | error e =>
    rw [hget] at hp
    cases hp
  | ok iu =>
    rw [hget] at hp
    cases hp
    exact hget

/-- A `*` is expanded to the columns of the FROM entries, one after the other. -/
lemma resolveStar_ok {aliases : List String} {ps : List (IU × String)}
    (h : resolveItem scans aliases .star = .ok ps) : ∃ pss, ps = pss.flatten ∧
      List.Forall₂ (fun ps a => expandAlias scans a = .ok ps) pss aliases := by
  unfold resolveItem at h
  cases hall : aliases.mapM (expandAlias scans) with
  | error e =>
    rw [hall] at h
    cases h
  | ok pss =>
    rw [hall] at h
    cases h
    exact ⟨pss, rfl, (mapM_ok hall).flip⟩

/-- Another item is a column. -/
lemma resolveColumnItem_ok {aliases : List String} {expr : Expr} {name : String}
    {ps : List (IU × String)} (h : resolveItem scans aliases (.item expr name) = .ok ps) :
    ∃ ref iu x, expr = .colRef ref ∧ resolveColumn scans ref = .ok iu ∧ ps = [(iu, x)] := by
  cases expr with
  | colRef ref =>
    dsimp only [resolveItem] at h
    cases hres : resolveColumn scans ref with
    | error e =>
      rw [hres] at h
      cases h
    | ok iu =>
      rw [hres] at h
      cases h
      exact ⟨ref, iu, _, rfl, hres, rfl⟩
  | intLit val => cases h
  | binOp op left right => cases h

lemma resolveSelectList_ok {aliases : List String} {selectList : List SelectItem}
    {output : List (IU × String)} (h : resolveSelectList scans aliases selectList = .ok output) :
    ∃ pss, output = pss.flatten ∧
      List.Forall₂ (fun ps item => resolveItem scans aliases item = .ok ps) pss selectList := by
  unfold resolveSelectList at h
  cases hall : selectList.mapM (resolveItem scans aliases) with
  | error e =>
    rw [hall] at h
    cases h
  | ok pss =>
    rw [hall] at h
    cases h
    exact ⟨pss, rfl, (mapM_ok hall).flip⟩

lemma expandAlias_spec {a : String} {s : ScanTranslator} (hs : scans.lookup a = some s)
    (ha : ∀ col ∈ s.table.columns, entries.Has ⟨a, col.name⟩) {ps : List (IU × String)}
    (h : expandAlias scans a = .ok ps) :
    ResolveTo scans ps (s.table.columns.map fun col => ⟨a, col.name⟩) := by
  unfold ResolveTo
  rw [List.forall₂_map_right_iff]
  apply List.Forall₂.flip
  apply forall₂_imp_mem (expandAlias_ok hs h).flip
  intro col hcol p hget
  exact (resolveColumn_iff (ha col hcol).1).mpr ⟨s, hs, hget⟩

lemma resolveItem_spec (he : EntriesOf entries scans) {item : SelectItem}
    (hhas : ∀ ref ∈ item.columns entries, entries.Has ref) {ps : List (IU × String)}
    (h : resolveItem scans (entries.map Prod.fst) item = .ok ps) :
    ResolveTo scans ps (item.columns entries) := by
  cases item with
  | star =>
    obtain ⟨pss, rfl, hall⟩ := resolveStar_ok h
    have hlist := List.forall₂_map_right_iff.mp hall
    apply ResolveTo.flatten
    rw [List.forall₂_map_right_iff]
    apply List.Forall₂.flip
    apply forall₂_imp_mem hlist.flip
    intro x hx ps hps
    obtain ⟨s, hs, htable⟩ := he.scan x hx
    have hcols : ∀ col ∈ s.table.columns, entries.Has ⟨x.1, col.name⟩ := by
      intro col hcol
      apply hhas
      exact List.mem_flatMap.mpr ⟨x, hx, List.mem_map_of_mem (htable ▸ hcol)⟩
    have hexp := expandAlias_spec hs hcols hps
    rwa [htable] at hexp
  | item expr aliasName =>
    obtain ⟨ref, iu, x, rfl, hres, rfl⟩ := resolveColumnItem_ok h
    exact .cons hres .nil

lemma resolveSelectList_spec (he : EntriesOf entries scans)
    (hhas : ∀ ref ∈ stmt.outputColumns entries, entries.Has ref) {output : List (IU × String)}
    (h : resolveSelectList scans (entries.map Prod.fst) stmt.selectList = .ok output) :
    ResolveTo scans output (stmt.outputColumns entries) := by
  obtain ⟨pss, rfl, hall⟩ := resolveSelectList_ok h
  apply ResolveTo.flatten
  rw [List.forall₂_map_right_iff]
  apply List.Forall₂.flip
  apply forall₂_imp_mem hall.flip
  intro item hitem ps hps
  exact resolveItem_spec he (fun ref href => hhas ref (List.mem_flatMap.mpr ⟨item, hitem, href⟩)) hps

lemma ResolveTo.values {output : List (IU × String)} {refs : List ColumnRef}
    (h : ResolveTo scans output refs) (hhas : ∀ ref ∈ refs, entries.Has ref) (t : Row) :
    Row.values t (output.map Prod.fst) = refs.map (rowEnv entries scans t) := by
  induction h with
  | nil => rfl
  | cons hres _ ih =>
    have htail := ih fun ref href => hhas ref (List.mem_cons_of_mem _ href)
    rw [List.map_cons, List.map_cons, ← htail, rowEnv_of_has (hhas _ List.mem_cons_self),
      env_of_resolves hres]
    rfl

/-! ### The answer -/

lemma conjuncts_all (env : Env) : stmt.conjuncts.all (Expr.holdsIn env) =
    stmt.whereExpr.all (Expr.holdsIn env) := by
  unfold SelectStmt.conjuncts
  cases stmt.whereExpr with
  | none => rfl
  | some e => exact (holdsIn_flattenAnd e).symm

/-- The columns of a conjunct are columns of the WHERE clause. -/
lemma conjunct_has (hqual : stmt.Qualified entries) {c : Expr} (hc : c ∈ stmt.conjuncts)
    {ref : ColumnRef} (href : ref ∈ c.columns) : entries.Has ref := by
  unfold SelectStmt.conjuncts at hc
  cases hw : stmt.whereExpr with
  | none =>
    rw [hw] at hc
    cases hc
  | some e =>
    rw [hw] at hc
    exact hqual.whereExpr e hw ref (columns_of_mem_flattenAnd hc href)

lemma where_congr (hqual : stmt.Qualified entries) {env env' : Env}
    (h : ∀ ref, entries.Has ref → env ref = env' ref) :
    stmt.whereExpr.all (Expr.holdsIn env) = stmt.whereExpr.all (Expr.holdsIn env') := by
  cases hw : stmt.whereExpr with
  | none => rfl
  | some e => exact holdsIn_congr fun ref href => h ref (hqual.whereExpr e hw ref href)

lemma has_alias {ref : ColumnRef} (h : entries.Has ref) : ref.tableAlias ∈ entries.map Prod.fst := by
  obtain ⟨-, x, hx, hname, -⟩ := h
  exact hname ▸ List.mem_map_of_mem hx

/-- A plan in scope computes the answer. -/
theorem PlanOf.answer {result : PlanResult} {cs : Conjuncts}
    (h : PlanOf catalog stmt ctx result scans cs)
    (hnodup : (stmt.fromList.map TableRef.aliasName).Nodup)
    (hentries : stmt.entries catalog = .ok entries) (hwf : ∀ x ∈ entries, x.2.WellFormed)
    (hqual : stmt.Qualified entries) (hs : result.root.Scoped) :
    (result.root.result result.outputIUs).Perm (stmt.answer entries) := by
  have he := h.scansOf.entriesOf hentries hnodup
  have haliases := entries_aliases hentries
  obtain ⟨ctx₁, -, hapart⟩ := h.created
  have hclass := classify_spec h.classified
  have horder := joinOrder_perm (stmt.fromList.map TableRef.aliasName)
  have hnodup' := horder.nodup_iff.mpr hnodup
  have hwf' : ∀ a s, scans.lookup a = some s → s.table.WellFormed :=
    fun a s hs => hwf _ (he.only a s hs)
  have hq : ∀ c ∈ stmt.conjuncts, AllQualified c :=
    fun c hc ref href => (conjunct_has hqual hc href).1
  have hall : ∀ c ∈ stmt.conjuncts, ∀ a ∈ conjunctAliases c,
      a ∈ joinOrder (stmt.fromList.map TableRef.aliasName) := by
    intro c hc a ha
    obtain ⟨-, ref, href, rfl⟩ := mem_conjunctAliases.mp ha
    rw [horder.mem_iff, ← haliases]
    exact has_alias (conjunct_has hqual hc href)
  have hrows := h.root.rows hnodup' hs hclass hapart hq hwf' hall
  have hprod : prodAll ((joinOrder (stmt.fromList.map TableRef.aliasName)).map (bagOf scans)) =
      prodAll ((entries.map Prod.fst).map (bagOf scans)) := by
    rw [haliases]
    apply prodAll_perm horder (fun a _ => bagOf_supported scans a)
    exact hnodup'.imp fun hne => idsOf_disjoint hapart hne
  -- the WHERE clause and the output only look at columns of the FROM entries
  have hwhere : ∀ t : Row, stmt.conjuncts.all (satisfies scans t) =
      stmt.whereExpr.all (Expr.holdsIn (rowEnv entries scans t)) :=
    fun t => (conjuncts_all _).trans
      (where_congr hqual fun ref href => (rowEnv_of_has href t).symm)
  have hwhere' : ∀ env : Env, stmt.whereExpr.all (Expr.holdsIn (restrictEnv entries env)) =
      stmt.whereExpr.all (Expr.holdsIn env) :=
    fun env => where_congr hqual fun ref href => restrictEnv_of_has href env
  obtain ⟨output, hresolve, hout⟩ := h.output
  rw [← haliases] at hresolve
  have hvalues := (resolveSelectList_spec he hqual.selectList hresolve).values hqual.selectList
  have hvalues' : ∀ env : Env, (stmt.outputColumns entries).map (restrictEnv entries env) =
      (stmt.outputColumns entries).map env :=
    fun env => List.map_congr_left fun ref href => restrictEnv_of_has (hqual.selectList ref href) env
  apply Multiset.coe_eq_coe.mp
  calc (↑(result.root.result result.outputIUs) : Multiset (List (Option Word)))
      = (((prodAll ((entries.map Prod.fst).map (bagOf scans))).map (rowEnv entries scans)).filter
          fun env => stmt.whereExpr.all (Expr.holdsIn env) = true).map
            fun env => (stmt.outputColumns entries).map env := by
        rw [Multiset.filter_map, Multiset.map_map, Operator.result, ← Multiset.map_coe, hrows, hprod]
        simp only [hwhere, Function.comp_def, hout, hvalues]
    _ = ((Multiset.map (restrictEnv entries) ↑(crossProduct entries)).filter
          fun env => stmt.whereExpr.all (Expr.holdsIn env) = true).map
            fun env => (stmt.outputColumns entries).map env := by
        rw [he.product hwf hapart]
    _ = ↑(stmt.answer entries) := by
        rw [Multiset.filter_map, Multiset.map_map, SelectStmt.answer, ← Multiset.map_coe]
        simp only [Function.comp_def, hwhere', hvalues', Multiset.filter_coe, Bool.decide_eq_true]

end

/-- A compiled statement has been planned, and code has been generated for its plan. -/
lemma run_compileStmt {alloc : Nat → Word} {catalog : SQLCatalog} {self : Word} {stmt : SelectStmt}
    {result : PlanResult} {ctx ctx' : CompilationContext}
    (h : compileStmt alloc catalog self stmt ctx = .ok (result, ctx')) :
    ∃ ctx₁, plan alloc catalog stmt ctx = .ok (result, ctx₁) ∧
      generateCode result.root self result.outputIUs ctx₁ = .ok ((), ctx') := by
  obtain ⟨plan, ctx₁, hplan, hrest⟩ := run_bind_ok h
  obtain ⟨⟨⟩, ctx₂, hgen, hpure⟩ := run_bind_ok hrest
  obtain ⟨rfl, rfl⟩ := run_pure_ok hpure
  exact ⟨ctx₁, hplan, hgen⟩

/-- What code generation accepts is in scope. -/
lemma compileStmt_scoped {alloc : Nat → Word} {catalog : SQLCatalog} {self : Word}
    {stmt : SelectStmt} {heap : Heap} {result : PlanResult} {ctx' : CompilationContext}
    (hnodup : (stmt.fromList.map TableRef.aliasName).Nodup)
    (h : compileStmt alloc catalog self stmt (initialContext heap) = .ok (result, ctx')) :
    ∃ scans cs, PlanOf catalog stmt (initialContext heap) result scans cs ∧ result.root.Scoped := by
  obtain ⟨ctx₁, hplan, hgen⟩ := run_compileStmt h
  obtain ⟨scans, cs, hof, hprogram, -⟩ := plan_spec hplan
  have hprogram' : ctx₁.program = queryProgram := hprogram
  have hdistinct := hof.root.distinct (joinBase_nodup ((joinOrder_perm _).nodup_iff.mpr hnodup))
  have hiff := generateCode_ok_iff result.root self result.outputIUs hdistinct
    (hof.root.raises fun _ _ _ => trivial) (hprogram' ▸ queryProgram_valid) (hprogram' ▸ queryProgram_open)
  exact ⟨scans, cs, hof, (hiff.mp ⟨_, hgen⟩).1⟩

/-- A statement that is planned and compiled without an error has a plan whose rows are the answer
to the statement. -/
theorem compileStmt_answer (alloc : Nat → Word) (catalog : SQLCatalog) (self : Word)
    (stmt : SelectStmt) (heap : Heap) (entries : FromEntries)
    (hnodup : (stmt.fromList.map TableRef.aliasName).Nodup)
    (hentries : stmt.entries catalog = .ok entries) (hwf : ∀ x ∈ entries, x.2.WellFormed)
    (hqual : stmt.Qualified entries) (result : PlanResult) (ctx' : CompilationContext)
    (h : compileStmt alloc catalog self stmt (initialContext heap) = .ok (result, ctx')) :
    (result.root.result result.outputIUs).Perm (stmt.answer entries) := by
  obtain ⟨scans, cs, hof, hs⟩ := compileStmt_scoped hnodup h
  exact hof.answer hnodup hentries hwf hqual hs

def pairTable : InMemoryTable :=
  ⟨"pair", 2, [⟨"x", .integer, 4096, [1, 2]⟩, ⟨"y", .integer, 4160, [2, 7]⟩]⟩

/-- `SELECT a.y FROM pair a, pair b WHERE a.y = b.x AND b.y > 5` -/
def pairStmt : SelectStmt where
  selectList := [.item (.colRef ⟨"a", "y"⟩) ""]
  fromList := [⟨"pair", "a"⟩, ⟨"pair", "b"⟩]
  whereExpr := some (.binOp .and (.binOp .eq (.colRef ⟨"a", "y"⟩) (.colRef ⟨"b", "x"⟩))
    (.binOp .gt (.colRef ⟨"b", "y"⟩) (.intLit 5)))
  limit := noLimit

lemma pairTable_wellFormed : pairTable.WellFormed where
  distinct := by decide
  noDot := by decide
  full := by decide

lemma pairStmt_qualified : pairStmt.Qualified [("a", pairTable), ("b", pairTable)] where
  selectList := by
    intro ref href
    have : ref = ⟨"a", "y"⟩ := by
      simpa [pairStmt, SelectStmt.outputColumns, SelectItem.columns, Expr.columns] using href
    subst this
    exact ⟨by decide, _, List.mem_cons_self, rfl, by decide⟩
  whereExpr := by
    rintro e ⟨⟩ ref href
    have : ref = ⟨"a", "y"⟩ ∨ ref = ⟨"b", "x"⟩ ∨ ref = ⟨"b", "y"⟩ := by
      simpa [Expr.columns] using href
    rcases this with rfl | rfl | rfl
    · exact ⟨by decide, _, List.mem_cons_self, rfl, by decide⟩
    · exact ⟨by decide, ("b", pairTable), by simp, rfl, by decide⟩
    · exact ⟨by decide, ("b", pairTable), by simp, rfl, by decide⟩

theorem compileStmt_answer_pair : ∃ result ctx',
    compileStmt (fun _ => 16384) [pairTable] 8192 pairStmt (initialContext emptyHeap) =
      .ok (result, ctx') ∧ (result.root.result result.outputIUs).Perm [[some 2]] := by
  have hok : (compileStmt (fun _ => 16384) [pairTable] 8192 pairStmt
      (initialContext emptyHeap)).isOk = true := by decide +kernel
  cases hrun : compileStmt (fun _ => 16384) [pairTable] 8192 pairStmt
      (initialContext emptyHeap) with
  | error e =>
    rw [hrun] at hok
    cases hok
  | ok r =>
    have hanswer := compileStmt_answer (fun _ => 16384) [pairTable] 8192 pairStmt emptyHeap
      [("a", pairTable), ("b", pairTable)] (by decide) (by rfl) (by
        intro x hx
        have : x.2 = pairTable := by
          rcases List.mem_pair.mp hx with rfl | rfl <;> rfl
        rw [this]
        exact pairTable_wellFormed) pairStmt_qualified r.1 r.2 hrun
    exact ⟨r.1, r.2, rfl, hanswer⟩

end TidyTuples.Proofs
