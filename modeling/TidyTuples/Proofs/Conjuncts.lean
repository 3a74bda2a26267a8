import TidyTuples.Proofs.Rejection
import TidyTuples.Proofs.Parsing

/-!
# Conjuncts and the operators that enforce them

Every conjunct of the WHERE clause is a filter or a join key of the plan, except the filters of a
name that is no FROM alias: these are filed under the name and never looked up. A conjunct that is in
the plan holds on all its rows.
-/

namespace TidyTuples

namespace Operator

/-- The conjuncts of the filters in a tree. -/
def filters : Operator → List Expr
  | scan _ => []
  | select _ child predicate => predicate.conjuncts ++ child.filters
  | hashJoin _ build probe _ _ _ => build.filters ++ probe.filters

/-- The keys of the joins in a tree: the two sides, the column of the build side and that of the
probe side. -/
def joinKeys : Operator → List (Operator × Operator × IU × IU)
  | scan _ => []
  | select _ child _ => child.joinKeys
  | hashJoin _ build probe buildKeys probeKeys _ =>
    ((buildKeys.zip probeKeys).map fun key => (build, probe, key)) ++ build.joinKeys ++ probe.joinKeys

end Operator

namespace Proofs

open QueryPlanner Tuples

/-- The conjuncts that become filters of a scan or join keys name FROM aliases only. -/
def KnownAliases (stmt : SelectStmt) : Prop :=
  ∀ c ∈ stmt.conjuncts, (conjunctAliases c).length = 1 ∨ (keyColumns c).isSome →
    ∀ a ∈ conjunctAliases c, a ∈ stmt.fromList.map TableRef.aliasName

/-- A filter or a join key of the tree stands for the conjunct. -/
def Enforces (scans : Scans) (root : Operator) (c : Expr) : Prop :=
  c ∈ root.filters ∨ ∃ n build probe x y, Equates scans c n x y ∧ (build, probe, x, y) ∈ root.joinKeys

section

variable {scans : Scans} {cs : Conjuncts} {ctx : CompilationContext} {conjs : List Expr}
  {order : List String} {root : Operator} {c : Expr}

/-! ### Where the conjuncts are -/

lemma ScanUnder.filters_eq {a : String} (h : ScanUnder scans cs a root) :
    root.filters = cs.filterConjuncts a := by
  cases h with
  | bare _ hnone => exact hnone.symm
  | filtered => exact List.append_nil _

lemma Joined.mem_filters (h : Joined scans cs order root) :
    c ∈ root.filters ↔ ∃ a ∈ order, c ∈ cs.filterConjuncts a := by
  induction h with
  | scan h => simp [h.filters_eq]
  | first hb hp _ => simp [Operator.filters, hb.filters_eq, hp.filters_eq]
  | later _ _ hb _ ih => simp [Operator.filters, hb.filters_eq, ih]

lemma Planned.mem_filters (h : Planned scans cs order root) : c ∈ root.filters ↔
    (∃ a ∈ order, c ∈ cs.filterConjuncts a) ∨ c ∈ cs.postJoinFilters := by
  cases h with
  | bare hj hnone => simp [hj.mem_filters, hnone]
  | filtered hj _ => simp [Operator.filters, hj.mem_filters, predicateOf, or_comm]

/-- A key has two aliases. -/
lemma key_not_single (hkey : (keyColumns c).isSome) {a : String}
    (hall : ∀ b ∈ conjunctAliases c, b ∈ [a]) : False := by
  have htwo := keyColumns_length hkey
  rw [covered_singleton.mp ⟨.inr hkey, hall⟩] at htwo
  cases htwo

lemma mem_joinKeys_new {id : Nat} {build probe : Operator} {ht : Word} {keys : List (IU × IU)}
    {p : IU × IU} (hp : p ∈ keys) : (build, probe, p.1, p.2) ∈
      (Operator.hashJoin id build probe (keys.map Prod.fst) (keys.map Prod.snd) ht).joinKeys := by
  apply List.mem_append_left
  apply List.mem_append_left
  rw [List.zip_map', List.map_map]
  exact List.mem_map.mpr ⟨p, hp, rfl⟩

/-- The keys of the first join, complete also where both sides are the same alias. -/
lemma firstJoinKeys_complete' (hclass : Classified scans conjs cs) {f n : String} (hc : c ∈ conjs)
    (hbetween : KeyBetween f [n] c) :
    ∃ p ∈ firstJoinKeys cs.joinKeys f n, Equates scans c f p.1 p.2 := by
  by_cases hfn : f = n
  · obtain ⟨hkey, -, hall⟩ := hbetween
    exact (key_not_single hkey (a := n) fun b hb => by simpa [hfn] using hall b hb).elim
  · exact firstJoinKeys_complete hclass hfn hc hbetween

/-- Every key between the aliases of the tree is a key of a join. -/
lemma Joined.hasKey (h : Joined scans cs order root) (hclass : Classified scans conjs cs)
    (hc : c ∈ conjs) (hkey : (keyColumns c).isSome) (hall : ∀ a ∈ conjunctAliases c, a ∈ order) :
    ∃ n build probe x y, Equates scans c n x y ∧ (build, probe, x, y) ∈ root.joinKeys := by
  induction h with
  | scan h => exact (key_not_single hkey hall).elim
  | @first f n build probe id ht hb hp hid =>
    have hf : f ∈ conjunctAliases c := by
      by_contra hf
      apply key_not_single hkey (a := n)
      intro a ha
      exact (List.mem_cons.mp (hall a ha)).resolve_left fun haf => hf (haf ▸ ha)
    obtain ⟨p, hp, heq⟩ := firstJoinKeys_complete' hclass hc ⟨hkey, hf, hall⟩
    exact ⟨f, build, probe, p.1, p.2, heq, mem_joinKeys_new hp⟩
  | @later n done build probe id ht hjoined htwo hb hid ih =>
    by_cases hn : n ∈ conjunctAliases c
    · obtain ⟨p, hp, heq⟩ := laterJoinKeys_complete hclass hc hkey hn
      exact ⟨n, build, probe, p.1, p.2, heq, mem_joinKeys_new hp⟩
    · have hdone : ∀ a ∈ conjunctAliases c, a ∈ done := fun a ha =>
        (List.mem_cons.mp (hall a ha)).resolve_left fun han => hn (han ▸ ha)
      obtain ⟨m, b, p, x, y, heq, hmem⟩ := ih hdone
      exact ⟨m, b, p, x, y, heq, List.mem_append_right _ hmem⟩

/-! ### Rows of the tree -/

lemma evalIn_mono {env env' : Env} (h : ∀ ref w, env ref = some w → env' ref = some w) {e : Expr}
    {w : Word} (he : e.evalIn env = some w) : e.evalIn env' = some w := by
  induction e generalizing w with
  | colRef ref => exact h ref w he
  | intLit n => exact he
  | binOp op l r ihl ihr =>
    rw [Expr.evalIn] at he ⊢
    cases hl : l.evalIn env with
    | none =>
      rw [hl] at he
      cases he
    | some a =>
      cases hr : r.evalIn env with
      | none =>
        rw [hl, hr] at he
        cases he
      | some b =>
        rw [hl, hr] at he
        rw [ihl hl, ihr hr]
        exact he

/-- What holds on a row holds on a row with more columns. -/
lemma satisfies_mono {t u : Row} (h : ∀ id w, u id = some w → t id = some w)
    (hu : satisfies scans u c = true) : satisfies scans t c = true := by
  have henv : ∀ ref w, u.env (resolveColumn scans) ref = some w →
      t.env (resolveColumn scans) ref = some w := by
    intro ref w
    unfold Row.env
    cases resolveColumn scans ref with
    | error e => exact fun hnone => absurd hnone (by simp)
    | ok iu => exact h iu.id w
  unfold satisfies Expr.holdsIn at hu ⊢
  cases he : c.evalIn (u.env (resolveColumn scans)) with
  | none =>
    rw [he] at hu
    cases hu
  | some w =>
    rw [evalIn_mono henv he]
    rwa [he] at hu

/-- A row of the tree has a row of every scan under its filter, and satisfies the keys. -/
structure RowOf (scans : Scans) (cs : Conjuncts) (conjs : List Expr) (order : List String) (t : Row) :
    Prop where
  scanned : ∀ a ∈ order, ∃ op u, ScanUnder scans cs a op ∧ u ∈ op.rows ∧
    ∀ id ∈ idsOf scans a, t id = u id
  keyed : ∀ c ∈ conjs, (keyColumns c).isSome → (∀ a ∈ conjunctAliases c, a ∈ order) →
    satisfies scans t c = true

lemma ScanUnder.mem_bagOf {a : String} (h : ScanUnder scans cs a root) {u : Row}
    (hu : u ∈ root.rows) : u ∈ bagOf scans a := by
  unfold bagOf
  cases h with
  | bare hs =>
    rw [hs]
    exact Multiset.mem_coe.mpr hu
  | filtered hs =>
    rw [hs]
    exact Multiset.mem_coe.mpr (List.mem_of_mem_filter hu)

lemma ScanUnder.rowOf {a : String} (h : ScanUnder scans cs a root) {u : Row} (hu : u ∈ root.rows) :
    RowOf scans cs conjs [a] u := by
  constructor
  · intro b hb
    rw [List.mem_singleton.mp hb]
    exact ⟨root, u, h, hu, fun _ _ => rfl⟩
  · exact fun c hc hkey hall => (key_not_single hkey hall).elim

lemma allQualified_of_key (hkey : (keyColumns c).isSome) : AllQualified c := by
  obtain ⟨⟨l, r⟩, hlr⟩ := Option.isSome_iff_exists.mp hkey
  obtain ⟨rfl, hl, hr, -⟩ := keyColumns_iff.mp hlr
  intro ref href
  rcases List.mem_pair.mp href with rfl | rfl
  · exact hl
  · exact hr

/-- One more scan: its columns come from its own row, the others from the row so far. -/
lemma RowOf.merge (hapart : ScansApart ctx scans)
    (hfull : ∀ a, ∀ t ∈ bagOf scans a, ∀ id ∈ idsOf scans a, (t id).isSome) {n : String}
    {done : List String} {build : Operator} {b p : Row} {keys : List (IU × IU)}
    (hbuild : ScanUnder scans cs n build) (hb : b ∈ build.rows) (hp : RowOf scans cs conjs done p)
    (hkeys : Row.values b (keys.map Prod.fst) = Row.values p (keys.map Prod.snd))
    (hcomplete : ∀ c ∈ conjs, KeyBetween n done c → ∃ q ∈ keys, Equates scans c n q.1 q.2) :
    RowOf scans cs conjs (n :: done) (b.merge p) := by
  have hbag := hbuild.mem_bagOf hb
  have hnew : ∀ id ∈ idsOf scans n, b.merge p id = b id := by
    intro id hid
    obtain ⟨w, hw⟩ := Option.isSome_iff_exists.mp (hfull n b hbag id hid)
    rw [Row.merge, hw, Option.some_or]
  have hold : ∀ a, a ≠ n → ∀ id ∈ idsOf scans a, b.merge p id = p id := by
    intro a han id hid
    have hout : id ∉ idsOf scans n := Set.disjoint_left.mp (idsOf_disjoint hapart han) hid
    rw [Row.merge, bagOf_supported scans n b hbag id hout, Option.none_or]
  constructor
  · intro a ha
    by_cases han : a = n
    · exact ⟨build, b, han ▸ hbuild, hb, han ▸ hnew⟩
    · obtain ⟨op, u, hop, hu, hsame⟩ := hp.scanned a ((List.mem_cons.mp ha).resolve_left han)
      exact ⟨op, u, hop, hu, fun id hid => (hold a han id hid).trans (hsame id hid)⟩
  · intro c hc hkey hall
    by_cases hn : n ∈ conjunctAliases c
    · obtain ⟨q, hq, heq⟩ := hcomplete c hc ⟨hkey, hn, hall⟩
      obtain ⟨hx, -, m, hm, hy, -⟩ := heq.otherAlias
      have hvalues : b q.1.id = p q.2.id := by
        unfold Row.values at hkeys
        rw [List.map_map, List.map_map] at hkeys
        exact List.map_inj_left.mp hkeys q hq
      obtain ⟨w, hw⟩ := Option.isSome_iff_exists.mp (hfull n b hbag _ hx)
      apply heq.satisfies_iff.mpr
      exact ⟨w, (hnew _ hx).trans hw, (hold m hm _ hy).trans (hvalues.symm.trans hw)⟩
    · have hdone : ∀ a ∈ conjunctAliases c, a ∈ done := fun a ha =>
        (List.mem_cons.mp (hall a ha)).resolve_left fun han => hn (han ▸ ha)
      rw [← hp.keyed c hc hkey hdone]
      apply satisfies_local (allQualified_of_key hkey) (fun a ha => ha)
      rintro id ⟨a, ha, hid⟩
      exact hold a (fun han => hn (han ▸ ha)) id hid

lemma mem_join_rows {id : Nat} {build probe : Operator} {bks pks : List IU} {ht : Word} {t : Row}
    (h : t ∈ (Operator.hashJoin id build probe bks pks ht).rows) : ∃ b ∈ build.rows,
      ∃ p ∈ probe.rows, Row.values b bks = Row.values p pks ∧ t = b.merge p := by
  obtain ⟨p, hp, ht⟩ := List.mem_flatMap.mp h
  obtain ⟨b, hb, rfl⟩ := List.mem_map.mp ht
  obtain ⟨hbmem, hvalues⟩ := List.mem_filter.mp hb
  exact ⟨b, hbmem, p, hp, of_decide_eq_true hvalues, rfl⟩

/-- The induction is on the joins; it does not need the aliases to be distinct. -/
lemma Joined.rowOf (h : Joined scans cs order root) (hclass : Classified scans conjs cs)
    (hapart : ScansApart ctx scans)
    (hfull : ∀ a, ∀ t ∈ bagOf scans a, ∀ id ∈ idsOf scans a, (t id).isSome) {t : Row}
    (ht : t ∈ root.rows) : RowOf scans cs conjs order t := by
  induction h generalizing t with
  | scan h => exact h.rowOf ht
  | first hb hp _ =>
    obtain ⟨b, hbmem, p, hpmem, hvalues, rfl⟩ := mem_join_rows ht
    apply RowOf.merge hapart hfull hb hbmem (hp.rowOf hpmem) hvalues
    exact fun c hc hbetween => firstJoinKeys_complete' hclass hc hbetween
  | later _ _ hb _ ih =>
    obtain ⟨b, hbmem, p, hpmem, hvalues, rfl⟩ := mem_join_rows ht
    apply RowOf.merge hapart hfull hb hbmem (ih hpmem) hvalues
    exact fun c hc hbetween => laterJoinKeys_complete hclass hc hbetween.1 hbetween.2.1

lemma RowOf.filtered {t : Row} (h : RowOf scans cs conjs order t) {a : String} (ha : a ∈ order)
    (hc : c ∈ cs.filterConjuncts a) : satisfies scans t c = true := by
  obtain ⟨op, u, hop, hu, hsame⟩ := h.scanned a ha
  have hbag := hop.mem_bagOf hu
  have hle : ∀ id w, u id = some w → t id = some w := by
    intro id w hw
    by_cases hid : id ∈ idsOf scans a
    · exact (hsame id hid).trans hw
    · rw [bagOf_supported scans a u hbag id hid] at hw
      cases hw
  apply satisfies_mono hle
  cases hop with
  | bare _ hnone =>
    rw [hnone] at hc
    cases hc
  | filtered _ hsome =>
    have hholds := (List.mem_filter.mp hu).2
    rw [predicate_holds hsome] at hholds
    exact List.all_eq_true.mp hholds c hc

/-- A conjunct of known aliases is in the plan and holds on its rows. -/
lemma Planned.enforces (h : Planned scans cs order root) (hclass : Classified scans conjs cs)
    (hapart : ScansApart ctx scans)
    (hfull : ∀ a, ∀ t ∈ bagOf scans a, ∀ id ∈ idsOf scans a, (t id).isSome) (hc : c ∈ conjs)
    (hknown : (conjunctAliases c).length = 1 ∨ (keyColumns c).isSome →
      ∀ a ∈ conjunctAliases c, a ∈ order) :
    Enforces scans root c ∧ ∀ t ∈ root.rows, satisfies scans t c = true := by
  obtain ⟨op, hj, hsub, hkeysub⟩ : ∃ op, Joined scans cs order op ∧ (∀ t ∈ root.rows, t ∈ op.rows) ∧
      root.joinKeys = op.joinKeys := by
    cases h with
    | bare hj _ => exact ⟨root, hj, fun t ht => ht, rfl⟩
    | filtered hj _ => exact ⟨_, hj, fun t ht => List.mem_of_mem_filter ht, rfl⟩
  have hrow : ∀ t ∈ root.rows, RowOf scans cs conjs order t := fun t ht =>
    hj.rowOf hclass hapart hfull (hsub t ht)
  by_cases hone : (conjunctAliases c).length = 1
  · obtain ⟨a, ha⟩ := List.length_eq_one_iff.mp hone
    have haorder := hknown (.inl hone) a (by simp [ha])
    have hfilter : c ∈ cs.filterConjuncts a := by
      rw [hclass.filters]
      exact List.mem_filter.mpr ⟨hc, decide_eq_true ha⟩
    exact ⟨.inl (h.mem_filters.mpr (.inl ⟨a, haorder, hfilter⟩)),
      fun t ht => (hrow t ht).filtered haorder hfilter⟩
  · by_cases hkey : (keyColumns c).isSome
    · have hall := hknown (.inr hkey)
      refine ⟨.inr ?_, fun t ht => (hrow t ht).keyed c hc hkey hall⟩
      rw [hkeysub]
      exact hj.hasKey hclass hc hkey hall
    · have hpost : c ∈ cs.postJoinFilters := by
        rw [hclass.postJoin]
        exact List.mem_filter.mpr ⟨hc, decide_eq_true ⟨hone, Option.not_isSome_iff_eq_none.mp hkey⟩⟩
      refine ⟨.inl (h.mem_filters.mpr (.inr hpost)), fun t ht => ?_⟩
      cases h with
      | bare _ hnone =>
        rw [hnone] at hpost
        cases hpost
      | filtered _ hsome =>
        have hholds := (List.mem_filter.mp ht).2
        rw [predicate_holds hsome] at hholds
        exact List.all_eq_true.mp hholds c hpost

/-- A filter of an unknown alias is nowhere in the plan. -/
lemma Planned.loses (h : Planned scans cs order root) (hclass : Classified scans conjs cs)
    {a : String} (hone : conjunctAliases c = [a]) (ha : a ∉ order) : ¬ Enforces scans root c := by
  rintro (hfilter | ⟨n, build, probe, x, y, heq, -⟩)
  · rcases h.mem_filters.mp hfilter with ⟨b, hb, hc⟩ | hpost
    · rw [hclass.filters] at hc
      have hsame := of_decide_eq_true (List.mem_filter.mp hc).2
      rw [hone] at hsame
      exact ha ((List.singleton_inj.mp hsame).symm ▸ hb)
    · rw [hclass.postJoin] at hpost
      exact (of_decide_eq_true (List.mem_filter.mp hpost).2).1 (by rw [hone]; rfl)
  · have htwo := keyColumns_length heq.otherAlias.2.1
    rw [hone] at htwo
    cases htwo

end

/-! ### What is thrown -/

section

variable {scans : Scans} {ctx : CompilationContext} {e : CppError}

lemma getIU_thrown {scan : ScanTranslator} {colName : String} (h : scan.getIU colName = .error e) :
    e.Thrown := by
  unfold ScanTranslator.getIU at h
  split at h
  · cases h
  · cases h
    exact ⟨_, rfl⟩

lemma searchScans_thrown {colName found : String} {scans : Scans}
    (h : searchScans colName scans found = .error e) : e.Thrown := by
  induction scans generalizing found with
  | nil =>
    unfold searchScans at h
    split_ifs at h
    cases h
    exact ⟨_, rfl⟩
  | cons x rest ih =>
    unfold searchScans at h
    split at h
    · exact ih h
    · split_ifs at h with hfound
      · exact ih h
      · dsimp only at h
        split_ifs at h
        · exact ih h
        · cases h
          exact ⟨_, rfl⟩

lemma resolveColumn_thrown {ref : ColumnRef} (h : resolveColumn scans ref = .error e) : e.Thrown := by
  rcases resolveColumn_cases scans ref with ⟨e', hempty, hres, heq⟩ | ⟨a, ⟨s, -, heq⟩ | heq⟩
  · rw [heq] at h
    cases h
    unfold resolveAlias at hres
    rw [if_neg (not_not.mpr hempty)] at hres
    exact searchScans_thrown hres
  · exact getIU_thrown (heq.symm.trans h)
  · cases heq.symm.trans h
    exact ⟨_, rfl⟩

lemma scanIU_thrown {a colName : String} {s : ScanTranslator} (hs : scans.lookup a = some s)
    (h : scanIU scans a colName = .error e) : e.Thrown := by
  unfold scanIU at h
  rw [hs] at h
  exact getIU_thrown h

lemma makeJoinKey_thrown {aliases : List String} {l r : ColumnRef} (hl : l.tableAlias ≠ "")
    (hr : r.tableAlias ≠ "") (hls : ∃ s, scans.lookup l.tableAlias = some s)
    (hrs : ∃ s, scans.lookup r.tableAlias = some s)
    (h : makeJoinKey scans aliases l r = .error e) : e.Thrown := by
  obtain ⟨s, hs⟩ := hls
  obtain ⟨s', hs'⟩ := hrs
  rw [makeJoinKey_eq hl hr] at h
  cases hlIU : scanIU scans l.tableAlias l.colName with
  | error e₁ =>
    cases hrIU : scanIU scans r.tableAlias r.colName with
    | error e₂ =>
      rw [hlIU, hrIU] at h
      split_ifs at h
      · cases h
        exact scanIU_thrown hs hlIU
      · cases h
        exact scanIU_thrown hs' hrIU
    | ok rIU =>
      rw [hlIU, hrIU] at h
      split_ifs at h
      · cases h
        exact scanIU_thrown hs hlIU
      · cases h
        exact scanIU_thrown hs hlIU
  | ok lIU =>
    cases hrIU : scanIU scans r.tableAlias r.colName with
    | error e₂ =>
      rw [hlIU, hrIU] at h
      split_ifs at h
      · cases h
        exact scanIU_thrown hs' hrIU
      · cases h
        exact scanIU_thrown hs' hrIU
    | ok rIU =>
      rw [hlIU, hrIU] at h
      split_ifs at h
      · cases h
      · cases h

lemma resolveItem_thrown {aliases : List String} (hfound : ∀ a ∈ aliases, ∃ s, scans.lookup a = some s)
    {item : SelectItem} (h : resolveItem scans aliases item = .error e) : e.Thrown := by
  cases item with
  | star =>
    obtain ⟨a, ha, hexp⟩ := resolveStar_error h
    obtain ⟨s, hs⟩ := hfound a ha
    obtain ⟨col, -, hget⟩ := expandAlias_error hs hexp
    exact getIU_thrown hget
  | item expr aliasName =>
    cases expr with
    | colRef ref =>
      dsimp only [resolveItem] at h
      cases hres : resolveColumn scans ref with
      | error e' =>
        rw [hres] at h
        cases h
        exact resolveColumn_thrown hres
      | ok iu =>
        rw [hres] at h
        cases h
    | intLit n =>
      cases h
      exact ⟨_, rfl⟩
    | binOp op l r =>
      cases h
      exact ⟨_, rfl⟩

lemma createScans_thrown {catalog : SQLCatalog} {refs : List TableRef}
    (h : createScans catalog refs scans ctx = .error e) : e.Thrown := by
  induction refs generalizing scans ctx with
  | nil => cases h
  | cons ref rest ih =>
    rcases run_bind_error h with hlookup | ⟨table, ctx₁, -, hrest⟩
    · have hlookup' := run_ofExcept_error hlookup
      unfold SQLCatalog.lookup at hlookup'
      split at hlookup'
      · cases hlookup'
      · cases hlookup'
        exact ⟨_, rfl⟩
    · rw [run_bind_of_ok (newScan_run table)] at hrest
      exact ih hrest

end

/-! ### Whole statements -/

section

variable {alloc : Nat → Word} {catalog : SQLCatalog} {self : Word} {stmt : SelectStmt} {heap : Heap}

/-- Planning or code generation throws. -/
def Throws (alloc : Nat → Word) (catalog : SQLCatalog) (self : Word) (stmt : SelectStmt) (heap : Heap) :
    Prop :=
  ∃ e, compileStmt alloc catalog self stmt (initialContext heap) = .error e ∧ e.Thrown

/-- With known aliases the planner never follows a null pointer. -/
lemma plan_thrown {ctx : CompilationContext} {e : CppError} (hne : stmt.fromList ≠ [])
    (hknown : KnownAliases stmt) (h : plan alloc catalog stmt ctx = .error e) : e.Thrown := by
  rcases plan_error hne h with hscans | ⟨scans, ctx₁, hscans, herr⟩
  · exact createScans_thrown hscans
  obtain ⟨hof, -⟩ := createScans_scansOf hscans
  have hfound : ∀ a ∈ stmt.fromList.map TableRef.aliasName, ∃ s, scans.lookup a = some s := by
    intro a ha
    obtain ⟨ref, href, rfl⟩ := List.mem_map.mp ha
    exact hof.found ref href
  rcases herr with hclass | hout
  · obtain ⟨c, hc, l, r, hkey, hjk⟩ := classify_error hclass
    obtain ⟨-, hl, hr, -⟩ := keyColumns_iff.mp hkey
    have hmem := hknown c hc (.inr (by rw [hkey]; rfl))
    have hls := hfound _ (hmem _ ((mem_aliases_of_key hkey).mpr (.inl rfl)))
    have hrs := hfound _ (hmem _ ((mem_aliases_of_key hkey).mpr (.inr rfl)))
    exact makeJoinKey_thrown hl hr hls hrs hjk
  · obtain ⟨item, -, hitem⟩ := resolveSelectList_error hout
    exact resolveItem_thrown hfound hitem

lemma compileStmt_thrown {e : CppError} (hne : stmt.fromList ≠ []) (hknown : KnownAliases stmt)
    (h : compileStmt alloc catalog self stmt (initialContext heap) = .error e) : e.Thrown := by
  rcases run_bind_error h with hplan | ⟨result, ctx₁, hplan, hrest⟩
  · exact plan_thrown hne hknown hplan
  obtain ⟨scans, cs, hof, hprogram, -⟩ := plan_spec hplan
  have hprogram' : ctx₁.program = queryProgram := hprogram
  rcases run_bind_error hrest with hgen | ⟨u, ctx₂, -, hpure⟩
  · exact generateCode_raises (fun iu => ⟨_, rfl⟩) (hof.root.raises fun _ _ h => resolveColumn_thrown h)
      ⟨_, rfl⟩
      (hprogram' ▸ queryProgram_valid) (hprogram' ▸ queryProgram_open) hgen
  · cases hpure

end

end Proofs

end TidyTuples
