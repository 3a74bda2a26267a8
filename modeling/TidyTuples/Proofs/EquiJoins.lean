import TidyTuples.Proofs.Conjuncts

/-!
# Equi-joins of any number of tables

The keys of a join are all the keys of its new alias, also those to an alias that is joined later
on. So a plan is in scope exactly when every key has a column of one of the first two FROM entries.
-/

namespace TidyTuples

/-- WHERE is a conjunction of equalities between columns of two different FROM entries, and the
SELECT list has columns only. -/
structure SelectStmt.EquiJoin (stmt : SelectStmt) (entries : FromEntries) : Prop where
  aliases : (stmt.fromList.map TableRef.aliasName).Nodup
  nonempty : stmt.fromList ≠ []
  qualified : stmt.Qualified entries
  keys : ∀ c ∈ stmt.conjuncts, ∃ l r, c = .binOp .eq (.colRef l) (.colRef r) ∧
    l.tableAlias ≠ r.tableAlias
  items : ∀ item ∈ stmt.selectList, item = .star ∨ ∃ ref name, item = .item (.colRef ref) name

namespace Proofs

open QueryPlanner Tuples IRProgram

/-- The conjunct is a key of a join whose sides provide its two columns. -/
def AssignedKey (scans : Scans) (root : Operator) (c : Expr) : Prop :=
  ∃ n build probe x y, Equates scans c n x y ∧ (build, probe, x, y) ∈ root.joinKeys ∧
    x.id ∈ build.outputIUs.map IU.id ∧ y.id ∈ probe.outputIUs.map IU.id

/-! ### Scoped join trees -/

section

variable {scans : Scans} {cs : Conjuncts} {ctx : CompilationContext} {conjs : List Expr}
  {order : List String} {root : Operator}

/-- Where every conjunct is a key, nothing is filtered. -/
lemma Classified.onlyKeys (h : Classified scans conjs cs) (hkeys : ∀ c ∈ conjs, (keyColumns c).isSome) :
    (∀ a, cs.filterConjuncts a = []) ∧ cs.postJoinFilters = [] := by
  constructor
  · intro a
    rw [h.filters]
    apply List.filter_eq_nil_iff.mpr
    intro c hc hone
    have htwo := keyColumns_length (hkeys c hc)
    rw [of_decide_eq_true hone] at htwo
    cases htwo
  · rw [h.postJoin]
    apply List.filter_eq_nil_iff.mpr
    intro c hc hpost
    have hsome := hkeys c hc
    rw [(of_decide_eq_true hpost).2] at hsome
    cases hsome

/-- An expression can be evaluated where its columns are. -/
lemma resolvesIn_iff {resolve : ColumnRef → Except CppError IU} {ius : List IU} {e : Expr} :
    e.ResolvesIn resolve ius ↔
      ∀ ref ∈ e.columns, ∃ iu, resolve ref = .ok iu ∧ iu.id ∈ ius.map IU.id := by
  induction e with
  | colRef ref =>
    rw [Expr.columns, List.forall_mem_singleton]
    rfl
  | intLit n => exact iff_of_true trivial fun ref href => absurd href List.not_mem_nil
  | binOp op l r ihl ihr => exact (and_congr ihl ihr).trans List.forall_mem_append.symm

/-- The filters of a scan are in scope where the scan's own columns are all they look at. -/
lemma ScanUnder.scoped_iff {a : String} (h : ScanUnder scans cs a root) : root.Scoped ↔
    ∀ c ∈ cs.filterConjuncts a, ∀ ref ∈ c.columns,
      ∃ iu, resolveColumn scans ref = .ok iu ∧ iu.id ∈ idsOf scans a := by
  cases h with
  | bare hs hnone =>
    rw [hnone]
    exact iff_of_true trivial fun c hc => absurd hc List.not_mem_nil
  | @filtered s id hs hsome =>
    have hids : ∀ id, id ∈ s.colIUs.map IU.id ↔ id ∈ idsOf scans a := by
      intro id
      rw [colIUs_id_iff, idsOf, hs]
    have hscoped : (Operator.select id (.scan s) (predicateOf scans (cs.filterConjuncts a))).Scoped ↔
        ∀ c ∈ cs.filterConjuncts a, c.ResolvesIn (resolveColumn scans) s.colIUs :=
      ⟨fun h => h.2.2, fun h => ⟨trivial, hsome, h⟩⟩
    rw [hscoped]
    simp only [resolvesIn_iff, hids]

lemma Planned.joined (h : Planned scans cs order root) (hnone : cs.postJoinFilters = []) :
    Joined scans cs order root := by
  cases h with
  | bare hj => exact hj
  | filtered _ hsome => exact absurd hnone hsome

lemma ScanUnder.outputs {a : String} (h : ScanUnder scans cs a root)
    (hclass : Classified scans conjs cs) (id : Nat) :
    id ∈ root.outputIUs.map IU.id ↔ id ∈ idsOf scans a := by
  rw [(h.tree hclass).outputs, idsOfAll]
  simp

/-- In a tree in scope, the sides of a join provide the columns of its keys. -/
lemma joinKeys_scoped (hs : root.Scoped) {build probe : Operator} {x y : IU}
    (h : (build, probe, x, y) ∈ root.joinKeys) :
    x.id ∈ build.outputIUs.map IU.id ∧ y.id ∈ probe.outputIUs.map IU.id := by
  induction root with
  | scan s => cases h
  | select id child pred ih => exact ih hs.1 h
  | hashJoin id b p bks pks ht ihb ihp =>
    obtain ⟨hsb, hsp, hbk, hpk⟩ := hs
    rcases List.mem_append.mp h with h | h
    · rcases List.mem_append.mp h with h | h
      · obtain ⟨key, hkey, heq⟩ := List.mem_map.mp h
        cases heq
        exact ⟨hbk x (List.of_mem_zip hkey).1, hpk y (List.of_mem_zip hkey).2⟩
      · exact ihb hsb h
    · exact ihp hsp h

variable (hnodup : order.Nodup) (hclass : Classified scans conjs cs)
include hnodup hclass

omit hnodup in
/-- A tree outputs the columns of its scans. The keys of a build side are columns of its own. -/
lemma Joined.outputs (h : Joined scans cs order root) (hbase : (joinBase order).Nodup) (id : Nat) :
    id ∈ root.outputIUs.map IU.id ↔ id ∈ idsOfAll scans order := by
  induction h with
  | scan h => exact (h.tree hclass).outputs id
  | @first f n build probe _ ht hb hp hid =>
    have hne : f ≠ n := joinBase_pair hbase
    rw [outputs_join, hb.outputs hclass, hp.outputs hclass]
    · simp [idsOfAll]
    · intro iu hiu
      obtain ⟨p, hpmem, rfl⟩ := List.mem_map.mp hiu
      obtain ⟨c, hc, hbetween, heq⟩ := firstJoinKeys_sound hclass hne hpmem
      exact (hb.outputs hclass _).mpr heq.otherAlias.1
  | @later n done build probe _ ht hjoined htwo hb hid ih =>
    rw [outputs_join, hb.outputs hclass, ih (joinBase_cons htwo ▸ hbase)]
    · simp [idsOfAll]
    · intro iu hiu
      obtain ⟨p, hpmem, rfl⟩ := List.mem_map.mp hiu
      obtain ⟨c, hc, heq⟩ := laterJoinKeys_sound hclass hpmem
      exact (hb.outputs hclass _).mpr heq.otherAlias.1

omit hnodup in
lemma Planned.outputs (h : Planned scans cs order root) (hbase : (joinBase order).Nodup) (id : Nat) :
    id ∈ root.outputIUs.map IU.id ↔ id ∈ idsOfAll scans order := by
  cases h with
  | bare hj => exact hj.outputs hclass hbase id
  | filtered hj => exact hj.outputs hclass hbase id

/-- A tree is in scope if its filters are and every key has a column of the first join. The
induction is on the joins: the other column of a key of the new alias is then in the tree so far. -/
lemma Joined.scoped (h : Joined scans cs order root)
    (hfilters : ∀ a ∈ order, ∀ op, ScanUnder scans cs a op → op.Scoped)
    (hbase : ∀ c ∈ conjs, (keyColumns c).isSome → ∃ a ∈ joinBase order, a ∈ conjunctAliases c)
    (hapart : ScansApart ctx scans) : root.Scoped := by
  induction h with
  | scan h => exact hfilters _ List.mem_cons_self _ h
  | @first f n build probe id ht hb hp hid =>
    have hne : f ≠ n := by simpa using (List.nodup_cons.mp hnodup).1
    refine ⟨hfilters f List.mem_cons_self _ hb, hfilters n (by simp) _ hp, ?_, ?_⟩
    · intro iu hiu
      obtain ⟨p, hpmem, rfl⟩ := List.mem_map.mp hiu
      obtain ⟨c, hc, hbetween, heq⟩ := firstJoinKeys_sound hclass hne hpmem
      exact (hb.outputs hclass _).mpr heq.otherAlias.1
    · intro iu hiu
      obtain ⟨p, hpmem, rfl⟩ := List.mem_map.mp hiu
      obtain ⟨c, hc, hbetween, heq⟩ := firstJoinKeys_sound hclass hne hpmem
      exact ((hp.tree hclass).outputs _).mpr ((heq.between hapart).mp hbetween)
  | @later n done build probe id ht hjoined htwo hb hid ih =>
    obtain ⟨hn, hdone⟩ := List.nodup_cons.mp hnodup
    rw [joinBase_cons htwo] at hbase
    have hsp := ih hdone (fun a ha => hfilters a (List.mem_cons_of_mem n ha)) hbase
    refine ⟨hfilters n List.mem_cons_self _ hb, hsp, ?_, ?_⟩
    · intro iu hiu
      obtain ⟨p, hpmem, rfl⟩ := List.mem_map.mp hiu
      obtain ⟨c, hc, heq⟩ := laterJoinKeys_sound hclass hpmem
      exact (hb.outputs hclass _).mpr heq.otherAlias.1
    · intro iu hiu
      obtain ⟨p, hpmem, rfl⟩ := List.mem_map.mp hiu
      obtain ⟨c, hc, heq⟩ := laterJoinKeys_sound hclass hpmem
      obtain ⟨-, hkey, b, hb, hy, haliases⟩ := heq.otherAlias
      obtain ⟨a, ha, hac⟩ := hbase c hc hkey
      have hadone := joinBase_subset ha
      have hab : a = b := ((haliases a).mp hac).resolve_left fun han => hn (han ▸ hadone)
      exact (hjoined.outputs hclass (joinBase_nodup hdone) _).mpr ⟨b, hab ▸ hadone, hy⟩

/-- In a tree in scope, a key without a column of the first join has no column at all. -/
lemma Joined.noEndpoint (h : Joined scans cs order root) (hapart : ScansApart ctx scans)
    (hs : root.Scoped) {c : Expr} (hc : c ∈ conjs) (hkey : (keyColumns c).isSome)
    (hbase : ∀ a ∈ joinBase order, a ∉ conjunctAliases c) : ∀ a ∈ order, a ∉ conjunctAliases c := by
  induction h with
  | scan h => exact hbase
  | first => exact hbase
  | @later n done build probe id ht hjoined htwo hb hid ih =>
    obtain ⟨-, hsp, -, hpk⟩ := hs
    obtain ⟨hn, hdone⟩ := List.nodup_cons.mp hnodup
    rw [joinBase_cons htwo] at hbase
    have hold := ih hdone hsp hbase
    intro a ha hac
    rcases List.mem_cons.mp ha with rfl | ha
    · obtain ⟨p, hp, heq⟩ := laterJoinKeys_complete hclass hc hkey hac
      have hscope := (hjoined.outputs hclass (joinBase_nodup hdone) _).mp (hpk _ (List.mem_map_of_mem hp))
      obtain ⟨-, -, b, hb, -, haliases⟩ := heq.otherAlias
      obtain ⟨-, -, hall⟩ := (heq.between hapart).mpr hscope
      have hbc := (haliases b).mpr (.inr rfl)
      exact hold b ((List.mem_cons.mp (hall b hbc)).resolve_left hb) hbc
    · exact hold a ha hac

end

/-! ### Planning an equi-join -/

section

variable {alloc : Nat → Word} {catalog : SQLCatalog} {stmt : SelectStmt} {entries : FromEntries}
  {scans : Scans} {ctx : CompilationContext}

lemma equiJoin_isKey (h : stmt.EquiJoin entries) {c : Expr} (hc : c ∈ stmt.conjuncts) :
    (keyColumns c).isSome := by
  obtain ⟨l, r, rfl, hne⟩ := h.keys c hc
  have hl := (conjunct_has h.qualified hc (List.mem_cons_self (a := l))).1
  have hr := (conjunct_has h.qualified hc (List.mem_cons_of_mem l (List.mem_singleton_self r))).1
  rw [keyColumns_iff.mpr ⟨rfl, hl, hr, hne⟩]
  rfl

/-- An equi-join is planned without an error. -/
lemma equiJoin_planned (h : stmt.EquiJoin entries)
    (hentries : stmt.entries catalog = .ok entries) (hwf : ∀ x ∈ entries, x.2.WellFormed) :
    ∃ r, plan alloc catalog stmt ctx = .ok r := by
  cases hplan : plan alloc catalog stmt ctx with
  | ok r => exact ⟨r, rfl⟩
  | error e =>
    exfalso
    have hlookup : ∀ ref ∈ stmt.fromList, ∃ table, catalog.lookup ref.tableName = .ok table := by
      intro ref href
      obtain ⟨x, -, -, hx⟩ := forall₂_mem_left (entries_forall₂ hentries) href
      exact ⟨x.2, hx⟩
    obtain ⟨scans', ctx', hcreated⟩ := createScans_ok hlookup [] ctx
    rcases plan_error h.nonempty hplan with herr | ⟨scans, ctx₁, hscans, herr⟩
    · rw [hcreated] at herr
      cases herr
    obtain ⟨hof, -⟩ := createScans_scansOf hscans
    have he : EntriesOf entries scans := hof.entriesOf hentries h.aliases
    rcases herr with herr | herr
    · obtain ⟨c, hc, l, r, hkey, hjk⟩ := classify_error herr
      obtain ⟨rfl, hl, hr, -⟩ := keyColumns_iff.mp hkey
      have hhas : ∀ ref ∈ [l, r], entries.Has ref := fun ref href => conjunct_has h.qualified hc href
      obtain ⟨-, lIU, -, hlIU, -⟩ := he.resolves hwf (hhas l (by simp))
      obtain ⟨-, rIU, -, hrIU, -⟩ := he.resolves hwf (hhas r (by simp))
      obtain ⟨jk, hok⟩ := makeJoinKey_ok hl hr hlIU hrIU
      rw [hok] at hjk
      cases hjk
    · obtain ⟨item, hitem, hres⟩ := resolveSelectList_error herr
      have hhas : ∀ ref ∈ item.columns entries, entries.Has ref := fun ref href =>
        h.qualified.selectList ref (List.mem_flatMap.mpr ⟨item, hitem, href⟩)
      rcases h.items item hitem with rfl | ⟨ref, name, rfl⟩
      · obtain ⟨a, ha, hexp⟩ := resolveStar_error hres
        rw [← entries_aliases hentries] at ha
        obtain ⟨x, hx, rfl⟩ := List.mem_map.mp ha
        obtain ⟨s, hs, htable⟩ := he.scan x hx
        obtain ⟨col, hcol, hget⟩ := expandAlias_error hs hexp
        have hcolumn : (⟨x.1, col.name⟩ : ColumnRef) ∈ SelectItem.star.columns entries :=
          List.mem_flatMap.mpr ⟨x, hx, List.mem_map_of_mem (htable ▸ hcol)⟩
        obtain ⟨-, iu, -, hiu, -⟩ := he.resolves hwf (hhas _ hcolumn)
        obtain ⟨s', hs', hget'⟩ := (resolveColumn_iff (hhas _ hcolumn).1).mp hiu
        rw [hs] at hs'
        cases hs'
        rw [hget] at hget'
        cases hget'
      · obtain ⟨s, iu, -, hiu, -⟩ := he.resolves hwf (hhas ref (List.mem_singleton_self ref))
        dsimp only [resolveItem] at hres
        rw [hiu] at hres
        cases hres

lemma ResolveTo.mem {output : List (IU × String)} {refs : List ColumnRef}
    (h : ResolveTo scans output refs) {iu : IU} (hiu : iu ∈ output.map Prod.fst) :
    ∃ ref ∈ refs, resolveColumn scans ref = .ok iu := by
  obtain ⟨p, hp, rfl⟩ := List.mem_map.mp hiu
  exact forall₂_mem_left h hp

/-- A plan of an equi-join, with what its phases establish. -/
structure EquiPlan (catalog : SQLCatalog) (stmt : SelectStmt) (entries : FromEntries)
    (result : PlanResult) (scans : Scans) (cs : Conjuncts) (ctx : CompilationContext) : Prop where
  classified : Classified scans stmt.conjuncts cs
  apart : ScansApart ctx scans
  qualified : ∀ c ∈ stmt.conjuncts, AllQualified c
  wellFormed : ∀ a s, scans.lookup a = some s → s.table.WellFormed
  nodup : (joinOrder (stmt.fromList.map TableRef.aliasName)).Nodup
  known : ∀ c ∈ stmt.conjuncts, ∀ a ∈ conjunctAliases c,
    a ∈ joinOrder (stmt.fromList.map TableRef.aliasName)
  joined : Joined scans cs (joinOrder (stmt.fromList.map TableRef.aliasName)) result.root
  noFilter : ∀ a, cs.filterConjuncts a = []
  output : ∀ iu ∈ result.outputIUs,
    iu.id ∈ idsOfAll scans (joinOrder (stmt.fromList.map TableRef.aliasName))
  width : result.outputIUs.length = (stmt.outputColumns entries).length

lemma equiJoin_equiPlan (h : stmt.EquiJoin entries)
    (hentries : stmt.entries catalog = .ok entries) (hwf : ∀ x ∈ entries, x.2.WellFormed)
    {result : PlanResult} {cs : Conjuncts} (hof : PlanOf catalog stmt ctx result scans cs) :
    ∃ ctx₁, EquiPlan catalog stmt entries result scans cs ctx₁ := by
  have he : EntriesOf entries scans := hof.scansOf.entriesOf hentries h.aliases
  have haliases := entries_aliases hentries
  have horder := joinOrder_perm (stmt.fromList.map TableRef.aliasName)
  have hclass := classify_spec hof.classified
  obtain ⟨hnofilter, hnopost⟩ := hclass.onlyKeys fun c hc => equiJoin_isKey h hc
  have hmem : ∀ ref, entries.Has ref →
      ref.tableAlias ∈ joinOrder (stmt.fromList.map TableRef.aliasName) := by
    intro ref href
    rw [horder.mem_iff, ← haliases]
    exact has_alias href
  obtain ⟨ctx₁, -, hapart⟩ := hof.created
  obtain ⟨output, hresolve, hout⟩ := hof.output
  rw [← haliases] at hresolve
  have houtput := resolveSelectList_spec he h.qualified.selectList hresolve
  refine ⟨ctx₁, hclass, hapart, ?_, ?_, horder.nodup_iff.mpr h.aliases, ?_, ?_, hnofilter, ?_, ?_⟩
  · exact fun c hc ref href => (conjunct_has h.qualified hc href).1
  · exact fun a s hs => hwf _ (he.only a s hs)
  · intro c hc a ha
    obtain ⟨-, ref, href, rfl⟩ := mem_conjunctAliases.mp ha
    exact hmem ref (conjunct_has h.qualified hc href)
  · exact hof.root.joined hnopost
  · intro iu hiu
    rw [hout] at hiu
    obtain ⟨ref, href, hres⟩ := houtput.mem hiu
    have hhas := h.qualified.selectList ref href
    exact ⟨ref.tableAlias, hmem ref hhas, resolveColumn_ids hhas.1 hres⟩
  · rw [hout, List.length_map]
    exact houtput.length_eq

/-- Code is generated for the plan where it is in scope and its output is not too wide. -/
lemma EquiPlan.generates_iff {result : PlanResult} {cs : Conjuncts} {ctx ctx₁ : CompilationContext}
    (h : EquiPlan catalog stmt entries result scans cs ctx) (self : Word) (hv : Valid ctx₁.program)
    (ho : Open ctx₁.program) :
    (∃ ctx', generateCode result.root self result.outputIUs ctx₁ = .ok ((), ctx')) ↔
      result.root.Scoped ∧ result.outputIUs.length ≤ 8 := by
  have hout : ∀ iu ∈ result.outputIUs, iu.id ∈ result.root.outputIUs.map IU.id :=
    fun iu hiu => (h.joined.outputs h.classified (joinBase_nodup h.nodup) iu.id).mpr (h.output iu hiu)
  rw [generateCode_ok_iff result.root self result.outputIUs
    (h.joined.distinct (joinBase_nodup h.nodup)) (h.joined.raises fun _ _ _ => trivial) hv ho]
  exact and_congr_right fun _ => and_iff_left hout

/-- The keys of a plan in scope have a column of the first two FROM entries. -/
lemma EquiPlan.endpoint {result : PlanResult} {cs : Conjuncts} {ctx : CompilationContext}
    (h : EquiPlan catalog stmt entries result scans cs ctx) (hequi : stmt.EquiJoin entries)
    (hs : result.root.Scoped) : ∀ c ∈ stmt.conjuncts,
      ∃ a ∈ (stmt.fromList.map TableRef.aliasName).take 2, a ∈ conjunctAliases c := by
  intro c hc
  by_contra hnone
  have hbase : ∀ a ∈ joinBase (joinOrder (stmt.fromList.map TableRef.aliasName)),
      a ∉ conjunctAliases c := by
    rw [joinBase_joinOrder]
    exact fun a ha hac => hnone ⟨a, ha, hac⟩
  have hkey := equiJoin_isKey hequi hc
  have hno := h.joined.noEndpoint h.nodup h.classified h.apart hs hc hkey hbase
  obtain ⟨a, b, hab⟩ := List.length_eq_two.mp (keyColumns_length hkey)
  have ha : a ∈ conjunctAliases c := hab ▸ List.mem_cons_self
  exact hno a (h.known c hc a ha) ha

/-- Where every key has such a column, the plan is in scope and every conjunct is a key of a join. -/
lemma EquiPlan.assigned {result : PlanResult} {cs : Conjuncts} {ctx : CompilationContext}
    (h : EquiPlan catalog stmt entries result scans cs ctx) (hequi : stmt.EquiJoin entries)
    (hbase : ∀ c ∈ stmt.conjuncts,
      ∃ a ∈ (stmt.fromList.map TableRef.aliasName).take 2, a ∈ conjunctAliases c) :
    result.root.Scoped ∧ ∀ c ∈ stmt.conjuncts, AssignedKey scans result.root c := by
  have hs := h.joined.scoped h.nodup h.classified
    (fun a _ op hop => hop.scoped_iff.mpr (by simp [h.noFilter a]))
    (by rw [joinBase_joinOrder]; exact fun c hc _ => hbase c hc) h.apart
  refine ⟨hs, fun c hc => ?_⟩
  obtain ⟨n, build, probe, x, y, heq, hmem⟩ :=
    h.joined.hasKey h.classified hc (equiJoin_isKey hequi hc) (h.known c hc)
  exact ⟨n, build, probe, x, y, heq, hmem, joinKeys_scoped hs hmem⟩

/-- What planning an equi-join returns. -/
lemma equiJoin_plans (h : stmt.EquiJoin entries) (hentries : stmt.entries catalog = .ok entries)
    (hwf : ∀ x ∈ entries, x.2.WellFormed) (alloc : Nat → Word) (heap : Heap) :
    ∃ scans ctx₀ result ctx₁ cs ctx₂,
      createScans catalog stmt.fromList [] (initialContext heap) = .ok (scans, ctx₀) ∧
      plan alloc catalog stmt (initialContext heap) = .ok (result, ctx₁) ∧
      PlanOf catalog stmt (initialContext heap) result scans cs ∧
      EquiPlan catalog stmt entries result scans cs ctx₂ ∧
      Valid ctx₁.program ∧ Open ctx₁.program := by
  obtain ⟨⟨result, ctx₁⟩, hplan⟩ :=
    @equiJoin_planned alloc catalog stmt entries (initialContext heap) h hentries hwf
  obtain ⟨scans, cs, hof, hprogram, -⟩ := plan_spec hplan
  obtain ⟨ctx₀, hcreated, -⟩ := hof.created
  obtain ⟨ctx₂, hequi⟩ := equiJoin_equiPlan h hentries hwf hof
  have hprogram' : ctx₁.program = queryProgram := hprogram
  exact ⟨scans, ctx₀, result, ctx₁, cs, ctx₂, hcreated, hplan, hof, hequi,
    hprogram' ▸ queryProgram_valid, hprogram' ▸ queryProgram_open⟩

end

end Proofs

end TidyTuples
