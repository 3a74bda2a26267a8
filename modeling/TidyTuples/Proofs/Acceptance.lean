import Mathlib.Tactic.MkIffOfInductiveProp
import TidyTuples.Proofs.FoundColumns

/-!
# Which statements are accepted

Whether a statement is planned and compiled depends on its names only: where each column is found
among the FROM entries, which aliases are written in its conjunct, and in which order they are joined.
-/

namespace TidyTuples

/-- The first two entries have different aliases. With one alias the first join has one operator on
both sides, nothing comes out of it, and no code is generated for what is above it. -/
def FromEntries.Joinable (entries : FromEntries) : Prop := ((entries.map Prod.fst).take 2).Nodup

/-- Where an alias behind the first two is joined, the other alias of the key has been joined. -/
def Expr.JoinsInOrder (c : Expr) (aliases : List String) : Prop :=
  ∀ before n after, aliases = before ++ n :: after → 2 ≤ before.length →
    n ∈ QueryPlanner.conjunctAliases c →
    ∀ a ∈ QueryPlanner.conjunctAliases c, a = n ∨ a ∈ before

/-- The conjunct can be compiled where its written aliases put it: over the scan of its only alias,
at a join, or over all scans. The filter of a name that is no FROM alias is never compiled. -/
structure Expr.Compiles (c : Expr) (entries : FromEntries) : Prop where
  filter : ∀ a ∈ entries.map Prod.fst, QueryPlanner.conjunctAliases c = [a] →
    ∀ ref ∈ c.columns, entries.Finds ref a
  key : (Proofs.keyColumns c).isSome → ∀ ref ∈ c.columns, ∃ a, entries.Finds ref a
  joined : entries.Joinable → (Proofs.keyColumns c).isSome →
    c.JoinsInOrder (entries.map Prod.fst)
  postJoin : entries.Joinable → (QueryPlanner.conjunctAliases c).length ≠ 1 →
    ∀ ref ∈ c.columns, ∃ a, entries.Finds ref a

/-- Every name of the statement is found where it is looked up, and the output is not too wide. -/
@[mk_iff]
structure SelectStmt.Accepted (stmt : SelectStmt) (entries : FromEntries) : Prop where
  items : ∀ item ∈ stmt.selectList, item = .star ∨
    ∃ ref name a, item = .item (.colRef ref) name ∧ entries.Finds ref a
  width : entries.Joinable → (stmt.outputColumns entries).length ≤ 8
  conjuncts : ∀ c ∈ stmt.conjuncts, c.Compiles entries

namespace Proofs

open QueryPlanner IRProgram

section

variable {catalog : SQLCatalog} {stmt : SelectStmt} {entries : FromEntries} {scans : Scans}
  {ctx ctx' : CompilationContext} {ref : ColumnRef} {a : String} {c : Expr} {order : List String}
  {cs : Conjuncts} {conjs : List Expr} {root : Operator} {parent : Consumer}

/-! ### The order of the joins -/

/-- `JoinsInOrder`, along the joins from the top of the tree down. -/
def InOrder (c : Expr) : List String → Prop
  | [] => True
  | n :: done => (2 ≤ done.length → n ∈ conjunctAliases c →
      ∀ a ∈ conjunctAliases c, a ∈ n :: done) ∧ InOrder c done

lemma inOrder_iff : InOrder c order ↔ ∀ pre n done, order = pre ++ n :: done → 2 ≤ done.length →
    n ∈ conjunctAliases c → ∀ a ∈ conjunctAliases c, a ∈ n :: done := by
  induction order with
  | nil => exact iff_of_true trivial fun pre n done h => absurd h (by simp)
  | cons m rest ih =>
    rw [InOrder, ih]
    constructor
    · rintro ⟨hm, hrest⟩ pre n done hsplit
      cases pre with
      | nil =>
        cases hsplit
        exact hm
      | cons k pre =>
        cases hsplit
        exact hrest pre n done rfl
    · intro hall
      exact ⟨hall [] m rest rfl, fun pre n done hsplit => hall (m :: pre) n done (by rw [hsplit]; rfl)⟩

/-- The joins run over the FROM list backwards, but for the first one. -/
lemma joinsInOrder_iff {aliases : List String} :
    c.JoinsInOrder aliases ↔ InOrder c (joinOrder aliases) := by
  rw [inOrder_iff]
  match aliases with
  | [] =>
    refine iff_of_true (fun before n after h => absurd h (by simp)) fun pre n done h => ?_
    simp [joinOrder] at h
  | [only] =>
    constructor
    · intro _ pre n done h hlen
      have hlength := congrArg List.length h
      simp only [joinOrder, List.length_append, List.length_cons, List.length_nil] at hlength
      omega
    · intro _ before n after h hlen
      have hlength := congrArg List.length h
      simp only [List.length_append, List.length_cons, List.length_nil] at hlength
      omega
  | first :: second :: rest =>
    constructor
    · intro horder pre n done hsplit hlen hn a ha
      have hrev := congrArg List.reverse hsplit
      simp only [joinOrder, List.reverse_append, List.reverse_reverse, List.reverse_cons,
        List.append_assoc, List.reverse_nil, List.nil_append, List.cons_append] at hrev
      obtain ⟨d, hd⟩ : ∃ d, done.reverse = second :: first :: d := by
        have hlength : done.reverse.length = done.length := List.length_reverse
        generalize done.reverse = rev at hrev hlength
        match rev with
        | [] => simp at hlength; omega
        | [x] => simp at hlength; omega
        | x :: y :: d =>
          simp only [List.cons_append, List.cons.injEq] at hrev
          exact ⟨d, by rw [hrev.1, hrev.2.1]⟩
      rw [hd] at hrev
      simp only [List.cons_append, List.cons.injEq, true_and] at hrev
      have hside := horder (first :: second :: d) n pre.reverse (by rw [hrev]; rfl) (by simp) hn a ha
      rw [List.mem_cons, ← List.mem_reverse, hd]
      simpa [or_left_comm] using hside
    · intro horder before n after hsplit hlen hn a ha
      match before with
      | [] => simp at hlen
      | [x] => simp at hlen
      | x :: y :: d =>
        cases hsplit
        have hside := horder after.reverse n (d.reverse ++ [first, second]) (by simp [joinOrder])
          (by simp) hn a ha
        simp only [List.mem_cons, List.mem_append, List.mem_reverse, List.not_mem_nil, or_false] at hside
        simp only [List.mem_cons]
        tauto

/-! ### Trees in scope -/

/-- The filters of a scan are over its columns. -/
def FiltersFound (scans : Scans) (cs : Conjuncts) (a : String) : Prop :=
  ∀ c ∈ cs.filterConjuncts a, ∀ ref ∈ c.columns,
    ∃ iu, resolveColumn scans ref = .ok iu ∧ iu.id ∈ idsOf scans a

/-- The induction is on the joins: a key of the new alias is in scope where its other column is one of
the tree so far. -/
lemma Joined.scoped_iff (h : Joined scans cs order root) (hbase : (joinBase order).Nodup)
    (hclass : Classified scans conjs cs) (hapart : ScansApart ctx scans) : root.Scoped ↔
      (∀ a ∈ order, FiltersFound scans cs a) ∧
        ∀ c ∈ conjs, (keyColumns c).isSome → InOrder c order := by
  induction h with
  | @scan a op h =>
    rw [h.scoped_iff, List.forall_mem_singleton]
    refine (and_iff_left fun c _ _ => ⟨fun hlen => ?_, trivial⟩).symm
    cases hlen
  | @first f n build probe id ht hb hp hid =>
    have hne : f ≠ n := joinBase_pair hbase
    have hkeys : ∀ p ∈ firstJoinKeys cs.joinKeys f n,
        p.1.id ∈ build.outputIUs.map IU.id ∧ p.2.id ∈ probe.outputIUs.map IU.id := by
      intro p hp'
      obtain ⟨c, hc, hbetween, heq⟩ := firstJoinKeys_sound hclass hne hp'
      exact ⟨(hb.outputs hclass _).mpr heq.otherAlias.1,
        ((hp.tree hclass).outputs _).mpr ((heq.between hapart).mp hbetween)⟩
    constructor
    · rintro ⟨hsb, hsp, -, -⟩
      refine ⟨fun a ha => ?_, fun c _ _ => ⟨fun hlen => ?_, ⟨fun hlen => ?_, trivial⟩⟩⟩
      · rcases List.mem_pair.mp ha with rfl | rfl
        · exact hb.scoped_iff.mp hsb
        · exact hp.scoped_iff.mp hsp
      · simp at hlen
      · simp at hlen
    · rintro ⟨hfilters, -⟩
      refine ⟨hb.scoped_iff.mpr (hfilters f List.mem_cons_self),
        hp.scoped_iff.mpr (hfilters n (by simp)), fun iu hiu => ?_, fun iu hiu => ?_⟩
      · obtain ⟨p, hmem, rfl⟩ := List.mem_map.mp hiu
        exact (hkeys p hmem).1
      · obtain ⟨p, hmem, rfl⟩ := List.mem_map.mp hiu
        exact (hkeys p hmem).2
  | @later n done build probe id ht hjoined htwo hb hid ih =>
    rw [joinBase_cons htwo] at hbase
    have hbuildKeys : ∀ iu ∈ (laterJoinKeys cs.joinKeys n).map Prod.fst,
        iu.id ∈ build.outputIUs.map IU.id := by
      intro iu hiu
      obtain ⟨p, hmem, rfl⟩ := List.mem_map.mp hiu
      obtain ⟨c, hc, heq⟩ := laterJoinKeys_sound hclass hmem
      exact (hb.outputs hclass _).mpr heq.otherAlias.1
    have hprobeKeys : (∀ iu ∈ (laterJoinKeys cs.joinKeys n).map Prod.snd,
        iu.id ∈ probe.outputIUs.map IU.id) ↔ ∀ c ∈ conjs, (keyColumns c).isSome →
          n ∈ conjunctAliases c → ∀ a ∈ conjunctAliases c, a ∈ n :: done := by
      constructor
      · intro hscope c hc hkey hn
        obtain ⟨p, hp, heq⟩ := laterJoinKeys_complete hclass hc hkey hn
        have hid := (hjoined.outputs hclass hbase _).mp (hscope p.2 (List.mem_map_of_mem hp))
        exact ((heq.between hapart).mpr hid).2.2
      · intro hall iu hiu
        obtain ⟨p, hmem, rfl⟩ := List.mem_map.mp hiu
        obtain ⟨c, hc, heq⟩ := laterJoinKeys_sound hclass hmem
        obtain ⟨-, hkey, b, -, -, haliases⟩ := heq.otherAlias
        have hn := (haliases n).mpr (.inl rfl)
        exact (hjoined.outputs hclass hbase _).mpr
          ((heq.between hapart).mp ⟨hkey, hn, hall c hc hkey hn⟩)
    constructor
    · rintro ⟨hsb, hsp, -, hpk⟩
      obtain ⟨hfilters, horder⟩ := (ih hbase).mp hsp
      refine ⟨List.forall_mem_cons.mpr ⟨hb.scoped_iff.mp hsb, hfilters⟩, fun c hc hkey => ?_⟩
      exact ⟨fun _ => hprobeKeys.mp hpk c hc hkey, horder c hc hkey⟩
    · rintro ⟨hfilters, horder⟩
      obtain ⟨hfilter, hrest⟩ := List.forall_mem_cons.mp hfilters
      exact ⟨hb.scoped_iff.mpr hfilter, (ih hbase).mpr ⟨hrest, fun c hc hkey => (horder c hc hkey).2⟩,
        hbuildKeys, hprobeKeys.mpr fun c hc hkey => (horder c hc hkey).1 htwo⟩

/-- The tree is in scope: the filters over their scans, the keys at their joins, the rest over all
scans. -/
lemma Planned.scoped_iff (h : Planned scans cs order root) (hbase : (joinBase order).Nodup)
    (hclass : Classified scans conjs cs) (hapart : ScansApart ctx scans) : root.Scoped ↔
      ((∀ a ∈ order, FiltersFound scans cs a) ∧
        ∀ c ∈ conjs, (keyColumns c).isSome → InOrder c order) ∧
      ∀ c ∈ cs.postJoinFilters, ∀ ref ∈ c.columns,
        ∃ iu, resolveColumn scans ref = .ok iu ∧ iu.id ∈ idsOfAll scans order := by
  cases h with
  | bare hj hnone =>
    rw [hj.scoped_iff hbase hclass hapart, hnone]
    simp
  | @filtered op id hj hsome =>
    have hscoped : (Operator.select id op (predicateOf scans cs.postJoinFilters)).Scoped ↔
        op.Scoped ∧ ∀ c ∈ cs.postJoinFilters, c.ResolvesIn (resolveColumn scans) op.outputIUs :=
      ⟨fun h => ⟨h.1, h.2.2⟩, fun h => ⟨h.1, hsome, h.2⟩⟩
    rw [hscoped, hj.scoped_iff hbase hclass hapart]
    simp only [resolvesIn_iff, hj.outputs hclass hbase]

/-! ### One operator on both sides -/

/-- For a scan and its filter, with a consumer that can use the scan's columns. -/
lemma ScanUnder.produce_iff (h : ScanUnder scans cs a root) {f : Heap → Heap}
    (he : ConsumerEmits False parent) (hlays : ConsumerLays parent root.id root.outputIUs f)
    (hv : Valid ctx.program) (ho : Open ctx.program) :
    (∃ ctx', root.produce parent ctx = .ok ((), ctx')) ↔ FiltersFound scans cs a := by
  constructor
  · rintro ⟨ctx', hrun⟩
    by_contra hnot
    obtain ⟨e, -, hfail⟩ := @produce_fails ctx (fun _ => True) root h.distinct
      (fun _ => ⟨fun _ => trivial, h.raises fun _ _ _ => trivial⟩) parent he
      (fun hs => absurd (h.scoped_iff.mp hs) hnot) hv ho
    rw [hrun] at hfail
    cases hfail
  · intro hfound
    obtain ⟨ctx', hrun, -⟩ := produce_lays root h.distinct (h.scoped_iff.mpr hfound) he hlays hv ho
    exact ⟨ctx', hrun⟩

/-- A key has two aliases. -/
lemma firstJoinKeys_self (hclass : Classified scans conjs cs) (f : String) :
    firstJoinKeys cs.joinKeys f f = [] := by
  apply List.filterMap_eq_nil_iff.mpr
  intro jk hjk
  obtain ⟨c, -, l, r, hkey, hof⟩ := hclass.sound hjk
  have hnot : ¬ (jk.buildAlias = f ∧ jk.probeAlias = f) := by
    rintro ⟨hb, hp⟩
    apply key_not_single (c := c) (a := f) (by rw [hkey]; rfl)
    intro b hb'
    rcases (keyOf_aliases hkey hof b).mp hb' with rfl | rfl
    · exact List.mem_singleton.mpr hb
    · exact List.mem_singleton.mpr hp
  rw [if_neg hnot, if_neg fun h => hnot h.symm]

/-- Two sides that are one: both fill the hash table. -/
lemma sameSide_lays (hclass : Classified scans conjs cs) {build probe : Operator} {id : Nat}
    {ht : Word} (hb : ScanUnder scans cs a build) (hp : ScanUnder scans cs a probe)
    (hid : build.id = probe.id) (parent : Consumer) :
    ConsumerLays ((HashJoinTranslator.of id build [] [] ht).consume parent) probe.id probe.outputIUs
      (HashJoinTranslator.of id build [] [] ht).layoutBuild := by
  intro ctx scope _ _ hbinds
  obtain ⟨⟨⟩, ctx₁, hrun, hheap, -⟩ := consumeBuildSide_lays
    (j := HashJoinTranslator.of id build [] [] ht) hbinds (fun iu hiu => by cases hiu)
    (fun iu hiu => (hp.outputs hclass _).mpr
      ((hb.outputs hclass _).mp (List.mem_map_of_mem (List.mem_of_mem_filter hiu)))) ctx
  refine ⟨ctx₁, ?_, hheap⟩
  unfold HashJoinTranslator.consume
  rw [if_pos (show probe.id = (HashJoinTranslator.of id build [] [] ht).buildId from hid.symm)]
  exact hrun

/-- A join is compiled where both sides are, one after the other. -/
lemma join_produce_iff {build probe : Operator} {id : Nat} {bks pks : List IU} {ht : Word}
    {P Q : Prop} (he : ConsumerEmits False parent) (hv : Valid ctx.program) (ho : Open ctx.program)
    (hP : (∃ ctx', build.produce ((HashJoinTranslator.of id build bks pks ht).consume parent) ctx =
      .ok ((), ctx')) ↔ P)
    (hQ : ∀ ctx₁ : CompilationContext, Valid ctx₁.program → Open ctx₁.program →
      ((∃ ctx', probe.produce ((HashJoinTranslator.of id build bks pks ht).consume parent) ctx₁ =
        .ok ((), ctx')) ↔ Q)) :
    (∃ ctx', (Operator.hashJoin id build probe bks pks ht).produce parent ctx = .ok ((), ctx')) ↔
      P ∧ Q := by
  have hgrows : ∀ {ctx₁ : CompilationContext},
      build.produce ((HashJoinTranslator.of id build bks pks ht).consume parent) ctx =
        .ok ((), ctx₁) → Valid ctx₁.program ∧ Open ctx₁.program := by
    intro ctx₁ hrun
    have e := produce_emits build (join_emits he) False.elim hv ho hrun
    exact (((Emits.const _ _ _).trans e).grows hv ho).2
  constructor
  · rintro ⟨ctx', hrun⟩
    obtain ⟨⟨⟩, ctx₁, hbuild, hprobe⟩ := run_bind_ok hrun
    obtain ⟨hv₁, ho₁⟩ := hgrows hbuild
    exact ⟨hP.mp ⟨ctx₁, hbuild⟩, (hQ ctx₁ hv₁ ho₁).mp ⟨ctx', hprobe⟩⟩
  · rintro ⟨hp, hq⟩
    obtain ⟨ctx₁, hbuild⟩ := hP.mpr hp
    obtain ⟨hv₁, ho₁⟩ := hgrows hbuild
    obtain ⟨ctx', hprobe⟩ := (hQ ctx₁ hv₁ ho₁).mpr hq
    exact ⟨ctx', (run_bind_of_ok hbuild).trans hprobe⟩

/-- Where the first join has one operator on both sides, only the filters of the scans are compiled.
The induction is on the joins, for any consumer of the rows. -/
lemma Joined.sameSide_iff (h : Joined scans cs order root) (hbase : ¬ (joinBase order).Nodup)
    (hclass : Classified scans conjs cs) (he : ConsumerEmits False parent)
    (hv : Valid ctx.program) (ho : Open ctx.program) :
    (∃ ctx', root.produce parent ctx = .ok ((), ctx')) ↔ ∀ a ∈ order, FiltersFound scans cs a := by
  induction h generalizing parent ctx with
  | scan h => exact absurd (List.nodup_singleton _) hbase
  | @first f n build probe id ht hb hp hid =>
    obtain rfl : f = n := by
      by_contra hne
      apply hbase
      change [f, n].Nodup
      simp [hne]
    rw [firstJoinKeys_self hclass]
    have hsame := hid.mpr rfl
    refine (join_produce_iff (Q := FiltersFound scans cs f) he hv ho
      (hb.produce_iff (join_emits he) (sameSide_lays hclass hb hb rfl parent) hv ho)
      fun ctx₁ hv₁ ho₁ => hp.produce_iff (join_emits he)
        (sameSide_lays hclass hb hp hsame parent) hv₁ ho₁).trans ?_
    simp
  | @later n done build probe id ht hjoined htwo hb hid ih =>
    rw [joinBase_cons htwo] at hbase
    have hkeys : ∀ iu ∈ (laterJoinKeys cs.joinKeys n).map Prod.fst,
        iu.id ∈ build.outputIUs.map IU.id := by
      intro iu hiu
      obtain ⟨p, hmem, rfl⟩ := List.mem_map.mp hiu
      obtain ⟨c, hc, heq⟩ := laterJoinKeys_sound hclass hmem
      exact (hb.outputs hclass _).mpr heq.otherAlias.1
    refine (join_produce_iff (Q := ∀ a ∈ done, FiltersFound scans cs a) he hv ho
      (hb.produce_iff (join_emits he) (buildSide_lays hkeys) hv ho)
      fun ctx₁ hv₁ ho₁ => ih hbase (join_emits he) hv₁ ho₁).trans ?_
    exact List.forall_mem_cons.symm

lemma Planned.sameSide_iff (h : Planned scans cs order root) (hbase : ¬ (joinBase order).Nodup)
    (hclass : Classified scans conjs cs) (he : ConsumerEmits False parent)
    (hv : Valid ctx.program) (ho : Open ctx.program) :
    (∃ ctx', root.produce parent ctx = .ok ((), ctx')) ↔ ∀ a ∈ order, FiltersFound scans cs a := by
  cases h with
  | bare hj => exact hj.sameSide_iff hbase hclass he hv ho
  | filtered hj => exact hj.sameSide_iff hbase hclass (select_emits he False.elim) hv ho

/-! ### Names -/

/-- The filter of a FROM alias is compiled where its columns are in the scan. -/
lemma compiles_of_one (ha : a ∈ entries.map Prod.fst) (hone : conjunctAliases c = [a]) :
    c.Compiles entries ↔ ∀ ref ∈ c.columns, entries.Finds ref a := by
  have hlen : (conjunctAliases c).length = 1 := by rw [hone]; rfl
  have hnokey : ¬ (keyColumns c).isSome := by
    intro hkey
    rw [keyColumns_length hkey] at hlen
    cases hlen
  constructor
  · exact fun h => h.filter a ha hone
  · intro hall
    constructor
    · intro x _ hx
      rw [hone] at hx
      cases hx
      exact hall
    · exact fun hkey => absurd hkey hnokey
    · exact fun _ hkey => absurd hkey hnokey
    · exact fun _ hne => absurd hlen hne

/-- A filter over the joins is compiled where its columns are found at all. -/
lemma compiles_of_many (hjoin : entries.Joinable) (hlen : (conjunctAliases c).length ≠ 1)
    (hnokey : keyColumns c = none) :
    c.Compiles entries ↔ ∀ ref ∈ c.columns, ∃ a, entries.Finds ref a := by
  have hnone : ¬ (keyColumns c).isSome := by
    rw [hnokey]
    exact Bool.false_ne_true
  constructor
  · exact fun h => h.postJoin hjoin hlen
  · intro hall
    constructor
    · intro x _ hx
      rw [hx] at hlen
      exact absurd rfl hlen
    · exact fun hkey => absurd hkey hnone
    · exact fun _ hkey => absurd hkey hnone
    · exact fun _ _ => hall

lemma finds_alias (h : entries.Finds ref a) : a ∈ entries.map Prod.fst := by
  obtain ⟨x, hx, rfl, -⟩ := h.offered
  exact List.mem_map_of_mem hx

/-- The filters of the scans are found where the names say. -/
lemma FromScans.filters_iff (h : FromScans entries scans ctx) (hwritable : stmt.Writable)
    (hclass : Classified scans stmt.conjuncts cs) (horder : order.Perm (entries.map Prod.fst)) :
    (∀ a ∈ order, FiltersFound scans cs a) ↔ ∀ c ∈ stmt.conjuncts, ∀ a ∈ entries.map Prod.fst,
      conjunctAliases c = [a] → ∀ ref ∈ c.columns, entries.Finds ref a := by
  constructor
  · intro hfilters c hc a ha hone ref href
    have hmem : c ∈ cs.filterConjuncts a := by
      rw [hclass.filters]
      exact List.mem_filter.mpr ⟨hc, decide_eq_true hone⟩
    exact (h.finds_iff (conjunct_noSpace hwritable hc href)).mp
      (hfilters a (horder.mem_iff.mpr ha) c hmem ref href)
  · intro hall a ha c hmem ref href
    rw [hclass.filters] at hmem
    obtain ⟨hc, hone⟩ := List.mem_filter.mp hmem
    exact (h.finds_iff (conjunct_noSpace hwritable hc href)).mpr
      (hall c hc a (horder.mem_iff.mp ha) (of_decide_eq_true hone) ref href)

/-- The columns of a key that was classified are found. -/
lemma FromScans.keys_found (h : FromScans entries scans ctx) (hwritable : stmt.Writable)
    (hclass : Classified scans stmt.conjuncts cs) (hc : c ∈ stmt.conjuncts)
    (hkey : (keyColumns c).isSome) : ∀ ref ∈ c.columns, ∃ a, entries.Finds ref a := by
  intro ref href
  obtain ⟨⟨l, r⟩, hlr⟩ := Option.isSome_iff_exists.mp hkey
  obtain ⟨rfl, -⟩ := keyColumns_iff.mp hlr
  obtain ⟨jk, -, lIU, rIU, hl, hr, -⟩ := hclass.complete hc hlr
  apply (h.resolves_iff (conjunct_noSpace hwritable hc href)).mp
  rcases List.mem_pair.mp href with rfl | rfl
  · exact ⟨lIU, hl⟩
  · exact ⟨rIU, hr⟩

/-- The plan of classified conjuncts is in scope where these can be compiled. -/
lemma FromScans.conjuncts_iff (h : FromScans entries scans ctx) (hwritable : stmt.Writable)
    (hclass : Classified scans stmt.conjuncts cs) (hjoin : entries.Joinable)
    (hplanned : Planned scans cs (joinOrder (entries.map Prod.fst)) root) :
    root.Scoped ↔ ∀ c ∈ stmt.conjuncts, c.Compiles entries := by
  have horder := joinOrder_perm (entries.map Prod.fst)
  rw [hplanned.scoped_iff (joinBase_joinOrder _ ▸ hjoin) hclass h.apart,
    h.filters_iff hwritable hclass horder]
  constructor
  · rintro ⟨⟨hfilters, hkeys⟩, hpost⟩ c hc
    refine ⟨hfilters c hc, h.keys_found hwritable hclass hc,
      fun _ hkey => joinsInOrder_iff.mpr (hkeys c hc hkey), fun _ hlen ref href => ?_⟩
    by_cases hkey : (keyColumns c).isSome
    · exact h.keys_found hwritable hclass hc hkey ref href
    · have hmem : c ∈ cs.postJoinFilters := by
        rw [hclass.postJoin]
        exact List.mem_filter.mpr
          ⟨hc, decide_eq_true ⟨hlen, Option.not_isSome_iff_eq_none.mp hkey⟩⟩
      obtain ⟨iu, hres, a, -, hid⟩ := hpost c hmem ref href
      exact ⟨a, (h.finds_iff (conjunct_noSpace hwritable hc href)).mp ⟨iu, hres, hid⟩⟩
  · intro hcompiles
    refine ⟨⟨fun c hc => (hcompiles c hc).filter, fun c hc hkey =>
      joinsInOrder_iff.mp ((hcompiles c hc).joined hjoin hkey)⟩, fun c hmem ref href => ?_⟩
    rw [hclass.postJoin] at hmem
    obtain ⟨hc, hpost⟩ := List.mem_filter.mp hmem
    obtain ⟨a, ha⟩ := (hcompiles c hc).postJoin hjoin (of_decide_eq_true hpost).1 ref href
    obtain ⟨iu, hres, hid⟩ := (h.finds_iff (conjunct_noSpace hwritable hc href)).mpr ha
    exact ⟨iu, hres, a, horder.mem_iff.mpr (finds_alias ha), hid⟩

/-! ### Acceptance -/

variable {alloc : Nat → Word} {self : Word} {heap : Heap}

/-- A plan is compiled where code is generated for its tree. -/
lemma compileStmt_of_plan {result : PlanResult} {ctx₁ : CompilationContext}
    (hplan : plan alloc catalog stmt (initialContext heap) = .ok (result, ctx₁)) :
    (∃ r, compileStmt alloc catalog self stmt (initialContext heap) = .ok r) ↔
      ∃ ctx', result.root.produce (printConsume self result.outputIUs) ctx₁ = .ok ((), ctx') := by
  have hrun : compileStmt alloc catalog self stmt (initialContext heap) =
      (generateCode result.root self result.outputIUs >>= fun _ => pure result) ctx₁ :=
    run_bind_of_ok hplan
  rw [hrun]
  constructor
  · rintro ⟨r, h⟩
    obtain ⟨⟨⟩, ctx₂, hgen, -⟩ := run_bind_ok h
    obtain ⟨ctx₃, hproduce, -⟩ := run_generateCode hgen
    exact ⟨ctx₃, hproduce⟩
  · rintro ⟨ctx', hproduce⟩
    exact ⟨_, run_bind_of_ok (run_bind_of_ok hproduce)⟩

/-- The code of a plan is generated where the rest of the names are found. -/
lemma FromScans.plan_compiles_iff (h : FromScans entries scans ctx) (hwritable : stmt.Writable)
    (haliases : entries.map Prod.fst = stmt.fromList.map TableRef.aliasName) {result : PlanResult}
    {ctx₁ : CompilationContext} (hof : PlanOf catalog stmt (initialContext heap) result scans cs)
    (hplan : plan alloc catalog stmt (initialContext heap) = .ok (result, ctx₁)) :
    (∃ r, compileStmt alloc catalog self stmt (initialContext heap) = .ok r) ↔
      (entries.Joinable → (stmt.outputColumns entries).length ≤ 8) ∧
        ∀ c ∈ stmt.conjuncts, c.Compiles entries := by
  have hclass := classify_spec hof.classified
  obtain ⟨output, houtput, hius⟩ := hof.output
  have hplanned := hof.root
  rw [← haliases] at houtput hplanned
  by_cases hjoin : entries.Joinable
  · have hbase : ((stmt.fromList.map TableRef.aliasName).take 2).Nodup := by rw [← haliases]; exact hjoin
    have houtputs := h.resolveSelectList_output hwritable houtput
    have hlen : result.outputIUs.length = (stmt.outputColumns entries).length := by
      rw [hius, List.length_map]
      exact houtputs.length_eq
    have hscope : ∀ iu ∈ result.outputIUs, iu.id ∈ result.root.outputIUs.map IU.id := by
      rw [hius]
      intro iu hiu
      obtain ⟨p, hp, rfl⟩ := List.mem_map.mp hiu
      obtain ⟨ref, -, a, ha, hid⟩ := forall₂_mem_left houtputs hp
      apply (hplanned.outputs hclass (joinBase_joinOrder _ ▸ hjoin) _).mpr
      exact ⟨a, (joinOrder_perm _).mem_iff.mpr ha, hid⟩
    have hiff := @compileStmt_ok_iff alloc catalog self stmt heap ctx₁ hbase result hplan
    rw [h.conjuncts_iff hwritable hclass hjoin hplanned, hlen] at hiff
    constructor
    · rintro ⟨⟨result', ctx'⟩, hrun⟩
      obtain ⟨result₂, ctx₂, hplan₂, hrest⟩ := run_bind_ok hrun
      rw [hplan] at hplan₂
      cases hplan₂
      obtain ⟨⟨⟩, ctx₃, -, hpure⟩ := run_bind_ok hrest
      cases hpure
      obtain ⟨hconjs, hwidth, -⟩ := hiff.mp ⟨_, hrun⟩
      exact ⟨fun _ => hwidth, hconjs⟩
    · rintro ⟨hwidth, hconjs⟩
      obtain ⟨ctx', hrun⟩ := hiff.mpr ⟨hconjs, hwidth hjoin, hscope⟩
      exact ⟨_, hrun⟩
  · obtain ⟨-, -, -, hprogram, -⟩ := plan_spec hplan
    have hprogram' : ctx₁.program = queryProgram := hprogram
    rw [compileStmt_of_plan hplan, hplanned.sameSide_iff (joinBase_joinOrder _ ▸ hjoin) hclass
      (print_emits self result.outputIUs) (hprogram' ▸ queryProgram_valid)
      (hprogram' ▸ queryProgram_open), h.filters_iff hwritable hclass (joinOrder_perm _)]
    constructor
    · intro hfilters
      exact ⟨fun hj => absurd hj hjoin, fun c hc => ⟨hfilters c hc, h.keys_found hwritable hclass hc,
        fun hj => absurd hj hjoin, fun hj => absurd hj hjoin⟩⟩
    · rintro ⟨-, hconjs⟩ c hc
      exact (hconjs c hc).filter

/-- A statement whose tables exist is compiled if and only if its names are found where the planner
looks for them and its output is not too wide. -/
theorem compileStmt_accepts_iff (hentries : stmt.entries catalog = .ok entries)
    (hwritable : stmt.Writable) :
    (∃ r, compileStmt alloc catalog self stmt (initialContext heap) = .ok r) ↔
      stmt.Accepted entries.scanned := by
  have haliases : entries.scanned.map Prod.fst = stmt.fromList.map TableRef.aliasName :=
    (scanned_aliases entries).trans (entries_aliases hentries)
  have hlookup : ∀ ref ∈ stmt.fromList, ∃ table, catalog.lookup ref.tableName = .ok table := by
    intro ref href
    obtain ⟨x, -, -, hx⟩ := forall₂_mem_left (entries_forall₂ hentries) href
    exact ⟨x.2, hx⟩
  obtain ⟨scans, ctx₁, hscans⟩ := createScans_ok hlookup [] (initialContext heap)
  have h := fromScans_of_created hscans hentries hwritable
  have hplan_iff := @plan_ok_iff alloc catalog stmt scans (initialContext heap) ctx₁
    hwritable.fromList hscans
  rw [← haliases, h.resolveSelectList_iff hwritable] at hplan_iff
  have hparts : ∀ {result : PlanResult} {ctx₂ : CompilationContext},
      plan alloc catalog stmt (initialContext heap) = .ok (result, ctx₂) →
      ((∃ r, compileStmt alloc catalog self stmt (initialContext heap) = .ok r) ↔
        (entries.scanned.Joinable → (stmt.outputColumns entries.scanned).length ≤ 8) ∧
          ∀ c ∈ stmt.conjuncts, c.Compiles entries.scanned) := by
    intro result ctx₂ hplan
    obtain ⟨scans', cs, hof, -⟩ := plan_spec hplan
    obtain ⟨ctx₃, hscans', -⟩ := hof.created
    rw [hscans] at hscans'
    cases hscans'
    exact h.plan_compiles_iff hwritable haliases hof hplan
  constructor
  · rintro ⟨⟨result, ctx'⟩, hrun⟩
    obtain ⟨result', ctx₂, hplan, -⟩ := run_bind_ok hrun
    obtain ⟨hwidth, hconjs⟩ := (hparts hplan).mp ⟨_, hrun⟩
    exact ⟨(hplan_iff.mp ⟨_, hplan⟩).2, hwidth, hconjs⟩
  · intro haccepted
    have hclass : ∃ cs, classify scans (entries.scanned.map Prod.fst) stmt.whereExpr = .ok cs := by
      apply classify_ok_iff.mpr
      intro c hc hkey ref href
      apply (h.resolves_iff (conjunct_noSpace hwritable hc href)).mpr
      exact (haccepted.conjuncts c hc).key hkey ref href
    obtain ⟨⟨result, ctx₂⟩, hplan⟩ := hplan_iff.mpr ⟨hclass, haccepted.items⟩
    exact (hparts hplan).mpr ⟨haccepted.width, haccepted.conjuncts⟩

end

end Proofs

end TidyTuples
