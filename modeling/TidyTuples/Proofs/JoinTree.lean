import TidyTuples.Proofs.Planning

/-!
# The join tree

The rows of a tree over the scans of some aliases are those of the product of the scans that
satisfy every conjunct about these aliases alone. Each join adds one alias and the keys between it
and the tree so far.
-/

namespace TidyTuples.Proofs

open QueryPlanner Tuples

/-! ### Columns of a scan -/

lemma suffix_dot_iff {t c n : List Char} (hc : '.' ∉ c) (hn : '.' ∉ n) :
    '.' :: c <:+ t ++ '.' :: n ↔ c = n := by
  constructor
  · intro h
    have hboth := List.suffix_or_suffix_of_suffix h (List.suffix_append t ('.' :: n))
    rcases hboth with hcn | hnc
    · rcases List.suffix_cons_iff.mp hcn with heq | hmem
      · exact (List.cons.inj heq).2
      · exact absurd (hmem.subset List.mem_cons_self) hn
    · rcases List.suffix_cons_iff.mp hnc with heq | hmem
      · exact (List.cons.inj heq).2.symm
      · exact absurd (hmem.subset List.mem_cons_self) hc
  · rintro rfl
    exact List.suffix_append t _

section

variable {scan : ScanTranslator} {colName : String} {iu : IU}

lemma mem_colIUs : iu ∈ scan.colIUs ↔ ∃ i col, scan.table.columns[i]? = some col ∧
    iu = ⟨scan.table.name ++ "." ++ col.name, col.type, scan.firstIU + i⟩ := by
  unfold ScanTranslator.colIUs
  rw [List.mem_iff_getElem?]
  constructor
  · rintro ⟨i, hi⟩
    rw [List.getElem?_mapIdx] at hi
    obtain ⟨col, hcol, heq⟩ := Option.map_eq_some_iff.mp hi
    exact ⟨i, col, hcol, heq.symm⟩
  · rintro ⟨i, col, hcol, rfl⟩
    exact ⟨i, by rw [List.getElem?_mapIdx, hcol]; rfl⟩

lemma colIUs_id_iff {id : Nat} : id ∈ scan.colIUs.map IU.id ↔ id ∈ ScanTranslator.ids scan := by
  rw [List.mem_map]
  constructor
  · rintro ⟨iu, hiu, rfl⟩
    obtain ⟨i, col, hcol, rfl⟩ := mem_colIUs.mp hiu
    have hlt := (List.getElem?_eq_some_iff.mp hcol).1
    exact ⟨Nat.le_add_right _ _, Nat.add_lt_add_left hlt _⟩
  · rintro ⟨hle, hlt⟩
    have hi : id - scan.firstIU < scan.table.columns.length := by omega
    refine ⟨_, mem_colIUs.mpr ⟨_, _, List.getElem?_eq_getElem hi, rfl⟩, ?_⟩
    dsimp only
    omega

lemma getIU_mem (h : scan.getIU colName = .ok iu) : iu ∈ scan.colIUs := by
  unfold ScanTranslator.getIU at h
  split at h
  · next hfind =>
    cases h
    exact List.mem_of_find?_eq_some hfind
  · cases h

lemma getIU_ids (h : scan.getIU colName = .ok iu) : iu.id ∈ ScanTranslator.ids scan :=
  colIUs_id_iff.mp (List.mem_map_of_mem (getIU_mem h))

lemma value_eq {table : InMemoryTable} (hwf : table.WellFormed) {col : Column}
    (hcol : col ∈ table.columns) (i : Nat) : table.value i col.name = col.values[i]? := by
  have hfind : table.columns.find? (fun c => c.name = col.name) = some col := by
    cases hf : table.columns.find? fun c => c.name = col.name with
    | none =>
      have hnone := List.find?_eq_none.mp hf col hcol
      simp at hnone
    | some c =>
      have hname : c.name = col.name := by simpa using List.find?_some hf
      rw [List.inj_on_of_nodup_map hwf.distinct (List.mem_of_find?_eq_some hf) hcol hname]
  rw [InMemoryTable.value, hfind]
  rfl

/-- An IU answers to the name of its column and to no other. -/
lemma named_iff {t c n : String} (hc : '.' ∉ c.toList) (hn : '.' ∉ n.toList) :
    ("." ++ c).toList.isSuffixOf (t ++ "." ++ n).toList = true ↔ c = n := by
  have hlist : (t ++ "." ++ n).toList = t.toList ++ '.' :: n.toList := by simp
  have hdot : ("." ++ c).toList = '.' :: c.toList := by simp
  rw [List.isSuffixOf_iff_suffix, hlist, hdot, suffix_dot_iff hc hn, String.toList_inj]

lemma getIU_value (hwf : scan.table.WellFormed) (hcol : colName ∈ scan.table.columns.map Column.name) :
    ∃ iu, scan.getIU colName = .ok iu ∧ ∀ i, scan.row i iu.id = scan.table.value i colName := by
  obtain ⟨col, hmem, rfl⟩ := List.mem_map.mp hcol
  have hdot := hwf.noDot col hmem
  unfold ScanTranslator.getIU
  cases hfind : scan.colIUs.find? fun iu => ("." ++ col.name).toList.isSuffixOf iu.name.toList with
  | none =>
    obtain ⟨i, hi⟩ := List.mem_iff_getElem?.mp hmem
    have hnone := List.find?_eq_none.mp hfind _ (mem_colIUs.mpr ⟨i, col, hi, rfl⟩)
    exact absurd ((named_iff hdot hdot).mpr rfl) hnone
  | some iu =>
    refine ⟨iu, rfl, fun i => ?_⟩
    obtain ⟨k, col', hk, rfl⟩ := mem_colIUs.mp (List.mem_of_find?_eq_some hfind)
    have hmem' := List.mem_of_getElem? hk
    have hname : col.name = col'.name := by
      have hsuffix := List.find?_some hfind
      exact (named_iff hdot (hwf.noDot col' hmem')).mp hsuffix
    have hsame := List.inj_on_of_nodup_map hwf.distinct hmem' hmem hname.symm
    rw [value_eq hwf hmem, ← hsame]
    unfold ScanTranslator.row
    rw [if_neg (by dsimp only; omega), Nat.add_sub_cancel_left, hk]
    rfl

/-- Every column has a value in every row. -/
lemma row_isSome (hfull : ∀ col ∈ scan.table.columns, col.values.length = scan.table.numRows)
    {i : Nat} (hi : i < scan.table.numRows) {id : Nat}
    (hid : id ∈ ScanTranslator.ids scan) : (scan.row i id).isSome := by
  obtain ⟨hle, hlt⟩ := hid
  have hk : id - scan.firstIU < scan.table.columns.length := by omega
  have hlen := hfull _ (List.getElem_mem hk)
  unfold ScanTranslator.row
  rw [if_neg (by omega), List.getElem?_eq_getElem hk, Option.bind_some,
    List.getElem?_eq_getElem (by omega)]
  rfl

lemma row_outside {i id : Nat} (hid : id ∉ ScanTranslator.ids scan) : scan.row i id = none := by
  unfold ScanTranslator.row
  split_ifs with hlt
  · rfl
  · have hge : scan.table.columns.length ≤ id - scan.firstIU := by
      by_contra hlt'
      exact hid ⟨by omega, by omega⟩
    rw [List.getElem?_eq_none hge]
    rfl

end

/-! ### Bags of rows -/

def bagOf (scans : Scans) (a : String) : Multiset Row :=
  match scans.lookup a with
  | some s => ↑(Operator.scan s).rows
  | none => 0

def idsOf (scans : Scans) (a : String) : Set Nat :=
  match scans.lookup a with
  | some s => ScanTranslator.ids s
  | none => ∅

/-- The attributes of the product of some scans. -/
def idsOfAll (scans : Scans) (done : List String) : Set Nat := {id | ∃ a ∈ done, id ∈ idsOf scans a}

section

variable {scans : Scans} {ctx : CompilationContext} {conjs : List Expr} {done : List String}

lemma bagOf_supported (scans : Scans) (a : String) : Supported (bagOf scans a) (idsOf scans a) := by
  unfold bagOf idsOf
  cases scans.lookup a with
  | none =>
    intro t ht
    cases ht
  | some s =>
    intro t ht id hid
    obtain ⟨i, -, rfl⟩ := List.mem_map.mp (Multiset.mem_coe.mp ht)
    exact row_outside hid

lemma bagOf_isSome {a : String} (hfull : ∀ s, scans.lookup a = some s →
      ∀ col ∈ s.table.columns, col.values.length = s.table.numRows) {t : Row}
    (ht : t ∈ bagOf scans a) {id : Nat} (hid : id ∈ idsOf scans a) : (t id).isSome := by
  unfold bagOf at ht
  unfold idsOf at hid
  cases hs : scans.lookup a with
  | none =>
    rw [hs] at ht
    cases ht
  | some s =>
    rw [hs] at ht hid
    obtain ⟨i, hi, rfl⟩ := List.mem_map.mp (Multiset.mem_coe.mp ht)
    exact row_isSome (hfull s hs) (List.mem_range.mp hi) hid

lemma idsOf_disjoint (h : ScansApart ctx scans) {a b : String} (hab : a ≠ b) :
    Disjoint (idsOf scans a) (idsOf scans b) := by
  unfold idsOf
  cases ha : scans.lookup a with
  | none => exact Set.empty_disjoint _
  | some s =>
    cases hb : scans.lookup b with
    | none => exact Set.disjoint_empty _
    | some t => exact (h.apart a b s t ha hb hab).2

lemma idsOfAll_disjoint (h : ScansApart ctx scans) {n : String} (hn : n ∉ done) :
    Disjoint (idsOf scans n) (idsOfAll scans done) := by
  apply Set.disjoint_left.mpr
  rintro id hid ⟨a, ha, hid'⟩
  have hne : n ≠ a := fun heq => hn (heq ▸ ha)
  exact Set.disjoint_left.mp (idsOf_disjoint h hne) hid hid'

lemma prodAll_idsOfAll (scans : Scans) (done : List String) :
    Supported (prodAll (done.map (bagOf scans))) (idsOfAll scans done) :=
  prodAll_supported fun a _ => bagOf_supported scans a

lemma resolveColumn_ids {ref : ColumnRef} (h : ref.tableAlias ≠ "") {iu : IU}
    (hiu : resolveColumn scans ref = .ok iu) : iu.id ∈ idsOf scans ref.tableAlias := by
  obtain ⟨s, hs, hget⟩ := (resolveColumn_iff h).mp hiu
  unfold idsOf
  rw [hs]
  exact getIU_ids hget

/-! ### Conjuncts over the tree so far -/

/-- The conjunct holds on the row. -/
def satisfies (scans : Scans) (t : Row) (c : Expr) : Bool := c.holdsIn (t.env (resolveColumn scans))

/-- Every column of the conjunct is qualified. -/
def AllQualified (c : Expr) : Prop := ∀ ref ∈ c.columns, ref.tableAlias ≠ ""

/-- A filter or key about the aliases that the tree has. -/
def Covered (done : List String) (c : Expr) : Prop :=
  ((conjunctAliases c).length = 1 ∨ (keyColumns c).isSome) ∧ ∀ a ∈ conjunctAliases c, a ∈ done

instance (done : List String) (c : Expr) : Decidable (Covered done c) :=
  inferInstanceAs (Decidable (_ ∧ _))

/-- All conjuncts about the tree's aliases hold. -/
def keeps (scans : Scans) (conjs : List Expr) (done : List String) (t : Row) : Bool :=
  conjs.all fun c => !decide (Covered done c) || satisfies scans t c

lemma keeps_iff {t : Row} : keeps scans conjs done t = true ↔
    ∀ c ∈ conjs, Covered done c → satisfies scans t c = true := by
  unfold keeps
  rw [List.all_eq_true]
  apply forall₂_congr
  intro c _
  by_cases h : Covered done c <;> simp [h]

/-- A conjunct looks at the columns that it resolves to. -/
lemma satisfies_localTo {c : Expr} {A : Set Nat}
    (h : ∀ ref ∈ c.columns, ∀ iu, resolveColumn scans ref = .ok iu → iu.id ∈ A) :
    LocalTo (fun t => satisfies scans t c) A := by
  intro a b hab
  apply holdsIn_congr
  intro ref href
  unfold Row.env
  cases hres : resolveColumn scans ref with
  | error e => rfl
  | ok iu => exact hab _ (h ref href iu hres)

/-- A conjunct looks at the columns of its aliases only. -/
lemma satisfies_local {c : Expr} (hq : AllQualified c) (hdone : ∀ a ∈ conjunctAliases c, a ∈ done) :
    LocalTo (fun t => satisfies scans t c) (idsOfAll scans done) := by
  apply satisfies_localTo
  intro ref href iu hres
  have hne := hq ref href
  exact ⟨_, hdone _ (mem_conjunctAliases.mpr ⟨hne, ref, href, rfl⟩), resolveColumn_ids hne hres⟩

lemma keeps_local (hq : ∀ c ∈ conjs, AllQualified c) :
    LocalTo (keeps scans conjs done) (idsOfAll scans done) := by
  intro a b hab
  rw [Bool.eq_iff_iff, keeps_iff, keeps_iff]
  apply forall₂_congr
  intro c hc
  apply imp_congr_right
  intro hcov
  apply Bool.eq_iff_iff.mp
  exact satisfies_local (hq c hc) hcov.2 a b hab

/-! ### One join -/

/-- A join is the product of its inputs, restricted to equal keys. -/
lemma join_rows {id : Nat} {build probe : Operator} {bks pks : List IU} {ht : Word} {A B : Set Nat}
    (hb : Supported (build.rows : Multiset Row) A) (hp : Supported (probe.rows : Multiset Row) B)
    (hAB : Disjoint A B) (hbk : ∀ iu ∈ bks, iu.id ∈ A) (hpk : ∀ iu ∈ pks, iu.id ∈ B) :
    ((Operator.hashJoin id build probe bks pks ht).rows : Multiset Row) =
      (prod (build.rows : Multiset Row) probe.rows).filter fun t =>
        Row.values t bks = Row.values t pks := by
  have hrow : ∀ p ∈ probe.rows, (build.rows.filter fun b => b.values bks = p.values pks).map
      (fun b => b.merge p) = (build.rows.map fun b => b.merge p).filter fun t =>
        t.values bks = t.values pks := by
    intro p hpmem
    rw [List.filter_map]
    apply congrArg (List.map fun b : Row => b.merge p)
    apply List.filter_congr
    intro b hbmem
    have hbvals : (b.merge p).values bks = b.values bks := by
      apply List.map_congr_left
      intro iu hiu
      exact merge_left (hp p hpmem iu.id (Set.disjoint_left.mp hAB (hbk iu hiu)))
    have hpvals : (b.merge p).values pks = p.values pks := by
      apply List.map_congr_left
      intro iu hiu
      exact merge_right (hb b hbmem iu.id (Set.disjoint_right.mp hAB (hpk iu hiu)))
    rw [Function.comp_apply, hbvals, hpvals]
  have hlist : (Operator.hashJoin id build probe bks pks ht).rows =
      (probe.rows.flatMap fun p => build.rows.map fun b => b.merge p).filter fun t =>
        t.values bks = t.values pks := by
    rw [List.filter_flatMap]
    apply List.flatMap_congr
    exact hrow
  have hprod : ((probe.rows.flatMap fun p => build.rows.map fun b => b.merge p : List Row) :
      Multiset Row) = prod (build.rows : Multiset Row) probe.rows := by
    unfold prod
    rw [Multiset.bind_map_comm]
    exact (Multiset.coe_bind _ _).symm
  rw [hlist, ← hprod]
  exact (Multiset.filter_coe _ _).symm

/-- The tree computes the product of the scans of `done` under the conjuncts about them. -/
structure TreeOf (scans : Scans) (conjs : List Expr) (done : List String) (root : Operator) :
    Prop where
  rows : (root.rows : Multiset Row) =
    (prodAll (done.map (bagOf scans))).filter fun t => keeps scans conjs done t = true
  outputs : ∀ id, id ∈ root.outputIUs.map IU.id ↔ id ∈ idsOfAll scans done

lemma TreeOf.supported {root : Operator} (h : TreeOf scans conjs done root) :
    Supported (root.rows : Multiset Row) (idsOfAll scans done) := by
  rw [h.rows]
  exact supported_filter (prodAll_idsOfAll scans done) _

/-- A key between a new alias and the tree so far. -/
def KeyBetween (n : String) (done : List String) (c : Expr) : Prop :=
  (keyColumns c).isSome ∧ n ∈ conjunctAliases c ∧ ∀ a ∈ conjunctAliases c, a ∈ n :: done

lemma covered_cons_iff {n : String} {c : Expr} : Covered (n :: done) c ↔
    Covered [n] c ∨ Covered done c ∨ KeyBetween n done c := by
  constructor
  · rintro ⟨hkind, hall⟩
    by_cases hn : n ∈ conjunctAliases c
    · rcases hkind with hone | hkey
      · obtain ⟨a, ha⟩ := List.length_eq_one_iff.mp hone
        have hna : n = a := by simpa [ha] using hn
        exact .inl ⟨.inl hone, fun b hb => by simpa [ha, hna] using hb⟩
      · exact .inr (.inr ⟨hkey, hn, hall⟩)
    · refine .inr (.inl ⟨hkind, fun a ha => (List.mem_cons.mp (hall a ha)).resolve_left ?_⟩)
      rintro rfl
      exact hn ha
  · rintro (⟨hkind, hall⟩ | ⟨hkind, hall⟩ | ⟨hkey, -, hall⟩)
    · exact ⟨hkind, fun a ha => by simp [List.mem_singleton.mp (hall a ha)]⟩
    · exact ⟨hkind, fun a ha => List.mem_cons_of_mem n (hall a ha)⟩
    · exact ⟨.inr hkey, hall⟩

lemma outputs_join {id : Nat} {build probe : Operator} {bks pks : List IU} {ht : Word}
    (hbk : ∀ iu ∈ bks, iu.id ∈ build.outputIUs.map IU.id) (i : Nat) :
    i ∈ (Operator.hashJoin id build probe bks pks ht).outputIUs.map IU.id ↔
      i ∈ build.outputIUs.map IU.id ∨ i ∈ probe.outputIUs.map IU.id := by
  simp only [Operator.outputIUs, List.map_append, List.mem_append, Operator.payloadIUs]
  constructor
  · rintro ((hprobe | hkey) | hpayload)
    · exact .inr hprobe
    · obtain ⟨iu, hiu, rfl⟩ := List.mem_map.mp hkey
      exact .inl (hbk iu hiu)
    · obtain ⟨iu, hiu, rfl⟩ := List.mem_map.mp hpayload
      exact .inl (List.mem_map_of_mem (List.mem_of_mem_filter hiu))
  · rintro (hbuild | hprobe)
    · obtain ⟨iu, hiu, rfl⟩ := List.mem_map.mp hbuild
      by_cases hkey : iu ∈ bks
      · exact .inl (.inr (List.mem_map_of_mem hkey))
      · refine .inr (List.mem_map_of_mem (List.mem_filter.mpr ⟨hiu, ?_⟩))
        simpa using hkey
    · exact .inl (.inl hprobe)

/-- One more join under the keys between the new alias and the tree. -/
lemma TreeOf.join {n : String} {id : Nat} {build probe : Operator} {bks pks : List IU} {ht : Word}
    (hapart : ScansApart ctx scans) (hq : ∀ c ∈ conjs, AllQualified c) (hn : n ∉ done)
    (hb : TreeOf scans conjs [n] build) (hp : TreeOf scans conjs done probe)
    (hbk : ∀ iu ∈ bks, iu.id ∈ build.outputIUs.map IU.id)
    (hpk : ∀ iu ∈ pks, iu.id ∈ probe.outputIUs.map IU.id)
    (hkeys : ∀ t ∈ prodAll ((n :: done).map (bagOf scans)), Row.values t bks = Row.values t pks ↔
      ∀ c ∈ conjs, KeyBetween n done c → satisfies scans t c = true) :
    TreeOf scans conjs (n :: done) (.hashJoin id build probe bks pks ht) := by
  have hone : idsOfAll scans [n] = idsOf scans n := by
    ext i
    simp [idsOfAll]
  have hdisj : Disjoint (idsOfAll scans [n]) (idsOfAll scans done) := by
    rw [hone]
    exact idsOfAll_disjoint hapart hn
  constructor
  · rw [join_rows hb.supported hp.supported hdisj (fun iu hiu => (hb.outputs _).mp (hbk iu hiu))
      (fun iu hiu => (hp.outputs _).mp (hpk iu hiu)), hb.rows, hp.rows]
    rw [prod_filter (keeps_local hq) (keeps_local hq) (prodAll_idsOfAll scans [n])
      (prodAll_idsOfAll scans done) hdisj, List.map_singleton, prodAll_singleton,
      Multiset.filter_filter, List.map_cons, prodAll]
    apply Multiset.filter_congr
    intro t ht
    rw [hkeys t (by rwa [List.map_cons, prodAll]), Bool.and_eq_true, keeps_iff, keeps_iff, keeps_iff]
    constructor
    · rintro ⟨hkey, hnew, hold⟩ c hc hcov
      rcases covered_cons_iff.mp hcov with h | h | h
      · exact hnew c hc h
      · exact hold c hc h
      · exact hkey c hc h
    · intro h
      exact ⟨fun c hc hk => h c hc (covered_cons_iff.mpr (.inr (.inr hk))),
        fun c hc hk => h c hc (covered_cons_iff.mpr (.inl hk)),
        fun c hc hk => h c hc (covered_cons_iff.mpr (.inr (.inl hk)))⟩
  · intro i
    rw [outputs_join hbk, hb.outputs, hp.outputs, hone]
    simp [idsOfAll]

/-! ### Scans under their filters -/

/-- What `planScan` makes of an alias. -/
inductive ScanUnder (scans : Scans) (cs : Conjuncts) (a : String) : Operator → Prop
  | bare {s : ScanTranslator} : scans.lookup a = some s → cs.filterConjuncts a = [] →
      ScanUnder scans cs a (.scan s)
  | filtered {s : ScanTranslator} {id : Nat} : scans.lookup a = some s →
      cs.filterConjuncts a ≠ [] →
      ScanUnder scans cs a (.select id (.scan s) (predicateOf scans (cs.filterConjuncts a)))

variable {cs : Conjuncts}

lemma keyColumns_length {c : Expr} (h : (keyColumns c).isSome) : (conjunctAliases c).length = 2 := by
  unfold keyColumns at h
  split_ifs at h with hlen
  · exact hlen
  · cases h

lemma covered_singleton {a : String} {c : Expr} : Covered [a] c ↔ conjunctAliases c = [a] := by
  constructor
  · rintro ⟨hone | hkey, hall⟩
    · obtain ⟨b, hb⟩ := List.length_eq_one_iff.mp hone
      have hba : b = a := by simpa [hb] using hall
      rw [hb, hba]
    · obtain ⟨b, b', hb⟩ := List.length_eq_two.mp (keyColumns_length hkey)
      have hnodup : (conjunctAliases c).Nodup := collectAliases_nodup List.nodup_nil
      have hsame : b = a ∧ b' = a := by simpa [hb] using hall
      rw [hb, hsame.1, hsame.2] at hnodup
      simp at hnodup
  · intro h
    exact ⟨.inl (by rw [h]; rfl), fun b hb => h ▸ hb⟩

lemma keeps_singleton (hclass : Classified scans conjs cs) (a : String) (t : Row) :
    keeps scans conjs [a] t = (cs.filterConjuncts a).all (satisfies scans t) := by
  rw [Bool.eq_iff_iff, keeps_iff, List.all_eq_true, hclass.filters]
  constructor
  · intro h c hc
    have hc' := List.mem_filter.mp hc
    exact h c hc'.1 (covered_singleton.mpr (of_decide_eq_true hc'.2))
  · intro h c hc hcov
    exact h c (List.mem_filter.mpr ⟨hc, decide_eq_true (covered_singleton.mp hcov)⟩)

lemma ScanUnder.tree {a : String} {op : Operator} (h : ScanUnder scans cs a op)
    (hclass : Classified scans conjs cs) : TreeOf scans conjs [a] op := by
  have hids : ∀ {s : ScanTranslator}, scans.lookup a = some s → ∀ id,
      id ∈ s.colIUs.map IU.id ↔ id ∈ idsOfAll scans [a] := by
    intro s hs id
    rw [colIUs_id_iff]
    simp [idsOfAll, idsOf, hs]
  have hbag : ∀ {s : ScanTranslator}, scans.lookup a = some s →
      prodAll ([a].map (bagOf scans)) = ((Operator.scan s).rows : Multiset Row) := by
    intro s hs
    rw [List.map_singleton, prodAll_singleton, bagOf, hs]
  cases h with
  | bare hs hnone =>
    refine ⟨?_, hids hs⟩
    rw [hbag hs]
    apply Eq.symm
    apply Multiset.filter_eq_self.mpr
    intro t _
    rw [keeps_singleton hclass, hnone]
    rfl
  | @filtered s id hs hsome =>
    refine ⟨?_, hids hs⟩
    have hfilter : (Operator.scan s).rows.filter (predicateOf scans (cs.filterConjuncts a)).holds =
        (Operator.scan s).rows.filter fun t => keeps scans conjs [a] t := by
      apply List.filter_congr
      intro t _
      rw [predicate_holds hsome, keeps_singleton hclass]
      rfl
    rw [hbag hs, Multiset.filter_coe]
    simp only [Bool.decide_eq_true]
    exact congrArg _ hfilter

/-! ### The keys of a join -/

/-- The conjunct equates column `x` of the alias with column `y` of another one. -/
def Equates (scans : Scans) (c : Expr) (n : String) (x y : IU) : Prop :=
  ∃ l r, keyColumns c = some (l, r) ∧
    (l.tableAlias = n ∧ resolveColumn scans l = .ok x ∧ resolveColumn scans r = .ok y ∨
      r.tableAlias = n ∧ resolveColumn scans r = .ok x ∧ resolveColumn scans l = .ok y)

lemma holdsIn_eq_iff {env : Env} {l r : ColumnRef} :
    (Expr.binOp .eq (.colRef l) (.colRef r)).holdsIn env = true ↔
      ∃ w, env l = some w ∧ env r = some w := by
  unfold Expr.holdsIn
  simp only [Expr.evalIn]
  cases env l with
  | none => simp
  | some a =>
    cases env r with
    | none => simp
    | some b =>
      change (BinOpKind.eval .eq a b != 0) = true ↔ _
      rw [BinOpKind.eval, wordOfBool_ne_zero, beq_iff_eq]
      constructor
      · rintro rfl
        exact ⟨a, rfl, rfl⟩
      · rintro ⟨w, ⟨⟩, ⟨⟩⟩
        rfl

lemma env_of_resolves {ref : ColumnRef} {iu : IU} (h : resolveColumn scans ref = .ok iu) (t : Row) :
    t.env (resolveColumn scans) ref = t iu.id := by
  unfold Row.env
  rw [h]

lemma Equates.satisfies_iff {c : Expr} {n : String} {x y : IU} (h : Equates scans c n x y) {t : Row} :
    satisfies scans t c = true ↔ ∃ w, t x.id = some w ∧ t y.id = some w := by
  obtain ⟨l, r, hkey, hside⟩ := h
  obtain ⟨rfl, -⟩ := keyColumns_iff.mp hkey
  rw [satisfies, holdsIn_eq_iff]
  rcases hside with ⟨-, hl, hr⟩ | ⟨-, hr, hl⟩
  · rw [env_of_resolves hl, env_of_resolves hr]
  · rw [env_of_resolves hl, env_of_resolves hr]
    exact exists_congr fun w => and_comm

lemma mem_laterJoinKeys {jks : List JoinKey} {n : String} {p : IU × IU} :
    p ∈ laterJoinKeys jks n ↔ ∃ jk ∈ jks, (jk.buildAlias = n ∧ p = (jk.buildIU, jk.probeIU)) ∨
      (jk.buildAlias ≠ n ∧ jk.probeAlias = n ∧ p = (jk.probeIU, jk.buildIU)) := by
  unfold laterJoinKeys
  rw [List.mem_filterMap]
  apply exists_congr
  intro jk
  apply and_congr_right
  intro _
  split_ifs with hb hp
  · simp [hb, eq_comm]
  · simp [hb, hp, eq_comm]
  · simp [hb, hp]

lemma keyOf_equates {c : Expr} {l r : ColumnRef} {jk : JoinKey} (hkey : keyColumns c = some (l, r))
    (hof : KeyOf scans l r jk) : Equates scans c jk.buildAlias jk.buildIU jk.probeIU ∧
      Equates scans c jk.probeAlias jk.probeIU jk.buildIU := by
  obtain ⟨lIU, rIU, hl, hr, rfl | rfl⟩ := hof
  · exact ⟨⟨l, r, hkey, .inl ⟨rfl, hl, hr⟩⟩, l, r, hkey, .inr ⟨rfl, hr, hl⟩⟩
  · exact ⟨⟨l, r, hkey, .inr ⟨rfl, hr, hl⟩⟩, l, r, hkey, .inl ⟨rfl, hl, hr⟩⟩

lemma laterJoinKeys_sound (hclass : Classified scans conjs cs) {n : String} {p : IU × IU}
    (h : p ∈ laterJoinKeys cs.joinKeys n) : ∃ c ∈ conjs, Equates scans c n p.1 p.2 := by
  obtain ⟨jk, hjk, hside⟩ := mem_laterJoinKeys.mp h
  obtain ⟨c, hc, l, r, hkey, hof⟩ := hclass.sound hjk
  have heq := keyOf_equates hkey hof
  refine ⟨c, hc, ?_⟩
  rcases hside with ⟨rfl, rfl⟩ | ⟨-, rfl, rfl⟩
  · exact heq.1
  · exact heq.2

lemma mem_aliases_of_key {c : Expr} {l r : ColumnRef} (h : keyColumns c = some (l, r)) {a : String} :
    a ∈ conjunctAliases c ↔ a = l.tableAlias ∨ a = r.tableAlias := by
  obtain ⟨rfl, hl, hr, -⟩ := keyColumns_iff.mp h
  rw [mem_conjunctAliases]
  simp only [Expr.columns, List.singleton_append, List.mem_cons, List.not_mem_nil, or_false,
    exists_eq_or_imp, exists_eq_left]
  constructor
  · rintro ⟨-, rfl | rfl⟩
    · exact .inl rfl
    · exact .inr rfl
  · rintro (rfl | rfl)
    · exact ⟨hl, .inl rfl⟩
    · exact ⟨hr, .inr rfl⟩

lemma laterJoinKeys_complete (hclass : Classified scans conjs cs) {c : Expr} (hc : c ∈ conjs)
    (hkey : (keyColumns c).isSome) {n : String} (hn : n ∈ conjunctAliases c) :
    ∃ p ∈ laterJoinKeys cs.joinKeys n, Equates scans c n p.1 p.2 := by
  obtain ⟨⟨l, r⟩, hlr⟩ := Option.isSome_iff_exists.mp hkey
  obtain ⟨jk, hjk, hof⟩ := hclass.complete hc hlr
  have heq := keyOf_equates hlr hof
  have halias : n = jk.buildAlias ∨ n = jk.probeAlias := by
    obtain ⟨lIU, rIU, -, -, rfl | rfl⟩ := hof
    · exact (mem_aliases_of_key hlr).mp hn
    · exact ((mem_aliases_of_key hlr).mp hn).symm
  by_cases hb : jk.buildAlias = n
  · exact ⟨_, mem_laterJoinKeys.mpr ⟨jk, hjk, .inl ⟨hb, rfl⟩⟩, hb ▸ heq.1⟩
  · have hp : jk.probeAlias = n := (halias.resolve_left (Ne.symm hb)).symm
    exact ⟨_, mem_laterJoinKeys.mpr ⟨jk, hjk, .inr ⟨hb, hp, rfl⟩⟩, hp ▸ heq.2⟩

lemma Equates.otherAlias {c : Expr} {n : String} {x y : IU} (h : Equates scans c n x y) :
    x.id ∈ idsOf scans n ∧ (keyColumns c).isSome ∧ ∃ b, b ≠ n ∧ y.id ∈ idsOf scans b ∧
      ∀ a, a ∈ conjunctAliases c ↔ a = n ∨ a = b := by
  obtain ⟨l, r, hkey, hside⟩ := h
  obtain ⟨-, hl, hr, hne⟩ := keyColumns_iff.mp hkey
  rcases hside with ⟨rfl, hx, hy⟩ | ⟨rfl, hx, hy⟩
  · exact ⟨resolveColumn_ids hl hx, by rw [hkey]; rfl, r.tableAlias, hne.symm,
      resolveColumn_ids hr hy, fun a => mem_aliases_of_key hkey⟩
  · exact ⟨resolveColumn_ids hr hx, by rw [hkey]; rfl, l.tableAlias, hne,
      resolveColumn_ids hl hy, fun a => (mem_aliases_of_key hkey).trans or_comm⟩

/-- A key is between the new alias and the tree when its other column is in the tree. -/
lemma Equates.between (hapart : ScansApart ctx scans) {c : Expr} {n : String} {x y : IU}
    (h : Equates scans c n x y) : KeyBetween n done c ↔ y.id ∈ idsOfAll scans done := by
  obtain ⟨-, hkey, b, hb, hy, haliases⟩ := h.otherAlias
  constructor
  · rintro ⟨-, -, hall⟩
    have hmem := hall b ((haliases b).mpr (.inr rfl))
    exact ⟨b, (List.mem_cons.mp hmem).resolve_left hb, hy⟩
  · rintro ⟨a, ha, hya⟩
    have hab : a = b := by
      by_contra hne
      exact Set.disjoint_left.mp (idsOf_disjoint hapart hne) hya hy
    refine ⟨hkey, (haliases n).mpr (.inl rfl), fun a' ha' => ?_⟩
    rcases (haliases a').mp ha' with rfl | rfl
    · exact List.mem_cons_self
    · exact List.mem_cons_of_mem n (hab ▸ ha)

lemma prodAll_isSome (hwf : ∀ a s, scans.lookup a = some s → s.table.WellFormed) {a : String}
    (ha : a ∈ done) {t : Row} (ht : t ∈ prodAll (done.map (bagOf scans))) {id : Nat}
    (hid : id ∈ idsOf scans a) : (t id).isSome := by
  induction done generalizing t with
  | nil => cases ha
  | cons b done ih =>
    obtain ⟨u, hu, ht⟩ := Multiset.mem_bind.mp ht
    obtain ⟨v, hv, rfl⟩ := Multiset.mem_map.mp ht
    rw [merge, Option.isSome_or, Bool.or_eq_true]
    rcases List.mem_cons.mp ha with rfl | ha
    · exact .inl (bagOf_isSome (fun s hs => (hwf a s hs).full) hu hid)
    · exact .inr (ih ha hv)

/-- The key columns of the joined rows are equal where the conjuncts behind the keys hold. -/
lemma keys_iff (hwf : ∀ a s, scans.lookup a = some s → s.table.WellFormed) {n : String}
    {keys : List (IU × IU)}
    (hsound : ∀ p ∈ keys, ∃ c ∈ conjs, KeyBetween n done c ∧ Equates scans c n p.1 p.2)
    (hcomplete : ∀ c ∈ conjs, KeyBetween n done c → ∃ p ∈ keys, Equates scans c n p.1 p.2)
    (t : Row) (ht : t ∈ prodAll ((n :: done).map (bagOf scans))) :
    Row.values t (keys.map Prod.fst) = Row.values t (keys.map Prod.snd) ↔
      ∀ c ∈ conjs, KeyBetween n done c → satisfies scans t c = true := by
  have hvalues : Row.values t (keys.map Prod.fst) = Row.values t (keys.map Prod.snd) ↔
      ∀ p ∈ keys, t p.1.id = t p.2.id := by
    unfold Row.values
    rw [List.map_map, List.map_map]
    exact List.map_inj_left
  rw [hvalues]
  constructor
  · intro h c hc hbetween
    obtain ⟨p, hp, heq⟩ := hcomplete c hc hbetween
    obtain ⟨w, hw⟩ := Option.isSome_iff_exists.mp
      (prodAll_isSome hwf List.mem_cons_self ht heq.otherAlias.1)
    exact heq.satisfies_iff.mpr ⟨w, hw, (h p hp).symm.trans hw⟩
  · intro h p hp
    obtain ⟨c, hc, hbetween, heq⟩ := hsound p hp
    obtain ⟨w, hx, hy⟩ := heq.satisfies_iff.mp (h c hc hbetween)
    rw [hx, hy]

/-- The keys of a later join, when they are in scope. -/
lemma later_keys_iff (hclass : Classified scans conjs cs) (hapart : ScansApart ctx scans)
    (hwf : ∀ a s, scans.lookup a = some s → s.table.WellFormed) {n : String}
    (hscope : ∀ p ∈ laterJoinKeys cs.joinKeys n, p.2.id ∈ idsOfAll scans done)
    (t : Row) (ht : t ∈ prodAll ((n :: done).map (bagOf scans))) :
    Row.values t ((laterJoinKeys cs.joinKeys n).map Prod.fst) =
        Row.values t ((laterJoinKeys cs.joinKeys n).map Prod.snd) ↔
      ∀ c ∈ conjs, KeyBetween n done c → satisfies scans t c = true := by
  apply keys_iff hwf _ _ t ht
  · intro p hp
    obtain ⟨c, hc, heq⟩ := laterJoinKeys_sound hclass hp
    exact ⟨c, hc, (heq.between hapart).mpr (hscope p hp), heq⟩
  · rintro c hc ⟨hkey, hn, -⟩
    exact laterJoinKeys_complete hclass hc hkey hn

lemma mem_firstJoinKeys {jks : List JoinKey} {f n : String} (hfn : f ≠ n) {p : IU × IU} :
    p ∈ firstJoinKeys jks f n ↔ ∃ jk ∈ jks,
      (jk.buildAlias = f ∧ jk.probeAlias = n ∧ p = (jk.buildIU, jk.probeIU)) ∨
      (jk.probeAlias = f ∧ jk.buildAlias = n ∧ p = (jk.probeIU, jk.buildIU)) := by
  unfold firstJoinKeys
  rw [List.mem_filterMap]
  apply exists_congr
  intro jk
  apply and_congr_right
  intro _
  constructor
  · intro h
    split_ifs at h with hb hr
    · exact .inl ⟨hb.1, hb.2, (Option.some.inj h).symm⟩
    · exact .inr ⟨hr.1, hr.2, (Option.some.inj h).symm⟩
  · rintro (⟨hb, hp, rfl⟩ | ⟨hp, hb, rfl⟩)
    · rw [if_pos ⟨hb, hp⟩]
    · have hnot : ¬ (jk.buildAlias = f ∧ jk.probeAlias = n) := fun h => hfn (h.1.symm.trans hb)
      rw [if_neg hnot, if_pos ⟨hp, hb⟩]

lemma keyOf_aliases {c : Expr} {l r : ColumnRef} {jk : JoinKey} (hkey : keyColumns c = some (l, r))
    (hof : KeyOf scans l r jk) (a : String) :
    a ∈ conjunctAliases c ↔ a = jk.buildAlias ∨ a = jk.probeAlias := by
  rw [mem_aliases_of_key hkey]
  obtain ⟨lIU, rIU, -, -, rfl | rfl⟩ := hof
  · rfl
  · exact or_comm

lemma firstJoinKeys_sound (hclass : Classified scans conjs cs) {f n : String} (hfn : f ≠ n)
    {p : IU × IU} (h : p ∈ firstJoinKeys cs.joinKeys f n) :
    ∃ c ∈ conjs, KeyBetween f [n] c ∧ Equates scans c f p.1 p.2 := by
  obtain ⟨jk, hjk, hside⟩ := (mem_firstJoinKeys hfn).mp h
  obtain ⟨c, hc, l, r, hkey, hof⟩ := hclass.sound hjk
  have heq := keyOf_equates hkey hof
  have haliases := keyOf_aliases hkey hof
  have hsome : (keyColumns c).isSome := by rw [hkey]; rfl
  rcases hside with ⟨hb, hp, rfl⟩ | ⟨hp, hb, rfl⟩
  · refine ⟨c, hc, ⟨hsome, (haliases f).mpr (.inl hb.symm), fun a ha => ?_⟩, hb ▸ heq.1⟩
    simpa [hb, hp] using (haliases a).mp ha
  · refine ⟨c, hc, ⟨hsome, (haliases f).mpr (.inr hp.symm), fun a ha => ?_⟩, hp ▸ heq.2⟩
    simpa [hb, hp] using ((haliases a).mp ha).symm

lemma firstJoinKeys_complete (hclass : Classified scans conjs cs) {f n : String} (hfn : f ≠ n)
    {c : Expr} (hc : c ∈ conjs) (hbetween : KeyBetween f [n] c) :
    ∃ p ∈ firstJoinKeys cs.joinKeys f n, Equates scans c f p.1 p.2 := by
  obtain ⟨hkey, hf, hall⟩ := hbetween
  obtain ⟨⟨l, r⟩, hlr⟩ := Option.isSome_iff_exists.mp hkey
  obtain ⟨jk, hjk, hof⟩ := hclass.complete hc hlr
  have heq := keyOf_equates hlr hof
  have haliases := keyOf_aliases hlr hof
  have hne : jk.buildAlias ≠ jk.probeAlias := by
    obtain ⟨-, -, -, hne⟩ := keyColumns_iff.mp hlr
    obtain ⟨lIU, rIU, -, -, rfl | rfl⟩ := hof
    · exact hne
    · exact hne.symm
  have hbuild : jk.buildAlias = f ∨ jk.buildAlias = n := by
    simpa using hall _ ((haliases _).mpr (.inl rfl))
  have hprobe : jk.probeAlias = f ∨ jk.probeAlias = n := by
    simpa using hall _ ((haliases _).mpr (.inr rfl))
  rcases hbuild with hb | hb
  · have hp : jk.probeAlias = n := hprobe.resolve_left fun hp => hne (hb.trans hp.symm)
    exact ⟨_, (mem_firstJoinKeys hfn).mpr ⟨jk, hjk, .inl ⟨hb, hp, rfl⟩⟩, hb ▸ heq.1⟩
  · have hp : jk.probeAlias = f := hprobe.resolve_right fun hp => hne (hb.trans hp.symm)
    exact ⟨_, (mem_firstJoinKeys hfn).mpr ⟨jk, hjk, .inr ⟨hp, hb, rfl⟩⟩, hp ▸ heq.2⟩

/-- The keys of the first join are always in scope. -/
lemma first_keys_iff (hclass : Classified scans conjs cs)
    (hwf : ∀ a s, scans.lookup a = some s → s.table.WellFormed) {f n : String} (hfn : f ≠ n)
    (t : Row) (ht : t ∈ prodAll ([f, n].map (bagOf scans))) :
    Row.values t ((firstJoinKeys cs.joinKeys f n).map Prod.fst) =
        Row.values t ((firstJoinKeys cs.joinKeys f n).map Prod.snd) ↔
      ∀ c ∈ conjs, KeyBetween f [n] c → satisfies scans t c = true :=
  keys_iff hwf (fun _ hp => firstJoinKeys_sound hclass hfn hp)
    (fun _ hc hbetween => firstJoinKeys_complete hclass hfn hc hbetween) t ht

end

end TidyTuples.Proofs
