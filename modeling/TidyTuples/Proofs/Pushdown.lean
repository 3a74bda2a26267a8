import TidyTuples.Proofs.Acceptance

/-!
# A filter over the joins, moved to its scan

A conjunct whose columns belong to one FROM entry can be checked on the rows of its scan or on the
joined rows: the plan computes the same list of rows.
-/

namespace TidyTuples.Proofs

open QueryPlanner Tuples

section

variable {scans : Scans} {cs cs' : Conjuncts} {ctx : CompilationContext} {order : List String}
  {root root' : Operator}

/-! ### Rows and their columns -/

/-- The rows of a scan on which its filters hold. -/
lemma ScanUnder.rows_eq {a : String} (h : ScanUnder scans cs a root) :
    ∃ s, scans.lookup a = some s ∧ root.rows =
      (Operator.scan s).rows.filter fun t => (cs.filterConjuncts a).all (satisfies scans t) := by
  cases h with
  | @bare s hs hnone =>
    refine ⟨s, hs, ?_⟩
    rw [hnone]
    exact (List.filter_eq_self.mpr fun _ _ => rfl).symm
  | @filtered s id hs hsome =>
    refine ⟨s, hs, ?_⟩
    apply List.filter_congr
    intro t _
    rw [predicate_holds hsome]
    rfl

/-- The joined rows on which the other filters hold. -/
lemma Planned.rows_eq (h : Planned scans cs order root) : ∃ op, Joined scans cs order op ∧
    root.rows = op.rows.filter fun t => cs.postJoinFilters.all (satisfies scans t) := by
  cases h with
  | bare hj hnone =>
    refine ⟨root, hj, ?_⟩
    rw [hnone]
    exact (List.filter_eq_self.mpr fun _ _ => rfl).symm
  | @filtered op id hj hsome =>
    refine ⟨op, hj, ?_⟩
    apply List.filter_congr
    intro t _
    rw [predicate_holds hsome]
    rfl

lemma ScanUnder.supported {a : String} (h : ScanUnder scans cs a root) :
    Supported (root.rows : Multiset Row) (idsOf scans a) := by
  obtain ⟨s, hs, hrows⟩ := h.rows_eq
  intro t ht
  rw [Multiset.mem_coe, hrows] at ht
  apply bagOf_supported scans a t
  rw [bagOf, hs]
  exact Multiset.mem_coe.mpr (List.mem_of_mem_filter ht)

lemma hashJoin_supported {id : Nat} {build probe : Operator} {bks pks : List IU} {ht : Word}
    {A B : Set Nat} (hb : Supported (build.rows : Multiset Row) A)
    (hp : Supported (probe.rows : Multiset Row) B) :
    Supported ((Operator.hashJoin id build probe bks pks ht).rows : Multiset Row) (A ∪ B) := by
  intro t hmem i hi
  obtain ⟨b, hbmem, p, hpmem, -, rfl⟩ := mem_join_rows (Multiset.mem_coe.mp hmem)
  have hbnone := hb b (Multiset.mem_coe.mpr hbmem) i fun hA => hi (.inl hA)
  have hpnone := hp p (Multiset.mem_coe.mpr hpmem) i fun hB => hi (.inr hB)
  rw [Row.merge, hbnone, hpnone]
  rfl

lemma idsOfAll_cons (scans : Scans) (n : String) (done : List String) :
    idsOfAll scans (n :: done) = idsOf scans n ∪ idsOfAll scans done := by
  ext id
  simp [idsOfAll]

lemma idsOfAll_singleton (scans : Scans) (n : String) : idsOfAll scans [n] = idsOf scans n := by
  ext id
  simp [idsOfAll]

lemma Joined.supported (h : Joined scans cs order root) :
    Supported (root.rows : Multiset Row) (idsOfAll scans order) := by
  induction h with
  | @scan a op h =>
    rw [idsOfAll_singleton]
    exact h.supported
  | first hb hp _ =>
    rw [idsOfAll_cons, idsOfAll_singleton]
    exact hashJoin_supported hb.supported hp.supported
  | later _ _ hb _ ih =>
    rw [idsOfAll_cons]
    exact hashJoin_supported hb.supported ih

/-! ### One join -/

variable {build build' probe probe' : Operator} {keys keys' : List (IU × IU)} {id id' : Nat}
  {ht ht' : Word} {A B : Set Nat} {q : Row → Bool}

/-- A selection over the columns of the build side. -/
lemma rows_hashJoin_filter_build (hp : Supported (probe.rows : Multiset Row) B)
    (hAB : Disjoint A B) (hq : LocalTo q A) (hbuild : build'.rows = build.rows.filter q)
    (hprobe : probe'.rows = probe.rows) (hkeys : ∀ k, k ∈ keys ↔ k ∈ keys') :
    (Operator.hashJoin id' build' probe' (keys'.map Prod.fst) (keys'.map Prod.snd) ht').rows =
      (Operator.hashJoin id build probe (keys.map Prod.fst) (keys.map Prod.snd) ht).rows.filter q := by
  unfold Operator.rows
  rw [hbuild, hprobe, List.filter_flatMap]
  apply List.flatMap_congr
  intro p hpmem
  rw [List.filter_map, List.filter_filter, List.filter_filter]
  congr 1
  apply List.filter_congr
  intro b _
  have hmerge : q (b.merge p) = q b := by
    apply hq
    intro i hi
    exact merge_left (hp p (Multiset.mem_coe.mpr hpmem) i (Set.disjoint_left.mp hAB hi))
  have hsame : decide (b.values (keys'.map Prod.fst) = p.values (keys'.map Prod.snd)) =
      decide (b.values (keys.map Prod.fst) = p.values (keys.map Prod.snd)) := by
    rw [decide_eq_decide, values_eq_iff, values_eq_iff]
    exact forall_congr' fun k => imp_congr_left (hkeys k).symm
  rw [Function.comp_apply, hmerge, hsame, Bool.and_comm]

/-- A selection over the columns of the probe side. -/
lemma rows_hashJoin_filter_probe (hb : Supported (build.rows : Multiset Row) A)
    (hAB : Disjoint A B) (hq : LocalTo q B) (hbuild : build'.rows = build.rows)
    (hprobe : probe'.rows = probe.rows.filter q) (hkeys : ∀ k, k ∈ keys ↔ k ∈ keys') :
    (Operator.hashJoin id' build' probe' (keys'.map Prod.fst) (keys'.map Prod.snd) ht').rows =
      (Operator.hashJoin id build probe (keys.map Prod.fst) (keys.map Prod.snd) ht).rows.filter q := by
  have hrows : (Operator.hashJoin id' build' probe' (keys'.map Prod.fst) (keys'.map Prod.snd) ht').rows =
      (Operator.hashJoin id build probe' (keys.map Prod.fst) (keys.map Prod.snd) ht).rows :=
    rows_hashJoin_congr hbuild rfl fun k => (hkeys k).symm
  rw [hrows]
  unfold Operator.rows
  rw [hprobe]
  apply flatMap_filter_left
  intro p _ t hmem
  obtain ⟨b, hbmem, rfl⟩ := List.mem_map.mp hmem
  apply hq
  intro i hi
  exact merge_right (hb b (Multiset.mem_coe.mpr (List.mem_of_mem_filter hbmem)) i
    (Set.disjoint_right.mp hAB hi))

end

/-! ### The whole tree -/

section

variable {scans : Scans} {cs cs' : Conjuncts} {ctx : CompilationContext} {order : List String}
  {root root' : Operator} {before after : List Expr} {c c' : Expr} {b : String}

/-- Neither conjunct is a key. -/
lemma keysAmong_moved (hc : keyColumns c = none) :
    KeysAmong scans (before ++ c :: after) (before ++ c' :: after) := by
  intro d hd hkey
  refine ⟨d, ?_, .refl scans d⟩
  rcases List.mem_append.mp hd with hd | hd
  · exact List.mem_append_left _ hd
  · rcases List.mem_cons.mp hd with rfl | hd
    · rw [hc] at hkey
      cases hkey
    · exact List.mem_append_right _ (List.mem_cons_of_mem c' hd)

variable (hclass : Classified scans (before ++ c :: after) cs)
  (hclass' : Classified scans (before ++ c' :: after) cs') (hnone : conjunctAliases c = [])
  (hone : conjunctAliases c' = [b])
include hnone hone

omit hnone in
lemma key_of_one : keyColumns c' = none := by
  unfold keyColumns
  rw [hone]
  rfl

omit hone in
lemma key_of_none : keyColumns c = none := by
  unfold keyColumns
  rw [hnone]
  rfl

include hclass hclass'

lemma filters_moved (a : String) (p : Expr → Bool) : (cs'.filterConjuncts a).all p =
    ((cs.filterConjuncts a).all p && (decide (a ≠ b) || p c')) := by
  rw [hclass.filters, hclass'.filters]
  simp only [List.filter_append, List.filter_cons, hnone, hone]
  by_cases hab : a = b
  · subst hab
    simp only [decide_true, if_true, List.all_append, List.all_cons, ne_eq, not_true_eq_false,
      decide_false, Bool.false_or, List.nil_eq, List.cons_ne_nil, Bool.false_eq_true, if_false]
    rw [Bool.and_assoc, Bool.and_comm (p c')]
  · have hba : ([b] : List String) ≠ [a] := fun heq => hab (List.singleton_inj.mp heq).symm
    simp [hab, hba]

lemma postJoin_moved (p : Expr → Bool) :
    cs.postJoinFilters.all p = (p c && cs'.postJoinFilters.all p) := by
  rw [hclass.postJoin, hclass'.postJoin]
  simp only [List.filter_append, List.filter_cons, hnone, hone, key_of_none hnone]
  simp [Bool.and_left_comm]

lemma ScanUnder.rows_moved {a : String} (h : ScanUnder scans cs a root)
    (h' : ScanUnder scans cs' a root') : root'.rows = if a = b then
      root.rows.filter (fun t => satisfies scans t c') else root.rows := by
  obtain ⟨s, hs, hrows⟩ := h.rows_eq
  obtain ⟨s', hs', hrows'⟩ := h'.rows_eq
  rw [hs] at hs'
  cases hs'
  rw [hrows, hrows']
  simp only [filters_moved hclass hclass' hnone hone]
  split_ifs with hab
  · rw [List.filter_filter]
    apply List.filter_congr
    intro t _
    simp [hab, Bool.and_comm]
  · apply List.filter_congr
    intro t _
    simp [hab]

/-- The induction is on the joins; the filter is on the build side, on the probe side or in neither. -/
lemma Joined.rows_moved (hapart : ScansApart ctx scans)
    (hlocal : LocalTo (fun t => satisfies scans t c') (idsOf scans b)) (hnodup : order.Nodup)
    (h : Joined scans cs order root) (h' : Joined scans cs' order root') :
    root'.rows = if b ∈ order then root.rows.filter (fun t => satisfies scans t c')
      else root.rows := by
  have hkeys := @keysAmong_moved scans before after c c' (key_of_none hnone)
  have hkeys' := @keysAmong_moved scans before after c' c (key_of_one hone)
  induction h generalizing root' with
  | @scan a op hscan =>
    cases h' with
    | scan hscan' =>
      rw [hscan.rows_moved hclass hclass' hnone hone hscan']
      simp only [List.mem_singleton, eq_comm]
    | later _ hlen => cases hlen
  | @first f n build probe id ht hb hp _ =>
    have hfn : f ≠ n := fun heq => (List.nodup_cons.mp hnodup).1 (List.mem_singleton.mpr heq)
    cases h' with
    | first hb' hp' _ =>
      have hsame : ∀ k, k ∈ firstJoinKeys cs.joinKeys f n ↔ k ∈ firstJoinKeys cs'.joinKeys f n :=
        fun k => ⟨same_firstJoinKeys hclass hclass' hkeys hfn,
          same_firstJoinKeys hclass' hclass hkeys' hfn⟩
      have hbuild := hb.rows_moved hclass hclass' hnone hone hb'
      have hprobe := hp.rows_moved hclass hclass' hnone hone hp'
      have hdisj := idsOf_disjoint hapart hfn
      by_cases hf : f = b
      · subst hf
        rw [if_pos rfl] at hbuild
        rw [if_neg hfn.symm] at hprobe
        rw [if_pos List.mem_cons_self]
        exact rows_hashJoin_filter_build hp.supported hdisj hlocal hbuild hprobe hsame
      · rw [if_neg hf] at hbuild
        by_cases hn : n = b
        · subst hn
          rw [if_pos rfl] at hprobe
          rw [if_pos (List.mem_cons_of_mem f List.mem_cons_self)]
          exact rows_hashJoin_filter_probe hb.supported hdisj hlocal hbuild hprobe hsame
        · rw [if_neg hn] at hprobe
          rw [if_neg (by simp [Ne.symm hf, Ne.symm hn])]
          exact rows_hashJoin_congr hbuild hprobe fun k => (hsame k).symm
    | later _ hlen => exact absurd hlen (by simp)
  | @later n done build probe id ht hdone hlen hb _ ih =>
    obtain ⟨hn, hrest⟩ := List.nodup_cons.mp hnodup
    cases h' with
    | scan => cases hlen
    | first => exact absurd hlen (by simp)
    | later hdone' _ hb' _ =>
      have hsame : ∀ k, k ∈ laterJoinKeys cs.joinKeys n ↔ k ∈ laterJoinKeys cs'.joinKeys n :=
        fun k => ⟨same_laterJoinKeys hclass hclass' hkeys, same_laterJoinKeys hclass' hclass hkeys'⟩
      have hbuild := hb.rows_moved hclass hclass' hnone hone hb'
      have hprobe := ih hrest hdone'
      have hdisj := idsOfAll_disjoint hapart hn
      by_cases hnb : n = b
      · subst hnb
        rw [if_pos rfl] at hbuild
        rw [if_neg hn] at hprobe
        rw [if_pos List.mem_cons_self]
        exact rows_hashJoin_filter_build hdone.supported hdisj hlocal hbuild hprobe hsame
      · rw [if_neg hnb] at hbuild
        by_cases hb : b ∈ done
        · rw [if_pos hb] at hprobe
          rw [if_pos (List.mem_cons_of_mem n hb)]
          have hlocal' : LocalTo (fun t => satisfies scans t c') (idsOfAll scans done) :=
            hlocal.mono fun id hid => ⟨b, hb, hid⟩
          exact rows_hashJoin_filter_probe (ScanUnder.supported ‹_›) hdisj hlocal' hbuild hprobe hsame
        · rw [if_neg hb] at hprobe
          rw [if_neg (by simp [Ne.symm hnb, hb])]
          exact rows_hashJoin_congr hbuild hprobe fun k => (hsame k).symm

/-- A conjunct that holds on the same rows may be checked over the joins or at its scan. -/
lemma Planned.rows_moved (hapart : ScansApart ctx scans)
    (hlocal : LocalTo (fun t => satisfies scans t c') (idsOf scans b))
    (hsame : ∀ t, satisfies scans t c = satisfies scans t c') (hnodup : order.Nodup)
    (hb : b ∈ order) (h : Planned scans cs order root) (h' : Planned scans cs' order root') :
    root'.rows = root.rows := by
  obtain ⟨op, hj, hrows⟩ := h.rows_eq
  obtain ⟨op', hj', hrows'⟩ := h'.rows_eq
  have hmoved := hj.rows_moved hclass hclass' hnone hone hapart hlocal hnodup hj'
  rw [if_pos hb] at hmoved
  rw [hrows, hrows', hmoved, List.filter_filter]
  apply List.filter_congr
  intro t _
  rw [postJoin_moved hclass hclass' hnone hone, hsame, Bool.and_comm]

end

end TidyTuples.Proofs
