import TidyTuples.Proofs.Conjuncts
import TidyTuples.Proofs.JoinedEntries
import TidyTuples.Proofs.Resolution

/-!
# The written order of the WHERE clause

Conjuncts may be permuted and nested otherwise, and the sides of an equality swapped: the plan has
the same filters and join keys, in another order, and computes the same list of rows.
-/

namespace TidyTuples

/-- The same clause with its top-level conjuncts in another order or nesting, or with the sides of
some equalities swapped. -/
inductive Expr.Reordered : Expr → Expr → Prop
  | refl (e : Expr) : Reordered e e
  | symm {e e' : Expr} : Reordered e e' → Reordered e' e
  | trans {e e' e'' : Expr} : Reordered e e' → Reordered e' e'' → Reordered e e''
  | comm (l r : Expr) : Reordered (.binOp .and l r) (.binOp .and r l)
  | assoc (l m r : Expr) :
      Reordered (.binOp .and (.binOp .and l m) r) (.binOp .and l (.binOp .and m r))
  | congr {l l' r r' : Expr} : Reordered l l' → Reordered r r' →
      Reordered (.binOp .and l r) (.binOp .and l' r')
  | sides (l r : Expr) : Reordered (.binOp .eq l r) (.binOp .eq r l)

namespace Proofs

open QueryPlanner

/-! ### Conjuncts -/

/-- The planner may have either conjunct: it files them in one place, and the same rows satisfy
them. -/
structure Interchangeable (scans : Scans) (c c' : Expr) : Prop where
  oneAlias : ∀ a, conjunctAliases c = [a] ↔ conjunctAliases c' = [a]
  noKey : keyColumns c = none ↔ keyColumns c' = none
  keyAliases : (keyColumns c).isSome → ∀ a, a ∈ conjunctAliases c ↔ a ∈ conjunctAliases c'
  equates : ∀ n x y, Equates scans c n x y ↔ Equates scans c' n x y
  satisfies : ∀ t, satisfies scans t c = satisfies scans t c'
  resolvesIn : ∀ ius, c.ResolvesIn (resolveColumn scans) ius ↔
    c'.ResolvesIn (resolveColumn scans) ius

/-- The same conjuncts, in any order. -/
def SameConjuncts (scans : Scans) (conjs conjs' : List Expr) : Prop :=
  (∀ c ∈ conjs, ∃ c' ∈ conjs', Interchangeable scans c c') ∧
    ∀ c' ∈ conjs', ∃ c ∈ conjs, Interchangeable scans c c'

/-- The join keys are among the other conjuncts. -/
def KeysAmong (scans : Scans) (conjs conjs' : List Expr) : Prop :=
  ∀ c ∈ conjs, (keyColumns c).isSome → ∃ c' ∈ conjs', Interchangeable scans c c'

section

variable {c c' : Expr} {conjs conjs' : List Expr} {scans : Scans}

lemma Interchangeable.refl (scans : Scans) (c : Expr) : Interchangeable scans c c :=
  ⟨fun _ => Iff.rfl, Iff.rfl, fun _ _ => Iff.rfl, fun _ _ _ => Iff.rfl, fun _ => rfl, fun _ => Iff.rfl⟩

lemma Interchangeable.keyIsSome (h : Interchangeable scans c c') :
    (keyColumns c).isSome ↔ (keyColumns c').isSome := by
  rw [← not_iff_not, Option.not_isSome_iff_eq_none, Option.not_isSome_iff_eq_none]
  exact h.noKey

lemma Interchangeable.symm (h : Interchangeable scans c c') : Interchangeable scans c' c where
  oneAlias a := (h.oneAlias a).symm
  noKey := h.noKey.symm
  keyAliases hkey a := (h.keyAliases (h.keyIsSome.mpr hkey) a).symm
  equates n x y := (h.equates n x y).symm
  satisfies t := (h.satisfies t).symm
  resolvesIn ius := (h.resolvesIn ius).symm

lemma Interchangeable.trans {c'' : Expr} (h : Interchangeable scans c c')
    (h' : Interchangeable scans c' c'') : Interchangeable scans c c'' where
  oneAlias a := (h.oneAlias a).trans (h'.oneAlias a)
  noKey := h.noKey.trans h'.noKey
  keyAliases hkey a := (h.keyAliases hkey a).trans (h'.keyAliases (h.keyIsSome.mp hkey) a)
  equates n x y := (h.equates n x y).trans (h'.equates n x y)
  satisfies t := (h.satisfies t).trans (h'.satisfies t)
  resolvesIn ius := (h.resolvesIn ius).trans (h'.resolvesIn ius)

lemma SameConjuncts.of_mem (h : ∀ c, c ∈ conjs ↔ c ∈ conjs') : SameConjuncts scans conjs conjs' :=
  ⟨fun c hc => ⟨c, (h c).mp hc, .refl scans c⟩, fun c hc => ⟨c, (h c).mpr hc, .refl scans c⟩⟩

lemma SameConjuncts.symm (h : SameConjuncts scans conjs conjs') :
    SameConjuncts scans conjs' conjs := by
  constructor
  · intro c hc
    obtain ⟨c', hc', hsame⟩ := h.2 c hc
    exact ⟨c', hc', hsame.symm⟩
  · intro c hc
    obtain ⟨c', hc', hsame⟩ := h.1 c hc
    exact ⟨c', hc', hsame.symm⟩

lemma SameConjuncts.trans {conjs'' : List Expr} (h : SameConjuncts scans conjs conjs')
    (h' : SameConjuncts scans conjs' conjs'') : SameConjuncts scans conjs conjs'' := by
  constructor
  · intro c hc
    obtain ⟨c', hc', hsame⟩ := h.1 c hc
    obtain ⟨c'', hc'', hsame'⟩ := h'.1 c' hc'
    exact ⟨c'', hc'', hsame.trans hsame'⟩
  · intro c hc
    obtain ⟨c', hc', hsame⟩ := h'.2 c hc
    obtain ⟨c'', hc'', hsame'⟩ := h.2 c' hc'
    exact ⟨c'', hc'', hsame'.trans hsame⟩

lemma SameConjuncts.singleton (h : Interchangeable scans c c') : SameConjuncts scans [c] [c'] := by
  constructor
  · intro d hd
    rw [List.mem_singleton.mp hd]
    exact ⟨c', List.mem_singleton_self c', h⟩
  · intro d hd
    rw [List.mem_singleton.mp hd]
    exact ⟨c, List.mem_singleton_self c, h⟩

lemma SameConjuncts.append {left right left' right' : List Expr}
    (hl : SameConjuncts scans left left') (hr : SameConjuncts scans right right') :
    SameConjuncts scans (left ++ right) (left' ++ right') := by
  constructor
  · intro c hc
    rcases List.mem_append.mp hc with hc | hc
    · obtain ⟨c', hc', hsame⟩ := hl.1 c hc
      exact ⟨c', List.mem_append_left _ hc', hsame⟩
    · obtain ⟨c', hc', hsame⟩ := hr.1 c hc
      exact ⟨c', List.mem_append_right _ hc', hsame⟩
  · intro c hc
    rcases List.mem_append.mp hc with hc | hc
    · obtain ⟨c', hc', hsame⟩ := hl.2 c hc
      exact ⟨c', List.mem_append_left _ hc', hsame⟩
    · obtain ⟨c', hc', hsame⟩ := hr.2 c hc
      exact ⟨c', List.mem_append_right _ hc', hsame⟩

lemma SameConjuncts.filter (h : SameConjuncts scans conjs conjs') {p : Expr → Bool}
    (hp : ∀ c c', Interchangeable scans c c' → p c = p c') :
    SameConjuncts scans (conjs.filter p) (conjs'.filter p) := by
  constructor
  · intro c hc
    obtain ⟨hmem, hpc⟩ := List.mem_filter.mp hc
    obtain ⟨c', hc', hsame⟩ := h.1 c hmem
    exact ⟨c', List.mem_filter.mpr ⟨hc', hp c c' hsame ▸ hpc⟩, hsame⟩
  · intro c hc
    obtain ⟨hmem, hpc⟩ := List.mem_filter.mp hc
    obtain ⟨c', hc', hsame⟩ := h.2 c hmem
    exact ⟨c', List.mem_filter.mpr ⟨hc', hp c' c hsame ▸ hpc⟩, hsame⟩

lemma SameConjuncts.eq_nil (h : SameConjuncts scans conjs conjs') (hnil : conjs = []) :
    conjs' = [] := by
  apply List.eq_nil_iff_forall_not_mem.mpr
  intro c hc
  obtain ⟨c', hc', -⟩ := h.2 c hc
  rw [hnil] at hc'
  cases hc'

lemma SameConjuncts.all_satisfied (h : SameConjuncts scans conjs conjs') (t : Row) :
    conjs.all (satisfies scans t) = conjs'.all (satisfies scans t) := by
  rw [Bool.eq_iff_iff, List.all_eq_true, List.all_eq_true]
  constructor
  · intro hall c hc
    obtain ⟨c', hc', hsame⟩ := h.2 c hc
    rw [← hsame.satisfies]
    exact hall c' hc'
  · intro hall c hc
    obtain ⟨c', hc', hsame⟩ := h.1 c hc
    rw [hsame.satisfies]
    exact hall c' hc'

lemma SameConjuncts.keysAmong (h : SameConjuncts scans conjs conjs') : KeysAmong scans conjs conjs' :=
  fun c hc _ => h.1 c hc

lemma SameConjuncts.resolvesIn (h : SameConjuncts scans conjs conjs') {ius : List IU}
    (hin : ∀ c ∈ conjs, c.ResolvesIn (resolveColumn scans) ius) :
    ∀ c ∈ conjs', c.ResolvesIn (resolveColumn scans) ius := by
  intro c' hc'
  obtain ⟨c, hc, hsame⟩ := h.2 c' hc'
  exact (hsame.resolvesIn ius).mp (hin c hc)

/-! ### Swapped sides -/

lemma aliases_swapped (l r : Expr) :
    (conjunctAliases (.binOp .eq l r)).Perm (conjunctAliases (.binOp .eq r l)) := by
  apply (List.perm_ext_iff_of_nodup (collectAliases_nodup List.nodup_nil)
    (collectAliases_nodup List.nodup_nil)).mpr
  intro a
  change a ∈ conjunctAliases _ ↔ a ∈ conjunctAliases _
  rw [mem_conjunctAliases, mem_conjunctAliases]
  simp only [Expr.columns, List.mem_append, or_comm]

lemma keyColumns_swapped {l r : Expr} {x y : ColumnRef}
    (h : keyColumns (.binOp .eq l r) = some (x, y)) : keyColumns (.binOp .eq r l) = some (y, x) := by
  obtain ⟨heq, hx, hy, hne⟩ := keyColumns_iff.mp h
  cases heq
  exact keyColumns_iff.mpr ⟨rfl, hy, hx, hne.symm⟩

lemma noKey_swapped {l r : Expr} (h : keyColumns (.binOp .eq l r) = none) :
    keyColumns (.binOp .eq r l) = none := by
  cases hkey : keyColumns (.binOp .eq r l) with
  | none => rfl
  | some xy =>
    rw [keyColumns_swapped hkey] at h
    cases h

lemma equates_swapped {l r : Expr} {n : String} {x y : IU}
    (h : Equates scans (.binOp .eq l r) n x y) : Equates scans (.binOp .eq r l) n x y := by
  obtain ⟨lcr, rcr, hkey, hside⟩ := h
  exact ⟨rcr, lcr, keyColumns_swapped hkey, hside.symm⟩

lemma holdsIn_swapped (l r : Expr) (env : Env) :
    (Expr.binOp .eq l r).holdsIn env = (Expr.binOp .eq r l).holdsIn env := by
  unfold Expr.holdsIn
  rw [Expr.evalIn, Expr.evalIn]
  cases l.evalIn env with
  | none => cases r.evalIn env <;> rfl
  | some a =>
    cases r.evalIn env with
    | none => rfl
    | some b =>
      change (BinOpKind.eval .eq a b != 0) = (BinOpKind.eval .eq b a != 0)
      rw [BinOpKind.eval, BinOpKind.eval, Bool.beq_comm]

lemma interchangeable_swapped (scans : Scans) (l r : Expr) :
    Interchangeable scans (.binOp .eq l r) (.binOp .eq r l) where
  oneAlias a := by
    constructor
    · intro heq
      exact List.perm_singleton.mp (heq ▸ (aliases_swapped l r).symm)
    · intro heq
      exact List.perm_singleton.mp (heq ▸ aliases_swapped l r)
  noKey := ⟨noKey_swapped, noKey_swapped⟩
  keyAliases _ _ := (aliases_swapped l r).mem_iff
  equates _ _ _ := ⟨equates_swapped, equates_swapped⟩
  satisfies _ := holdsIn_swapped l r _
  resolvesIn _ := and_comm

/-- The planner sees the same conjuncts. -/
lemma flattenAnd_reordered {e e' : Expr} (h : e.Reordered e') :
    SameConjuncts scans (flattenAnd e) (flattenAnd e') := by
  induction h with
  | refl e => exact .of_mem fun _ => Iff.rfl
  | symm _ ih => exact ih.symm
  | trans _ _ ih ih' => exact ih.trans ih'
  | comm l r =>
    apply SameConjuncts.of_mem
    intro c
    rw [flattenAnd, flattenAnd, List.mem_append, List.mem_append]
    exact or_comm
  | assoc l m r =>
    apply SameConjuncts.of_mem
    intro c
    rw [flattenAnd, flattenAnd, flattenAnd, flattenAnd, List.append_assoc]
  | congr _ _ ihl ihr =>
    rw [flattenAnd, flattenAnd]
    exact ihl.append ihr
  | sides l r => exact .singleton (interchangeable_swapped scans l r)

end

/-! ### Classified conjuncts -/

section

variable {scans : Scans} {conjs conjs' : List Expr} {cs cs' : Conjuncts}
  (hclass : Classified scans conjs cs) (hclass' : Classified scans conjs' cs')
  (hsame : SameConjuncts scans conjs conjs')
include hclass hclass' hsame

lemma same_filters (a : String) :
    SameConjuncts scans (cs.filterConjuncts a) (cs'.filterConjuncts a) := by
  rw [hclass.filters, hclass'.filters]
  apply hsame.filter
  intro c c' h
  rw [decide_eq_decide]
  exact h.oneAlias a

lemma same_postJoin : SameConjuncts scans cs.postJoinFilters cs'.postJoinFilters := by
  rw [hclass.postJoin, hclass'.postJoin]
  apply hsame.filter
  intro c c' h
  rw [decide_eq_decide, h.noKey, ne_eq, ne_eq, List.length_eq_one_iff, List.length_eq_one_iff]
  simp only [h.oneAlias]

omit hclass hclass' hsame in
/-- The columns that a conjunct equates are determined by the alias of the first. -/
lemma Equates.unique {c : Expr} {n : String} {x y x' y' : IU} (h : Equates scans c n x y)
    (h' : Equates scans c n x' y') : x = x' ∧ y = y' := by
  obtain ⟨l, r, hkey, hside⟩ := h
  obtain ⟨l', r', hkey', hside'⟩ := h'
  rw [hkey] at hkey'
  obtain ⟨rfl, rfl⟩ := Prod.mk.inj (Option.some.inj hkey')
  obtain ⟨-, -, -, hne⟩ := keyColumns_iff.mp hkey
  rcases hside with ⟨hl, hx, hy⟩ | ⟨hr, hx, hy⟩ <;> rcases hside' with ⟨hl', hx', hy'⟩ | ⟨hr', hx', hy'⟩
  · exact ⟨Except.ok.inj (hx.symm.trans hx'), Except.ok.inj (hy.symm.trans hy')⟩
  · exact absurd (hl.trans hr'.symm) hne
  · exact absurd (hl'.trans hr.symm) hne
  · exact ⟨Except.ok.inj (hx.symm.trans hx'), Except.ok.inj (hy.symm.trans hy')⟩

omit hsame
variable (hkeys : KeysAmong scans conjs conjs')
include hkeys

lemma same_laterJoinKeys {n : String} {k : IU × IU} (hk : k ∈ laterJoinKeys cs.joinKeys n) :
    k ∈ laterJoinKeys cs'.joinKeys n := by
  obtain ⟨c, hc, heq⟩ := laterJoinKeys_sound hclass hk
  obtain ⟨c', hc', hcc⟩ := hkeys c hc heq.otherAlias.2.1
  have heq' := (hcc.equates _ _ _).mp heq
  obtain ⟨-, hkey, b, -, -, haliases⟩ := heq'.otherAlias
  obtain ⟨k', hk', heq''⟩ :=
    laterJoinKeys_complete hclass' hc' hkey ((haliases n).mpr (.inl rfl))
  obtain ⟨hx, hy⟩ := heq''.unique heq'
  rwa [Prod.ext hx hy] at hk'

lemma same_firstJoinKeys {f n : String} (hfn : f ≠ n) {k : IU × IU}
    (hk : k ∈ firstJoinKeys cs.joinKeys f n) : k ∈ firstJoinKeys cs'.joinKeys f n := by
  obtain ⟨c, hc, ⟨hkey, hf, hall⟩, heq⟩ := firstJoinKeys_sound hclass hfn hk
  obtain ⟨c', hc', hcc⟩ := hkeys c hc hkey
  have heq' := (hcc.equates _ _ _).mp heq
  have haliases := hcc.keyAliases hkey
  have hbetween' : KeyBetween f [n] c' :=
    ⟨heq'.otherAlias.2.1, (haliases f).mp hf, fun a ha => hall a ((haliases a).mpr ha)⟩
  obtain ⟨k', hk', heq''⟩ := firstJoinKeys_complete hclass' hfn hc' hbetween'
  obtain ⟨hx, hy⟩ := heq''.unique heq'
  rwa [Prod.ext hx hy] at hk'

end

/-! ### Operators -/

/-- Two trees accept the same queries and compute the same rows. -/
structure Alike (root root' : Operator) : Prop where
  rows : root.rows = root'.rows
  inScope : root.Scoped ↔ root'.Scoped
  outputs : ∀ iu, iu ∈ root.outputIUs ↔ iu ∈ root'.outputIUs

section

variable {scans : Scans} {root root' : Operator}

lemma Alike.mem_ids (h : Alike root root') (id : Nat) :
    id ∈ root.outputIUs.map IU.id ↔ id ∈ root'.outputIUs.map IU.id := by
  rw [List.mem_map, List.mem_map]
  exact exists_congr fun iu => and_congr_left fun _ => h.outputs iu

lemma resolvesIn_congr {resolve : ColumnRef → Except CppError IU} {ius ius' : List IU} {e : Expr}
    (h : ∀ id, id ∈ ius.map IU.id ↔ id ∈ ius'.map IU.id) :
    e.ResolvesIn resolve ius ↔ e.ResolvesIn resolve ius' := by
  induction e with
  | colRef ref => exact exists_congr fun iu => and_congr_right fun _ => h iu.id
  | intLit n => exact Iff.rfl
  | binOp op l r ihl ihr => exact and_congr ihl ihr

/-- The filters may be written in another order. -/
lemma Alike.select {conjs conjs' : List Expr} {id id' : Nat} (h : Alike root root')
    (hsame : SameConjuncts scans conjs conjs') (hne : conjs ≠ []) :
    Alike (.select id root (predicateOf scans conjs))
      (.select id' root' (predicateOf scans conjs')) := by
  have hne' : conjs' ≠ [] := fun hnil => hne (hsame.symm.eq_nil hnil)
  constructor
  · change root.rows.filter _ = root'.rows.filter _
    rw [h.rows]
    apply List.filter_congr
    intro t _
    have hp := @predicate_holds t (predicateOf scans conjs) hne
    have hp' := @predicate_holds t (predicateOf scans conjs') hne'
    rw [hp, hp']
    exact hsame.all_satisfied _
  · change _ ∧ conjs ≠ [] ∧ _ ↔ _ ∧ conjs' ≠ [] ∧ _
    rw [and_iff_right hne, and_iff_right hne']
    apply and_congr h.inScope
    constructor
    · intro hin c hc
      exact (resolvesIn_congr h.mem_ids).mp (hsame.resolvesIn hin c hc)
    · intro hin c hc
      exact (resolvesIn_congr h.mem_ids).mpr (hsame.symm.resolvesIn hin c hc)
  · exact h.outputs

lemma values_eq_iff {b p : Row} {keys : List (IU × IU)} :
    b.values (keys.map Prod.fst) = p.values (keys.map Prod.snd) ↔
      ∀ k ∈ keys, b k.1.id = p k.2.id := by
  unfold Row.values
  rw [List.map_map, List.map_map, List.map_inj_left]
  rfl

/-- Only the set of the keys matters for the rows. -/
lemma rows_hashJoin_congr {build build' probe probe' : Operator} {id id' : Nat} {ht ht' : Word}
    {keys keys' : List (IU × IU)} (hb : build.rows = build'.rows) (hp : probe.rows = probe'.rows)
    (hkeys : ∀ k, k ∈ keys ↔ k ∈ keys') :
    (Operator.hashJoin id build probe (keys.map Prod.fst) (keys.map Prod.snd) ht).rows =
      (Operator.hashJoin id' build' probe' (keys'.map Prod.fst) (keys'.map Prod.snd) ht').rows := by
  unfold Operator.rows
  rw [hb, hp]
  congr 1
  funext p
  congr 1
  apply List.filter_congr
  intro b _
  rw [decide_eq_decide, values_eq_iff, values_eq_iff]
  exact forall_congr' fun k => imp_congr_left (hkeys k)

/-- The keys may be written in another order, and repeated. -/
lemma Alike.hashJoin {build build' probe probe' : Operator} {id id' : Nat} {ht ht' : Word}
    {keys keys' : List (IU × IU)} (hb : Alike build build') (hp : Alike probe probe')
    (hkeys : ∀ k, k ∈ keys ↔ k ∈ keys') :
    Alike (.hashJoin id build probe (keys.map Prod.fst) (keys.map Prod.snd) ht)
      (.hashJoin id' build' probe' (keys'.map Prod.fst) (keys'.map Prod.snd) ht') := by
  have hfst : ∀ iu, iu ∈ keys.map Prod.fst ↔ iu ∈ keys'.map Prod.fst := fun iu => by
    rw [List.mem_map, List.mem_map]
    exact exists_congr fun k => and_congr_left fun _ => hkeys k
  have hsnd : ∀ iu, iu ∈ keys.map Prod.snd ↔ iu ∈ keys'.map Prod.snd := fun iu => by
    rw [List.mem_map, List.mem_map]
    exact exists_congr fun k => and_congr_left fun _ => hkeys k
  constructor
  · exact rows_hashJoin_congr hb.rows hp.rows hkeys
  · unfold Operator.Scoped
    apply and_congr hb.inScope
    apply and_congr hp.inScope
    apply and_congr
    · exact forall_congr' fun iu => imp_congr (hfst iu) (hb.mem_ids iu.id)
    · exact forall_congr' fun iu => imp_congr (hsnd iu) (hp.mem_ids iu.id)
  · intro iu
    have hpayload : iu ∈ Operator.payloadIUs build.outputIUs (keys.map Prod.fst) ↔
        iu ∈ Operator.payloadIUs build'.outputIUs (keys'.map Prod.fst) := by
      unfold Operator.payloadIUs
      rw [List.mem_filter, List.mem_filter, hb.outputs]
      simp only [List.contains_eq_mem, Bool.not_eq_true', decide_eq_false_iff_not, hfst]
    unfold Operator.outputIUs
    simp only [List.mem_append]
    exact or_congr (or_congr (hp.outputs iu) (hfst iu)) hpayload

end

/-! ### Plans -/

section

variable {scans : Scans} {conjs conjs' : List Expr} {cs cs' : Conjuncts} {root root' : Operator}
  {order : List String} (hclass : Classified scans conjs cs) (hclass' : Classified scans conjs' cs')
  (hsame : SameConjuncts scans conjs conjs')
include hclass hclass' hsame

lemma ScanUnder.alike {a : String} (h : ScanUnder scans cs a root)
    (h' : ScanUnder scans cs' a root') : Alike root root' := by
  have hfilters := same_filters hclass hclass' hsame a
  cases h with
  | bare hs hnone =>
    cases h' with
    | bare hs' _ =>
      rw [hs] at hs'
      cases hs'
      exact ⟨rfl, Iff.rfl, fun _ => Iff.rfl⟩
    | filtered _ hsome => exact absurd (hfilters.eq_nil hnone) hsome
  | filtered hs hsome =>
    cases h' with
    | bare _ hnone => exact absurd (hfilters.symm.eq_nil hnone) hsome
    | filtered hs' _ =>
      rw [hs] at hs'
      cases hs'
      exact Alike.select ⟨rfl, Iff.rfl, fun _ => Iff.rfl⟩ hfilters hsome

/-- The induction is on the joins of one plan; the other has as many. -/
lemma Joined.alike (hnodup : order.Nodup) (h : Joined scans cs order root)
    (h' : Joined scans cs' order root') : Alike root root' := by
  induction h generalizing root' with
  | scan hscan =>
    cases h' with
    | scan hscan' => exact hscan.alike hclass hclass' hsame hscan'
    | later _ hlen => cases hlen
  | @first f n _ _ _ _ hb hp _ =>
    have hfn : f ≠ n := fun heq => (List.nodup_cons.mp hnodup).1 (List.mem_singleton.mpr heq)
    cases h' with
    | first hb' hp' _ =>
      apply (hb.alike hclass hclass' hsame hb').hashJoin (hp.alike hclass hclass' hsame hp')
      intro k
      exact ⟨same_firstJoinKeys hclass hclass' hsame.keysAmong hfn,
        same_firstJoinKeys hclass' hclass hsame.symm.keysAmong hfn⟩
    | later _ hlen => exact absurd hlen (by simp)
  | later hdone hlen hb _ ih =>
    have hrest := (List.nodup_cons.mp hnodup).2
    cases h' with
    | scan => cases hlen
    | first => exact absurd hlen (by simp)
    | later hdone' _ hb' _ =>
      apply (hb.alike hclass hclass' hsame hb').hashJoin (ih hrest hdone')
      intro k
      exact ⟨same_laterJoinKeys hclass hclass' hsame.keysAmong,
        same_laterJoinKeys hclass' hclass hsame.symm.keysAmong⟩

lemma Planned.alike (hnodup : order.Nodup) (h : Planned scans cs order root)
    (h' : Planned scans cs' order root') : Alike root root' := by
  have hpost := same_postJoin hclass hclass' hsame
  cases h with
  | bare h hnone =>
    cases h' with
    | bare h' _ => exact h.alike hclass hclass' hsame hnodup h'
    | filtered _ hsome => exact absurd (hpost.eq_nil hnone) hsome
  | filtered h hsome =>
    cases h' with
    | bare _ hnone => exact absurd (hpost.symm.eq_nil hnone) hsome
    | filtered h' _ => exact (h.alike hclass hclass' hsame hnodup h').select hpost hsome

end

/-! ### Statements -/

/-- Two outcomes of a query: planning and code generation throw for both, or both plans have the
same list of rows. -/
def SamePlanOutcome (alloc : Nat → Word) (catalog : SQLCatalog) (self : Word) (heap : Heap)
    (stmt stmt' : SelectStmt) : Prop :=
  (Throws alloc catalog self stmt heap ∧ Throws alloc catalog self stmt' heap) ∨
  ∃ result ctx₁ result' ctx₁',
    compileStmt alloc catalog self stmt (initialContext heap) = .ok (result, ctx₁) ∧
    compileStmt alloc catalog self stmt' (initialContext heap) = .ok (result', ctx₁') ∧
    result.root.result result.outputIUs = result'.root.result result'.outputIUs

section

variable {alloc : Nat → Word} {catalog : SQLCatalog} {self : Word} {stmt stmt' : SelectStmt}
  {heap : Heap} {entries : FromEntries} {scans : Scans} {ctx ctx₁ : CompilationContext}

lemma mem_columns_reordered {e e' : Expr} (h : e.Reordered e') (ref : ColumnRef) :
    ref ∈ e.columns ↔ ref ∈ e'.columns := by
  induction h with
  | refl e => exact Iff.rfl
  | symm _ ih => exact ih.symm
  | trans _ _ ih ih' => exact ih.trans ih'
  | comm l r => simp only [Expr.columns, List.mem_append, or_comm]
  | assoc l m r => simp only [Expr.columns, List.mem_append, or_assoc]
  | congr _ _ ihl ihr => simp only [Expr.columns, List.mem_append, ihl, ihr]
  | sides l r => simp only [Expr.columns, List.mem_append, or_comm]

lemma resolves_of_has (hof : ScansOf catalog stmt.fromList scans)
    (hentries : stmt.entries catalog = .ok entries)
    (hnodup : (stmt.fromList.map TableRef.aliasName).Nodup) {ref : ColumnRef}
    (h : entries.Has ref) : ∃ iu, resolveColumn scans ref = .ok iu := by
  obtain ⟨hne, x, hx, hname, hcol⟩ := h
  obtain ⟨s, hs, htable⟩ := (hof.entriesOf hentries hnodup).scan x hx
  rw [hname] at hs
  rw [← htable] at hcol
  obtain ⟨col, hmem, heq⟩ := List.mem_map.mp hcol
  obtain ⟨iu, hiu⟩ := getIU_ok_iff.mpr ⟨col, hmem, answers_own s.table col⟩
  rw [heq] at hiu
  exact ⟨iu, (resolveColumn_iff hne).mpr ⟨s, hs, hiu⟩⟩

lemma columns_of_mem_conjuncts {c : Expr} (hc : c ∈ stmt.conjuncts) {ref : ColumnRef}
    (href : ref ∈ c.columns) : ∃ e ∈ stmt.whereExpr, ref ∈ e.columns := by
  unfold SelectStmt.conjuncts at hc
  cases hw : stmt.whereExpr with
  | none =>
    rw [hw] at hc
    cases hc
  | some e =>
    rw [hw] at hc
    exact ⟨e, rfl, columns_of_mem_flattenAnd hc href⟩

/-- Where the columns exist every conjunct has its class. -/
lemma classify_qualified (hof : ScansOf catalog stmt.fromList scans)
    (hentries : stmt.entries catalog = .ok entries)
    (hnodup : (stmt.fromList.map TableRef.aliasName).Nodup) (hqual : stmt.Qualified entries)
    (aliases : List String) : ∃ cs, classify scans aliases stmt.whereExpr = .ok cs := by
  cases hclass : classify scans aliases stmt.whereExpr with
  | ok cs => exact ⟨cs, rfl⟩
  | error err =>
    obtain ⟨c, hc, l, r, hkey, herr⟩ := classify_error hclass
    obtain ⟨rfl, hl, hr, -⟩ := keyColumns_iff.mp hkey
    have hresolves : ∀ ref ∈ [l, r], ∃ iu, resolveColumn scans ref = .ok iu := by
      intro ref href
      obtain ⟨e, he, hmem⟩ := columns_of_mem_conjuncts hc href
      exact resolves_of_has hof hentries hnodup (hqual.whereExpr e he ref hmem)
    obtain ⟨lIU, hlIU⟩ := hresolves l List.mem_cons_self
    obtain ⟨rIU, hrIU⟩ := hresolves r (List.mem_cons_of_mem _ List.mem_cons_self)
    obtain ⟨jk, hjk⟩ := @makeJoinKey_ok scans aliases l r hl hr lIU rIU hlIU hrIU
    rw [hjk] at herr
    cases herr

lemma qualified_known (hentries : stmt.entries catalog = .ok entries)
    (hqual : stmt.Qualified entries) : KnownAliases stmt := by
  intro c hc _ a ha
  obtain ⟨-, ref, href, rfl⟩ := mem_conjunctAliases.mp ha
  obtain ⟨e, he, hmem⟩ := columns_of_mem_conjuncts hc href
  obtain ⟨-, x, hx, hname, -⟩ := hqual.whereExpr e he ref hmem
  rw [← entries_aliases hentries, ← hname]
  exact List.mem_map_of_mem hx

/-- With its scans created, a statement is planned when its conjuncts are classified and its SELECT
list is resolved. -/
lemma plan_ok_iff (hne : stmt.fromList ≠ [])
    (hscans : createScans catalog stmt.fromList [] ctx = .ok (scans, ctx₁)) :
    (∃ r, plan alloc catalog stmt ctx = .ok r) ↔
      (∃ cs, classify scans (stmt.fromList.map TableRef.aliasName) stmt.whereExpr = .ok cs) ∧
      ∃ output, resolveSelectList scans (stmt.fromList.map TableRef.aliasName) stmt.selectList =
        .ok output := by
  constructor
  · rintro ⟨⟨result, ctx'⟩, hplan⟩
    obtain ⟨scans', cs, hof, -⟩ := plan_spec hplan
    obtain ⟨ctx₂, hscans', -⟩ := hof.created
    rw [hscans] at hscans'
    cases hscans'
    obtain ⟨output, houtput, -⟩ := hof.output
    exact ⟨⟨cs, hof.classified⟩, output, houtput⟩
  · rintro ⟨⟨cs, hclass⟩, output, houtput⟩
    cases hplan : plan alloc catalog stmt ctx with
    | ok r => exact ⟨r, rfl⟩
    | error err =>
      rcases plan_error hne hplan with hfail | ⟨scans', ctx₂, hscans', hfail⟩
      · rw [hscans] at hfail
        cases hfail
      rw [hscans] at hscans'
      cases hscans'
      rcases hfail with hfail | hfail
      · rw [hclass] at hfail
        cases hfail
      · rw [houtput] at hfail
        cases hfail

/-- Planning a qualified statement fails for its FROM or SELECT list only. -/
lemma plan_qualified_iff (hne : stmt.fromList ≠ [])
    (hnodup : (stmt.fromList.map TableRef.aliasName).Nodup)
    (hentries : stmt.entries catalog = .ok entries) (hqual : stmt.Qualified entries)
    (hscans : createScans catalog stmt.fromList [] ctx = .ok (scans, ctx₁)) :
    (∃ r, plan alloc catalog stmt ctx = .ok r) ↔ ∃ output,
      resolveSelectList scans (stmt.fromList.map TableRef.aliasName) stmt.selectList = .ok output := by
  rw [plan_ok_iff hne hscans]
  exact and_iff_right
    (classify_qualified (createScans_scansOf hscans).1 hentries hnodup hqual _)

/-- What is compiled: a plan in scope whose output is not too wide. -/
lemma compileStmt_ok_iff (hbase : ((stmt.fromList.map TableRef.aliasName).take 2).Nodup)
    {result : PlanResult}
    (hplan : plan alloc catalog stmt (initialContext heap) = .ok (result, ctx₁)) :
    (∃ ctx', compileStmt alloc catalog self stmt (initialContext heap) = .ok (result, ctx')) ↔
      result.root.Scoped ∧ result.outputIUs.length ≤ 8 ∧
        ∀ iu ∈ result.outputIUs, iu.id ∈ result.root.outputIUs.map IU.id := by
  obtain ⟨scans, cs, hof, hprogram, -⟩ := plan_spec hplan
  have hprogram' : ctx₁.program = queryProgram := hprogram
  have hdistinct := hof.root.distinct (joinBase_joinOrder _ ▸ hbase)
  rw [← generateCode_ok_iff result.root self result.outputIUs hdistinct
    (hof.root.raises fun _ _ _ => trivial) (hprogram' ▸ queryProgram_valid)
    (hprogram' ▸ queryProgram_open)]
  have hrun : compileStmt alloc catalog self stmt (initialContext heap) =
      (generateCode result.root self result.outputIUs >>= fun _ => pure result) ctx₁ :=
    run_bind_of_ok hplan
  rw [hrun]
  constructor
  · rintro ⟨ctx', h⟩
    obtain ⟨⟨⟩, ctx₂, hgen, -⟩ := run_bind_ok h
    exact ⟨ctx₂, hgen⟩
  · rintro ⟨ctx', hgen⟩
    exact ⟨ctx', run_bind_of_ok hgen⟩

/-- Two plans of the same tables have the same scans. -/
lemma PlanOf.sameScans (hfrom : stmt'.fromList = stmt.fromList) {result result' : PlanResult}
    {scans' : Scans} {cs cs' : Conjuncts} (h : PlanOf catalog stmt ctx result scans cs)
    (h' : PlanOf catalog stmt' ctx result' scans' cs') : scans' = scans := by
  obtain ⟨ctx₁, hscans, -⟩ := h.created
  obtain ⟨ctx₂, hscans', -⟩ := h'.created
  rw [hfrom, hscans] at hscans'
  cases hscans'
  rfl

/-- Two plans of the same tables for the same conjuncts. -/
lemma PlanOf.alike (hnodup : (stmt.fromList.map TableRef.aliasName).Nodup)
    (hfrom : stmt'.fromList = stmt.fromList)
    (hsame : SameConjuncts scans stmt.conjuncts stmt'.conjuncts) {result result' : PlanResult}
    {cs cs' : Conjuncts} (h : PlanOf catalog stmt ctx result scans cs)
    (h' : PlanOf catalog stmt' ctx result' scans cs') : Alike result.root result'.root := by
  have hroot' := h'.root
  rw [hfrom] at hroot'
  exact h.root.alike (classify_spec h.classified) (classify_spec h'.classified) hsame
    ((joinOrder_perm _).nodup_iff.mpr hnodup) hroot'

/-- Two plans whose SELECT lists resolve to the same IUs. -/
lemma PlanOf.sameOutput (hfrom : stmt'.fromList = stmt.fromList)
    (hselect : resolveSelectList scans (stmt.fromList.map TableRef.aliasName) stmt'.selectList =
      resolveSelectList scans (stmt.fromList.map TableRef.aliasName) stmt.selectList)
    {result result' : PlanResult} {cs cs' : Conjuncts}
    (h : PlanOf catalog stmt ctx result scans cs)
    (h' : PlanOf catalog stmt' ctx result' scans cs') : result'.outputIUs = result.outputIUs := by
  obtain ⟨output, houtput, hius⟩ := h.output
  obtain ⟨output', houtput', hius'⟩ := h'.output
  rw [hfrom, hselect, houtput] at houtput'
  cases houtput'
  rw [hius, hius']

lemma throws_of_unplanned (hne : stmt.fromList ≠ []) (hknown : KnownAliases stmt)
    (h : ¬ ∃ r, plan alloc catalog stmt (initialContext heap) = .ok r) :
    Throws alloc catalog self stmt heap := by
  cases hplan : plan alloc catalog stmt (initialContext heap) with
  | ok r => exact absurd ⟨r, hplan⟩ h
  | error e =>
    have hrun : compileStmt alloc catalog self stmt (initialContext heap) = .error e :=
      run_bind_of_error hplan
    exact ⟨e, hrun, plan_thrown hne hknown hplan⟩

lemma throws_of_rejected (hne : stmt.fromList ≠ []) (hknown : KnownAliases stmt)
    {result : PlanResult} (hplan : plan alloc catalog stmt (initialContext heap) = .ok (result, ctx₁))
    (hnot : ¬ ∃ ctx', compileStmt alloc catalog self stmt (initialContext heap) =
      .ok (result, ctx')) : Throws alloc catalog self stmt heap := by
  cases hrun : compileStmt alloc catalog self stmt (initialContext heap) with
  | error e => exact ⟨e, hrun, compileStmt_thrown hne hknown hrun⟩
  | ok r =>
    obtain ⟨plan, ctx₂, hplan₂, hrest⟩ := run_bind_ok hrun
    rw [hplan] at hplan₂
    cases hplan₂
    obtain ⟨⟨⟩, ctx₃, -, hpure⟩ := run_bind_ok hrest
    cases hpure
    exact absurd ⟨_, hrun⟩ hnot

/-- Both statements are planned: both are compiled, or neither is. -/
lemma samePlanOutcome_of_plans (hne : stmt.fromList ≠ [])
    (hnodup : (stmt.fromList.map TableRef.aliasName).Nodup)
    (hfrom : stmt'.fromList = stmt.fromList) (hselect : stmt'.selectList = stmt.selectList)
    (hsame : ∀ scans, SameConjuncts scans stmt.conjuncts stmt'.conjuncts)
    (hknown : KnownAliases stmt) (hknown' : KnownAliases stmt') {result result' : PlanResult}
    {ctx₁' : CompilationContext}
    (hplan : plan alloc catalog stmt (initialContext heap) = .ok (result, ctx₁))
    (hplan' : plan alloc catalog stmt' (initialContext heap) = .ok (result', ctx₁')) :
    SamePlanOutcome alloc catalog self heap stmt stmt' := by
  obtain ⟨scans, cs, hof, -⟩ := plan_spec hplan
  obtain ⟨scans', cs', hof', -⟩ := plan_spec hplan'
  obtain rfl := hof.sameScans hfrom hof'
  have halike := hof.alike hnodup hfrom (hsame scans') hof'
  have hius := hof.sameOutput hfrom (by rw [hselect]) hof'
  have hbase := hnodup.sublist (List.take_sublist 2 _)
  have hok := @compileStmt_ok_iff alloc catalog self stmt heap ctx₁ hbase result hplan
  have hok' := @compileStmt_ok_iff alloc catalog self stmt' heap ctx₁' (hfrom.symm ▸ hbase)
    result' hplan'
  rw [hius, ← halike.inScope] at hok'
  simp only [← halike.mem_ids] at hok'
  rw [← hok] at hok'
  by_cases hcompiles : ∃ ctx', compileStmt alloc catalog self stmt (initialContext heap) =
      .ok (result, ctx')
  · obtain ⟨ctx₂, hrun⟩ := hcompiles
    obtain ⟨ctx₂', hrun'⟩ := hok'.mpr ⟨ctx₂, hrun⟩
    refine .inr ⟨result, ctx₂, result', ctx₂', hrun, hrun', ?_⟩
    rw [Operator.result, Operator.result, halike.rows, hius]
  · exact .inl ⟨throws_of_rejected hne hknown hplan hcompiles,
      throws_of_rejected (hfrom.symm ▸ hne) hknown' hplan' fun h => hcompiles (hok'.mp h)⟩

/-- The written order of the WHERE clause does not matter: the order and the nesting of its
top-level conjuncts, and the sides of its equalities. -/
theorem compileStmt_reordered (alloc : Nat → Word) (catalog : SQLCatalog) (self : Word) (heap : Heap)
    (stmt : SelectStmt) (e e' : Expr) (hne : stmt.fromList ≠ [])
    (hnodup : (stmt.fromList.map TableRef.aliasName).Nodup)
    (hqual : ∀ entries, stmt.entries catalog = .ok entries → stmt.Qualified entries)
    (hwhere : stmt.whereExpr = some e) (hreordered : e.Reordered e') :
    SamePlanOutcome alloc catalog self heap stmt { stmt with whereExpr := some e' } := by
  generalize hstmt' : ({ stmt with whereExpr := some e' } : SelectStmt) = stmt'
  have hfrom : stmt'.fromList = stmt.fromList := by rw [← hstmt']
  have hselect : stmt'.selectList = stmt.selectList := by rw [← hstmt']
  have hsame : ∀ scans, SameConjuncts scans stmt.conjuncts stmt'.conjuncts := by
    intro scans
    rw [← hstmt', SelectStmt.conjuncts, hwhere]
    exact flattenAnd_reordered hreordered
  have hne' : stmt'.fromList ≠ [] := hfrom.symm ▸ hne
  have hnodup' : (stmt'.fromList.map TableRef.aliasName).Nodup := hfrom.symm ▸ hnodup
  cases hscans : createScans catalog stmt.fromList [] (initialContext heap) with
  | error err =>
    -- an unknown table
    have hthrown := createScans_thrown hscans
    have hscans' := hfrom.symm ▸ hscans
    exact .inl ⟨⟨err, run_bind_of_error (run_bind_of_error hscans), hthrown⟩,
      ⟨err, run_bind_of_error (run_bind_of_error hscans'), hthrown⟩⟩
  | ok r =>
    obtain ⟨scans, ctx₁⟩ := r
    obtain ⟨entries, hentries⟩ := createScans_entries hscans
    have hentries' : stmt'.entries catalog = .ok entries := by
      rw [SelectStmt.entries, hfrom]
      exact hentries
    have hqual₁ := hqual entries hentries
    have hqual' : stmt'.Qualified entries := by
      constructor
      · rw [SelectStmt.outputColumns, hselect]
        exact hqual₁.selectList
      · rw [← hstmt']
        rintro _ ⟨⟩ ref href
        exact hqual₁.whereExpr e hwhere ref ((mem_columns_reordered hreordered ref).mpr href)
    have hknown := qualified_known hentries hqual₁
    have hknown' := qualified_known hentries' hqual'
    have hplans : (∃ r, plan alloc catalog stmt (initialContext heap) = .ok r) ↔
        ∃ r, plan alloc catalog stmt' (initialContext heap) = .ok r := by
      rw [plan_qualified_iff hne hnodup hentries hqual₁ hscans,
        plan_qualified_iff hne' hnodup' hentries' hqual' (hfrom.symm ▸ hscans), hfrom, hselect]
    by_cases hplanned : ∃ r, plan alloc catalog stmt (initialContext heap) = .ok r
    · obtain ⟨⟨result', ctx₂'⟩, hplan'⟩ := hplans.mp hplanned
      obtain ⟨⟨result, ctx₂⟩, hplan⟩ := hplanned
      exact samePlanOutcome_of_plans hne hnodup hfrom hselect hsame hknown hknown' hplan hplan'
    · have hplanned' := fun h => hplanned (hplans.mpr h)
      exact .inl ⟨throws_of_unplanned hne hknown hplanned, throws_of_unplanned hne' hknown' hplanned'⟩

end

/-- `a.y = b.x AND b.y > 5` is written as `b.y > 5 AND b.x = a.y`. -/
theorem compileStmt_reordered_pair :
    SamePlanOutcome (fun _ => 16384) [pairTable] 8192 emptyHeap pairStmt { pairStmt with
      whereExpr := some (.binOp .and (.binOp .gt (.colRef ⟨"b", "y"⟩) (.intLit 5))
        (.binOp .eq (.colRef ⟨"b", "x"⟩) (.colRef ⟨"a", "y"⟩))) } := by
  apply compileStmt_reordered (fun _ => 16384) [pairTable] 8192 emptyHeap pairStmt _ _
    (List.cons_ne_nil _ _) (by decide +kernel)
  · intro entries hentries
    cases hentries
    exact pairStmt_qualified
  · rfl
  · exact (Expr.Reordered.comm _ _).trans (.congr (.refl _) (.sides _ _))

end Proofs

end TidyTuples
