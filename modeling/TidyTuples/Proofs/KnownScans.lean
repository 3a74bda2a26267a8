import TidyTuples.Proofs.Acceptance
import TidyTuples.Proofs.Resolution

/-!
# The scans that planning touches

Names are checked on every route but one: a join key takes its scans from the map without asking
whether they are there.
-/

namespace TidyTuples

namespace FromEntries

/-- The alias of the column is no FROM alias. -/
def Unknown (entries : FromEntries) (ref : ColumnRef) : Prop := entries.tableOf ref.tableAlias = none

/-- The alias is known, but its table has no column that answers. -/
def Lacks (entries : FromEntries) (ref : ColumnRef) : Prop :=
  ∃ table, entries.tableOf ref.tableAlias = some table ∧
    ∀ col ∈ table.columns, ¬ table.Answers col ref.colName

end FromEntries

/-- The columns that the SELECT list and WHERE name. -/
def SelectStmt.references (stmt : SelectStmt) : List ColumnRef :=
  (stmt.selectList.flatMap fun
    | .star => []
    | .item expr _ => expr.columns) ++ stmt.conjuncts.flatMap Expr.columns

namespace Proofs

open QueryPlanner

/-- A join key with a column that its table lacks. -/
def KeyLacks (entries : FromEntries) (c : Expr) : Prop :=
  ∃ l r, keyColumns c = some (l, r) ∧ (entries.Lacks l ∨ entries.Lacks r)

/-- A join key with an alias that is no FROM alias. -/
def KeyUnknown (entries : FromEntries) (c : Expr) : Prop :=
  ∃ l r, keyColumns c = some (l, r) ∧ (entries.Unknown l ∨ entries.Unknown r)

/-- At the first join key with an unknown alias, or before it, a known table lacks a column. -/
def KeysKnown (entries : FromEntries) (conjuncts : List Expr) : Prop :=
  ∀ pre c post, conjuncts = pre ++ c :: post → KeyUnknown entries c →
    ∃ c' ∈ pre ++ [c], KeyLacks entries c'

/-- The statement names a column under an alias that is no FROM alias. -/
def NamesUnknown (stmt : SelectStmt) : Prop :=
  ∃ ref ∈ stmt.references, ref.tableAlias ≠ "" ∧
    ref.tableAlias ∉ stmt.fromList.map TableRef.aliasName

/-- Every alias that a scan is looked up for names a FROM entry, what fails throws, and an unknown
alias makes the statement fail. -/
structure TouchesKnownScans (alloc : Nat → Word) (catalog : SQLCatalog) (printer : Word)
    (stmt : SelectStmt) (heap : Heap) : Prop where
  planning : ∀ e, plan alloc catalog stmt (initialContext heap) = .error e → e.Thrown
  keys : ∀ result, plan alloc catalog stmt (initialContext heap) = .ok result →
    ∀ c ∈ stmt.conjuncts, ∀ l r, keyColumns c = some (l, r) →
      l.tableAlias ∈ stmt.fromList.map TableRef.aliasName ∧
      r.tableAlias ∈ stmt.fromList.map TableRef.aliasName
  aliases : ∀ scans ctx, createScans catalog stmt.fromList [] (initialContext heap) =
    .ok (scans, ctx) → ∀ ref,
    (∀ a, resolveAlias scans ref = .ok a → a ∈ stmt.fromList.map TableRef.aliasName) ∧
    ∀ e, resolveAlias scans ref = .error e → e.Thrown
  columns : ∀ scans ctx, createScans catalog stmt.fromList [] (initialContext heap) =
    .ok (scans, ctx) → ∀ ref,
    (∀ iu, resolveColumn scans ref = .ok iu → ∃ a ∈ stmt.fromList.map TableRef.aliasName,
      ∃ s, scans.lookup a = some s ∧ iu ∈ s.colIUs) ∧
    ∀ e, resolveColumn scans ref = .error e → e.Thrown
  unknown : NamesUnknown stmt →
    ∃ e, compileStmt alloc catalog printer stmt (initialContext heap) = .error e ∧ e.Thrown

section

variable {catalog : SQLCatalog} {stmt : SelectStmt} {entries : FromEntries} {scans scans' : Scans}
  {ctx ctx' : CompilationContext} {ref l r : ColumnRef} {aliases : List String} {c : Expr}

/-! ### The scan of an alias -/

lemma mem_scans_lookup {a : String} (h : a ∈ scans.map Prod.fst) : ∃ s, scans.lookup a = some s := by
  obtain ⟨x, hx, rfl⟩ := List.mem_map.mp h
  cases hlookup : scans.lookup x.1 with
  | some s => exact ⟨s, rfl⟩
  | none =>
    have hne := List.lookup_eq_none_iff.mp hlookup x hx
    simp at hne

/-- The search finds one of the scans. -/
lemma searchScans_mem {colName found a : String} (h : searchScans colName scans found = .ok a) :
    a = found ∧ found ≠ "" ∨ a ∈ scans.map Prod.fst := by
  induction scans generalizing found with
  | nil =>
    unfold searchScans at h
    split_ifs at h with hfound
    · cases h
    · exact .inl ⟨(Except.ok.inj h).symm, hfound⟩
  | cons x rest ih =>
    have hrest : searchScans colName rest found = .ok a →
        a = found ∧ found ≠ "" ∨ a ∈ (x :: rest).map Prod.fst := fun hsearch =>
      (ih hsearch).imp_right fun hmem => List.mem_cons_of_mem x.1 hmem
    unfold searchScans at h
    split at h
    · exact hrest h
    · split_ifs at h with hempty
      · -- this scan is the first one that has the column
        apply Or.inr
        rcases ih h with ⟨rfl, -⟩ | hmem
        · exact List.mem_cons_self
        · exact List.mem_cons_of_mem x.1 hmem
      · dsimp only at h
        split_ifs at h
        · exact hrest h
        · cases h

lemma resolveAlias_lookup {a : String} (h : resolveAlias scans ref = .ok a) :
    ∃ s, scans.lookup a = some s := by
  unfold resolveAlias at h
  split_ifs at h with hne
  · split at h
    · rename_i s hs
      cases h
      exact ⟨s, hs⟩
    · cases h
  · rcases searchScans_mem h with ⟨-, hempty⟩ | hmem
    · exact absurd rfl hempty
    · exact mem_scans_lookup hmem

lemma resolveAlias_thrown {e : CppError} (h : resolveAlias scans ref = .error e) : e.Thrown := by
  unfold resolveAlias at h
  split_ifs at h
  · split at h
    · cases h
    · cases h
      exact ⟨_, rfl⟩
  · exact searchScans_thrown h

lemma resolveColumn_lookup {iu : IU} (h : resolveColumn scans ref = .ok iu) :
    ∃ a s, scans.lookup a = some s ∧ iu ∈ s.colIUs := by
  rcases resolveColumn_cases scans ref with ⟨e, -, -, heq⟩ | ⟨a, ⟨s, hs, heq⟩ | heq⟩
  · cases heq.symm.trans h
  · exact ⟨a, s, hs, getIU_mem (heq.symm.trans h)⟩
  · cases heq.symm.trans h

/-! ### Join keys -/

/-- What `scans[alias]->getIU(colName)` comes to. -/
lemma scanIU_cases (ref : ColumnRef)
    (htables : ∀ a, (scans.lookup a).map ScanTranslator.table = entries.tableOf a) :
    (entries.Unknown ref → ∃ e, scanIU scans ref.tableAlias ref.colName = .error e ∧ ¬ e.Thrown) ∧
    (entries.Lacks ref → ∃ e, scanIU scans ref.tableAlias ref.colName = .error e ∧ e.Thrown) ∧
    (¬ entries.Unknown ref → ¬ entries.Lacks ref →
      ∃ iu, scanIU scans ref.tableAlias ref.colName = .ok iu) := by
  unfold FromEntries.Unknown FromEntries.Lacks scanIU
  rw [← htables]
  cases scans.lookup ref.tableAlias with
  | none =>
    refine ⟨fun _ => ⟨.undefinedBehaviour "null ScanTranslator", rfl, ?_⟩, ?_, fun h => absurd rfl h⟩
    · rintro ⟨what, hwhat⟩
      cases hwhat
    · rintro ⟨table, htable, -⟩
      cases htable
  | some s =>
    refine ⟨fun h => (by cases h), ?_, fun _ hlacks => ?_⟩
    · rintro ⟨table, htable, hnone⟩
      cases htable
      cases hget : s.getIU ref.colName with
      | error e => exact ⟨e, hget, getIU_thrown hget⟩
      | ok iu =>
        obtain ⟨col, hcol, hanswers⟩ := getIU_ok_iff.mp ⟨iu, hget⟩
        exact absurd hanswers (hnone col hcol)
    · apply getIU_ok_iff.mpr
      by_contra hnone
      exact hlacks ⟨s.table, rfl, fun col hcol hanswers => hnone ⟨col, hcol, hanswers⟩⟩

/-- `scans[alias]->getIU(colName)` for two columns, one after the other. -/
def keyInOrder (scans : Scans) (x y : ColumnRef) : Except CppError JoinKey := do
  let buildIU ← scanIU scans x.tableAlias x.colName
  let probeIU ← scanIU scans y.tableAlias y.colName
  return ⟨x.tableAlias, y.tableAlias, buildIU, probeIU⟩

/-- What a join key comes to, in terms of the FROM entries. -/
structure KeyOutcome (entries : FromEntries) (l r : ColumnRef) (jk : Except CppError JoinKey) :
    Prop where
  lacks : entries.Lacks l ∨ entries.Lacks r → ∃ e, jk = .error e ∧ e.Thrown
  unknown : ¬ (entries.Lacks l ∨ entries.Lacks r) → entries.Unknown l ∨ entries.Unknown r →
    ∃ e, jk = .error e ∧ ¬ e.Thrown
  found : ¬ (entries.Lacks l ∨ entries.Lacks r) → ¬ (entries.Unknown l ∨ entries.Unknown r) →
    ∃ key, jk = .ok key

lemma KeyOutcome.swap {jk : Except CppError JoinKey} (h : KeyOutcome entries r l jk) :
    KeyOutcome entries l r jk :=
  ⟨fun hlacks => h.lacks hlacks.symm,
    fun hlacks hunknown => h.unknown (fun hrl => hlacks hrl.symm) hunknown.symm,
    fun hlacks hunknown => h.found (fun hrl => hlacks hrl.symm) fun hrl => hunknown hrl.symm⟩

lemma unknown_not_lacks (h : entries.Unknown ref) : ¬ entries.Lacks ref := by
  rintro ⟨table, htable, -⟩
  rw [h] at htable
  cases htable

/-- A side with an unknown alias is asked last, unless both aliases are unknown. -/
lemma keyInOrder_outcome
    (htables : ∀ a, (scans.lookup a).map ScanTranslator.table = entries.tableOf a)
    (hlast : entries.Unknown l → entries.Unknown r) :
    KeyOutcome entries l r (keyInOrder scans l r) := by
  obtain ⟨hl₁, hl₂, hl₃⟩ := scanIU_cases l htables
  obtain ⟨hr₁, hr₂, hr₃⟩ := scanIU_cases r htables
  by_cases hlu : entries.Unknown l
  · obtain ⟨e, he, hnot⟩ := hl₁ hlu
    have hkey : keyInOrder scans l r = .error e := by
      rw [keyInOrder, he]
      rfl
    have hnone : ¬ (entries.Lacks l ∨ entries.Lacks r) := by
      rintro (hlacks | hlacks)
      · exact unknown_not_lacks hlu hlacks
      · exact unknown_not_lacks (hlast hlu) hlacks
    exact ⟨fun h => absurd h hnone, fun _ _ => ⟨e, hkey, hnot⟩, fun _ h => absurd (.inl hlu) h⟩
  by_cases hll : entries.Lacks l
  · obtain ⟨e, he, hthrown⟩ := hl₂ hll
    have hkey : keyInOrder scans l r = .error e := by
      rw [keyInOrder, he]
      rfl
    exact ⟨fun _ => ⟨e, hkey, hthrown⟩, fun h => absurd (.inl hll) h, fun h => absurd (.inl hll) h⟩
  obtain ⟨x, hx⟩ := hl₃ hlu hll
  have hkey : keyInOrder scans l r = do
      let probeIU ← scanIU scans r.tableAlias r.colName
      return ⟨l.tableAlias, r.tableAlias, x, probeIU⟩ := by
    rw [keyInOrder, hx]
    rfl
  rw [hkey]
  by_cases hru : entries.Unknown r
  · obtain ⟨e, he, hnot⟩ := hr₁ hru
    rw [he]
    refine ⟨?_, fun _ _ => ⟨e, rfl, hnot⟩, fun _ h => absurd (.inr hru) h⟩
    rintro (hlacks | hlacks)
    · exact absurd hlacks hll
    · exact absurd hlacks (unknown_not_lacks hru)
  by_cases hrl : entries.Lacks r
  · obtain ⟨e, he, hthrown⟩ := hr₂ hrl
    rw [he]
    exact ⟨fun _ => ⟨e, rfl, hthrown⟩, fun h => absurd (.inr hrl) h, fun h => absurd (.inr hrl) h⟩
  obtain ⟨y, hy⟩ := hr₃ hru hrl
  rw [hy]
  exact ⟨fun h => absurd h (not_or.mpr ⟨hll, hrl⟩), fun _ h => absurd h (not_or.mpr ⟨hlu, hru⟩),
    fun _ _ => ⟨_, rfl⟩⟩

/-- The known side of a join key is asked first. -/
lemma makeJoinKey_outcome
    (htables : ∀ a, (scans.lookup a).map ScanTranslator.table = entries.tableOf a)
    (haliases : ∀ a, entries.tableOf a = none ↔ a ∉ aliases) (hl : l.tableAlias ≠ "")
    (hr : r.tableAlias ≠ "") : KeyOutcome entries l r (makeJoinKey scans aliases l r) := by
  have hlast : ∀ {x y : ColumnRef}, aliases.idxOf x.tableAlias ≤ aliases.idxOf y.tableAlias →
      entries.Unknown x → entries.Unknown y := by
    intro x y hle hx
    have hxout := List.idxOf_of_notMem ((haliases _).mp hx)
    apply (haliases _).mpr
    intro hy
    have hlt := List.idxOf_lt_length_of_mem hy
    omega
  rw [makeJoinKey_eq hl hr]
  split_ifs with hle
  · exact keyInOrder_outcome htables (hlast hle)
  · apply KeyOutcome.swap
    exact keyInOrder_outcome htables (hlast (by omega))

/-! ### The classification -/

lemma foldlM_append_error {α β : Type} {f : β → α → Except CppError β} {xs : List α} {init : β}
    {e : CppError} (h : xs.foldlM f init = .error e) : ∃ pre x post acc, xs = pre ++ x :: post ∧
      pre.foldlM f init = .ok acc ∧ f acc x = .error e := by
  induction xs generalizing init with
  | nil => cases h
  | cons x rest ih =>
    rw [List.foldlM_cons] at h
    cases hx : f init x with
    | error e' =>
      rw [hx] at h
      cases h
      exact ⟨[], x, rest, init, rfl, rfl, hx⟩
    | ok acc =>
      rw [hx] at h
      obtain ⟨pre, y, post, acc', rfl, hpre, hy⟩ := ih h
      refine ⟨x :: pre, y, post, acc', rfl, ?_, hy⟩
      rw [List.foldlM_cons, hx]
      exact hpre

lemma foldlM_each_ok {α β : Type} {f : β → α → Except CppError β} {xs : List α} {init acc : β}
    (h : xs.foldlM f init = .ok acc) : ∀ x ∈ xs, ∃ acc₁ acc₂, f acc₁ x = .ok acc₂ := by
  induction xs generalizing init with
  | nil => exact fun _ hx => absurd hx List.not_mem_nil
  | cons x rest ih =>
    rw [List.foldlM_cons] at h
    cases hx : f init x with
    | error e =>
      rw [hx] at h
      cases h
    | ok acc₁ =>
      rw [hx] at h
      intro y hy
      rcases List.mem_cons.mp hy with rfl | hy
      · exact ⟨init, acc₁, hx⟩
      · exact ih h y hy

lemma classifyConjunct_key {cs : Conjuncts} (hkey : keyColumns c = some (l, r)) :
    classifyConjunct scans aliases cs c = (do
      let jk ← makeJoinKey scans aliases l r
      return { cs with joinKeys := cs.joinKeys ++ [jk] }) := by
  unfold keyColumns at hkey
  split_ifs at hkey with htwo
  obtain ⟨a, b, hab⟩ := List.length_eq_two.mp htwo
  unfold classifyConjunct
  rw [hab, hkey]

lemma classifyConjunct_error {cs : Conjuncts} {e : CppError}
    (h : classifyConjunct scans aliases cs c = .error e) :
    ∃ l r, keyColumns c = some (l, r) ∧ makeJoinKey scans aliases l r = .error e := by
  cases hkey : keyColumns c with
  | some key =>
    refine ⟨key.1, key.2, rfl, ?_⟩
    rw [classifyConjunct_key hkey] at h
    cases hjk : makeJoinKey scans aliases key.1 key.2 with
    | error e' =>
      rw [hjk] at h
      cases h
      rfl
    | ok jk =>
      rw [hjk] at h
      cases h
  | none =>
    unfold classifyConjunct at h
    split at h
    · cases h
    · rename_i a b l r hab heq
      rw [keyColumns, hab, if_pos (by rfl), heq] at hkey
      cases hkey
    · cases h

/-- A key that is classified has known aliases and its columns. -/
lemma classified_key {cs cs' : Conjuncts}
    (hout : ∀ {l r : ColumnRef}, l.tableAlias ≠ "" → r.tableAlias ≠ "" →
      KeyOutcome entries l r (makeJoinKey scans aliases l r))
    (h : classifyConjunct scans aliases cs c = .ok cs') :
    ¬ KeyLacks entries c ∧ ¬ KeyUnknown entries c := by
  have hok : ∀ l r, keyColumns c = some (l, r) → ∃ jk, makeJoinKey scans aliases l r = .ok jk := by
    intro l r hkey
    rw [classifyConjunct_key hkey] at h
    cases hjk : makeJoinKey scans aliases l r with
    | error e =>
      rw [hjk] at h
      cases h
    | ok jk => exact ⟨jk, rfl⟩
  have hlacks : ¬ KeyLacks entries c := by
    rintro ⟨l, r, hkey, hlacks⟩
    obtain ⟨-, hl, hr, -⟩ := keyColumns_iff.mp hkey
    obtain ⟨jk, hjk⟩ := hok l r hkey
    obtain ⟨e, he, -⟩ := (hout hl hr).lacks hlacks
    rw [hjk] at he
    cases he
  refine ⟨hlacks, ?_⟩
  rintro ⟨l, r, hkey, hunknown⟩
  obtain ⟨-, hl, hr, -⟩ := keyColumns_iff.mp hkey
  obtain ⟨jk, hjk⟩ := hok l r hkey
  obtain ⟨e, he, -⟩ := (hout hl hr).unknown (fun h' => hlacks ⟨l, r, hkey, h'⟩) hunknown
  rw [hjk] at he
  cases he

/-- The first key that is not classified lacks a column or has an unknown alias. -/
lemma unclassified_key {cs : Conjuncts} {e : CppError}
    (hout : ∀ {l r : ColumnRef}, l.tableAlias ≠ "" → r.tableAlias ≠ "" →
      KeyOutcome entries l r (makeJoinKey scans aliases l r))
    (h : classifyConjunct scans aliases cs c = .error e) :
    KeyLacks entries c ∧ e.Thrown ∨ ¬ KeyLacks entries c ∧ KeyUnknown entries c ∧ ¬ e.Thrown := by
  obtain ⟨l, r, hkey, hjk⟩ := classifyConjunct_error h
  obtain ⟨-, hl, hr, -⟩ := keyColumns_iff.mp hkey
  have houtcome := hout hl hr
  rw [hjk] at houtcome
  by_cases hlacks : entries.Lacks l ∨ entries.Lacks r
  · obtain ⟨e', he', hthrown⟩ := houtcome.lacks hlacks
    cases he'
    exact .inl ⟨⟨l, r, hkey, hlacks⟩, hthrown⟩
  have hnone : ¬ KeyLacks entries c := by
    rintro ⟨l', r', hkey', hlacks'⟩
    rw [hkey] at hkey'
    cases hkey'
    exact hlacks hlacks'
  by_cases hunknown : entries.Unknown l ∨ entries.Unknown r
  · obtain ⟨e', he', hnot⟩ := houtcome.unknown hlacks hunknown
    cases he'
    exact .inr ⟨hnone, ⟨l, r, hkey, hunknown⟩, hnot⟩
  · obtain ⟨jk, hjk'⟩ := houtcome.found hlacks hunknown
    cases hjk'

/-- The classification throws or succeeds if and only if the keys are known in time. -/
lemma classify_thrown_iff
    (hout : ∀ {l r : ColumnRef}, l.tableAlias ≠ "" → r.tableAlias ≠ "" →
      KeyOutcome entries l r (makeJoinKey scans aliases l r)) (conjs : List Expr) :
    (∀ e, conjs.foldlM (classifyConjunct scans aliases) {} = .error e → e.Thrown) ↔
      KeysKnown entries conjs := by
  constructor
  · intro hthrown pre c post hsplit hunknown
    by_contra hnone
    have hnot : ∀ c' ∈ pre ++ [c], ¬ KeyLacks entries c' := fun c' hc' h => hnone ⟨c', hc', h⟩
    cases hfold : conjs.foldlM (classifyConjunct scans aliases) {} with
    | ok cs =>
      have hc : c ∈ conjs := by simp [hsplit]
      obtain ⟨cs₁, cs₂, hstep⟩ := foldlM_each_ok hfold c hc
      exact (classified_key hout hstep).2 hunknown
    | error e =>
      obtain ⟨pre', c', post', cs, hsplit', hpre', herr⟩ := foldlM_append_error hfold
      rcases unclassified_key hout herr with ⟨hlacks, -⟩ | ⟨-, -, hbad⟩
      · -- the conjunct that lacks a column comes later, so `c` was classified
        have hlater : c ∈ pre' := by
          rw [hsplit] at hsplit'
          rcases List.append_eq_append_iff.mp hsplit' with ⟨mid, rfl, hmid⟩ | ⟨mid, rfl, hmid⟩
          · cases mid with
            | nil =>
              rw [(List.cons.inj hmid).1] at hnot
              exact absurd hlacks (hnot c' (by simp))
            | cons d mid =>
              rw [(List.cons.inj hmid).1]
              simp
          · cases mid with
            | nil =>
              rw [← (List.cons.inj hmid).1] at hnot
              exact absurd hlacks (hnot c' (by simp))
            | cons d mid =>
              rw [← (List.cons.inj hmid).1] at hnot
              exact absurd hlacks (hnot c' (by simp))
        obtain ⟨cs₁, cs₂, hstep⟩ := foldlM_each_ok hpre' c hlater
        exact (classified_key hout hstep).2 hunknown
      · exact hbad (hthrown e hfold)
  · intro hknown e herr
    obtain ⟨pre, c, post, cs, hsplit, hpre, hc⟩ := foldlM_append_error herr
    rcases unclassified_key hout hc with ⟨-, hthrown⟩ | ⟨hnone, hunknown, -⟩
    · exact hthrown
    · obtain ⟨c', hc', hlacks⟩ := hknown pre c post hsplit hunknown
      rcases List.mem_append.mp hc' with hin | hlast
      · obtain ⟨cs₁, cs₂, hstep⟩ := foldlM_each_ok hpre c' hin
        exact absurd hlacks (classified_key hout hstep).1
      · rw [List.mem_singleton.mp hlast] at hlacks
        exact absurd hlacks hnone

lemma classify_eq_foldlM : classify scans aliases stmt.whereExpr =
    stmt.conjuncts.foldlM (classifyConjunct scans aliases) {} := by
  unfold classify SelectStmt.conjuncts
  cases stmt.whereExpr with
  | none => rfl
  | some e => rfl

lemma entries_keyOutcome (hentries : stmt.entries catalog = .ok entries)
    (hscans : createScans catalog stmt.fromList [] ctx = .ok (scans, ctx'))
    (hl : l.tableAlias ≠ "") (hr : r.tableAlias ≠ "") : KeyOutcome entries l r
      (makeJoinKey scans (stmt.fromList.map TableRef.aliasName) l r) := by
  apply makeJoinKey_outcome (scans_tables hentries hscans) _ hl hr
  intro a
  rw [tableOf_eq_none_iff, entries_aliases hentries]

/-- Planning fails where the classification fails, if the scans are there. -/
lemma plan_of_classify_error {alloc : Nat → Word} {e : CppError}
    (hscans : createScans catalog stmt.fromList [] ctx = .ok (scans, ctx'))
    (h : classify scans (stmt.fromList.map TableRef.aliasName) stmt.whereExpr = .error e) :
    plan alloc catalog stmt ctx = .error e := by
  unfold plan
  rw [run_bind_of_ok hscans]
  apply run_bind_of_error
  rw [h]
  rfl

lemma mem_aliases_of_lookup {a : String} {s : ScanTranslator}
    (hscans : createScans catalog stmt.fromList [] ctx = .ok (scans, ctx'))
    (hs : scans.lookup a = some s) : a ∈ stmt.fromList.map TableRef.aliasName := by
  obtain ⟨hof, -⟩ := createScans_scansOf hscans
  obtain ⟨ref, href, rfl, -⟩ := hof.table a s hs
  exact List.mem_map_of_mem href

/-- Join keys between FROM entries ask for no other alias. -/
lemma keysKnown_of_aliases {entries : FromEntries} {conjs : List Expr}
    (h : ∀ c ∈ conjs, (keyColumns c).isSome →
      ∀ a ∈ conjunctAliases c, a ∈ entries.map Prod.fst) : KeysKnown entries conjs := by
  rintro pre c post rfl ⟨l, r, hkey, hunknown⟩
  have hall := h c (List.mem_append_right _ List.mem_cons_self) (by rw [hkey]; rfl)
  rcases hunknown with hnone | hnone
  · exact absurd (hall _ ((mem_aliases_of_key hkey).mpr (.inl rfl))) (tableOf_eq_none_iff.mp hnone)
  · exact absurd (hall _ ((mem_aliases_of_key hkey).mpr (.inr rfl))) (tableOf_eq_none_iff.mp hnone)

/-- What planning fails with is thrown, if and only if no join key asks for an unknown alias before a
known table lacks a column. -/
lemma plan_thrown_iff {alloc : Nat → Word} {heap : Heap} (hne : stmt.fromList ≠ []) :
    (∀ e, plan alloc catalog stmt (initialContext heap) = .error e → e.Thrown) ↔
      ∀ entries, stmt.entries catalog = .ok entries → KeysKnown entries stmt.conjuncts := by
  constructor
  · intro hthrown entries hentries
    obtain ⟨scans, ctx₁, hscans⟩ := createScans_ok
      (fun ref href => by
        obtain ⟨x, -, -, hlookup⟩ := forall₂_mem_left (entries_forall₂ hentries) href
        exact ⟨x.2, hlookup⟩) [] (initialContext heap)
    apply (classify_thrown_iff (entries_keyOutcome hentries hscans) _).mp
    intro e herr
    rw [← classify_eq_foldlM] at herr
    exact hthrown e (plan_of_classify_error hscans herr)
  · intro hknown e herr
    rcases plan_error hne herr with hscans | ⟨scans, ctx₁, hscans, hrest⟩
    · exact createScans_thrown hscans
    rcases hrest with hclass | hout
    · obtain ⟨entries, hentries⟩ := createScans_entries hscans
      rw [classify_eq_foldlM] at hclass
      exact (classify_thrown_iff (entries_keyOutcome hentries hscans) _).mpr
        (hknown entries hentries) e hclass
    · obtain ⟨item, -, hitem⟩ := resolveSelectList_error hout
      apply resolveItem_thrown _ hitem
      intro a ha
      obtain ⟨ref, href, rfl⟩ := List.mem_map.mp ha
      exact (createScans_scansOf hscans).1.found ref href

/-- The same for code generation, which has no other way to fail. -/
lemma compileStmt_thrown_iff {alloc : Nat → Word} {printer : Word} {heap : Heap}
    (hne : stmt.fromList ≠ []) :
    (∀ e, compileStmt alloc catalog printer stmt (initialContext heap) = .error e → e.Thrown) ↔
      ∀ entries, stmt.entries catalog = .ok entries → KeysKnown entries stmt.conjuncts := by
  rw [← @plan_thrown_iff catalog stmt alloc heap hne]
  constructor
  · exact fun hthrown e herr => hthrown e (run_bind_of_error herr)
  · intro hplanning e h
    rcases run_bind_error h with hplan | ⟨result, ctx₁, hplan, hrest⟩
    · exact hplanning e hplan
    obtain ⟨scans, cs, hof, hprogram, -⟩ := plan_spec hplan
    have hprogram' : ctx₁.program = queryProgram := hprogram
    rcases run_bind_error hrest with hgen | ⟨u, ctx₂, -, hpure⟩
    · exact generateCode_raises (fun iu => ⟨_, rfl⟩)
        (hof.root.raises fun _ _ h => resolveColumn_thrown h) ⟨_, rfl⟩
        (hprogram' ▸ queryProgram_valid) (hprogram' ▸ queryProgram_open) hgen
    · cases hpure

end

/-- Planning a statement that parses touches only scans that exist, if and only if before the first
join key with an unknown alias, or at it, a known table lacks a column of a join key, and a statement
that names an unknown alias is not accepted. -/
theorem touchesKnownScans_iff (alloc : Nat → Word) (catalog : SQLCatalog) (self : Word) (sql : String)
    (stmt : SelectStmt) (heap : Heap) (hparse : parseSQL sql = .ok stmt) :
    TouchesKnownScans alloc catalog self stmt heap ↔
      ∀ entries, stmt.entries catalog = .ok entries → KeysKnown entries stmt.conjuncts ∧
        (NamesUnknown stmt → ¬ stmt.Accepted entries.scanned) := by
  have hwritable := parseSQL_writable hparse
  constructor
  · intro htouches entries hentries
    refine ⟨(plan_thrown_iff (parseSQL_fromList hparse)).mp htouches.planning entries hentries, ?_⟩
    intro hnames haccepted
    obtain ⟨e, herr, -⟩ := htouches.unknown hnames
    obtain ⟨r, hok⟩ := (compileStmt_accepts_iff hentries hwritable).mpr haccepted
    rw [herr] at hok
    cases hok
  · intro hcond
    have hknown := fun entries hentries => (hcond entries hentries).1
    have hplanning := (@plan_thrown_iff catalog stmt alloc heap (parseSQL_fromList hparse)).mpr hknown
    refine ⟨hplanning, fun result hplan c hc l r hkey => ?_, fun scans ctx₁ hscans ref => ?_,
      fun scans ctx₁ hscans ref => ?_, fun hnames => ?_⟩
    · obtain ⟨scans, cs, hof, -⟩ := plan_spec hplan
      obtain ⟨ctx₁, hscans, -⟩ := hof.created
      obtain ⟨entries, hentries⟩ := createScans_entries hscans
      have hclass := hof.classified
      rw [classify_eq_foldlM] at hclass
      obtain ⟨cs₁, cs₂, hstep⟩ := foldlM_each_ok hclass c hc
      have hfound := (classified_key (entries_keyOutcome hentries hscans) hstep).2
      have hmem : ∀ ref : ColumnRef, ¬ entries.Unknown ref →
          ref.tableAlias ∈ stmt.fromList.map TableRef.aliasName := by
        intro ref href
        rw [← entries_aliases hentries]
        by_contra hnot
        exact href (tableOf_eq_none_iff.mpr hnot)
      exact ⟨hmem l fun h => hfound ⟨l, r, hkey, .inl h⟩, hmem r fun h => hfound ⟨l, r, hkey, .inr h⟩⟩
    · refine ⟨fun a ha => ?_, fun e he => resolveAlias_thrown he⟩
      obtain ⟨s, hs⟩ := resolveAlias_lookup ha
      exact mem_aliases_of_lookup hscans hs
    · refine ⟨fun iu hiu => ?_, fun e he => resolveColumn_thrown he⟩
      obtain ⟨a, s, hs, hmem⟩ := resolveColumn_lookup hiu
      exact ⟨a, mem_aliases_of_lookup hscans hs, s, hs, hmem⟩
    · cases hrun : compileStmt alloc catalog self stmt (initialContext heap) with
      | error e =>
        exact ⟨e, rfl, (compileStmt_thrown_iff (parseSQL_fromList hparse)).mpr hknown e hrun⟩
      | ok r =>
        obtain ⟨result, ctx₁, hplan, -⟩ := run_bind_ok hrun
        obtain ⟨scans, cs, hof, -⟩ := plan_spec hplan
        obtain ⟨ctx₂, hscans, -⟩ := hof.created
        obtain ⟨entries, hentries⟩ := createScans_entries hscans
        have haccepted := (compileStmt_accepts_iff hentries hwritable).mp ⟨r, hrun⟩
        exact absurd haccepted ((hcond entries hentries).2 hnames)

/-- `SELECT a.x FROM pair a, pair b WHERE a.x = q.y` -/
def keyStmt (q : String) : SelectStmt where
  selectList := [.item (.colRef ⟨"a", "x"⟩) ""]
  fromList := [⟨"pair", "a"⟩, ⟨"pair", "b"⟩]
  whereExpr := some (.binOp .eq (.colRef ⟨"a", "x"⟩) (.colRef ⟨q, "y"⟩))
  limit := noLimit

/-- A join key between the two FROM entries. -/
theorem touchesKnownScans_iff_own :
    parseSQL "SELECT a.x FROM pair a, pair b WHERE a.x = b.y" = .ok (keyStmt "b") ∧
      keyColumns (.binOp .eq (.colRef ⟨"a", "x"⟩) (.colRef ⟨"b", "y"⟩)) =
        some (⟨"a", "x"⟩, ⟨"b", "y"⟩) ∧
      TouchesKnownScans (fun _ => 16384) [pairTable] 8192 (keyStmt "b") emptyHeap := by
  have hparse : parseSQL "SELECT a.x FROM pair a, pair b WHERE a.x = b.y" = .ok (keyStmt "b") := by
    decide +kernel
  have hkey : keyColumns (.binOp .eq (.colRef ⟨"a", "x"⟩) (.colRef ⟨"b", "y"⟩)) =
      some (⟨"a", "x"⟩, ⟨"b", "y"⟩) := keyColumns_iff.mpr ⟨rfl, by simp, by simp, by simp⟩
  refine ⟨hparse, hkey, (touchesKnownScans_iff _ _ _ _ _ _ hparse).mpr ?_⟩
  intro entries hentries
  constructor
  · apply keysKnown_of_aliases
    intro c hc _ a ha
    rw [List.mem_singleton.mp hc, mem_aliases_of_key hkey] at ha
    rw [entries_aliases hentries]
    rcases ha with rfl | rfl
    · simp [keyStmt]
    · simp [keyStmt]
  · rintro ⟨ref, href, hne, hout⟩
    have hnamed : ref = ⟨"a", "x"⟩ ∨ ref = ⟨"b", "y"⟩ := by
      simpa [SelectStmt.references, SelectStmt.conjuncts, keyStmt, flattenAnd, Expr.columns] using href
    rcases hnamed with rfl | rfl
    · simp [keyStmt] at hout
    · simp [keyStmt] at hout

/-- The unknown alias of a join key is inserted as a null pointer, and that is followed. -/
theorem touchesKnownScans_unknown : ¬ ∀ alloc catalog self sql stmt heap, parseSQL sql = .ok stmt →
    TouchesKnownScans alloc catalog self stmt heap := by
  intro hall
  have hparse : parseSQL "SELECT a.x FROM pair a, pair b WHERE a.x = z.y" = .ok (keyStmt "z") := by
    decide +kernel
  have htouches := hall (fun _ => 16384) [pairTable] 8192 _ _ emptyHeap hparse
  have hnull : (match plan (fun _ => 16384) [pairTable] (keyStmt "z") (initialContext emptyHeap) with
      | .ok _ => none
      | .error e => some e) = some (.undefinedBehaviour "null ScanTranslator") := by
    decide +kernel
  split at hnull
  · cases hnull
  · rename_i e hplan
    cases hnull
    obtain ⟨what, hwhat⟩ := htouches.planning _ hplan
    cases hwhat

end Proofs

end TidyTuples
