import TidyTuples.Proofs.KnownScans
import TidyTuples.Proofs.Pushdown
import TidyTuples.Proofs.QueryConstants
import TidyTuples.Proofs.QueryResults

/-!
# Qualifying a column

An unqualified column is found through all scans, but its conjunct is put where the written aliases
say. So the alias that is added may put the conjunct elsewhere: where its other columns are no
longer in scope, or where the column is in scope at last.
-/

namespace TidyTuples

/-- One reference to the unqualified column `y` is qualified with the alias `b`. -/
inductive Expr.Qualifies (y b : String) : Expr → Expr → Prop
  | here : Qualifies y b (.colRef ⟨"", y⟩) (.colRef ⟨b, y⟩)
  | left {op : BinOpKind} {l l' r : Expr} : Qualifies y b l l' →
      Qualifies y b (.binOp op l r) (.binOp op l' r)
  | right {op : BinOpKind} {l r r' : Expr} : Qualifies y b r r' →
      Qualifies y b (.binOp op l r) (.binOp op l r')

/-- One reference of the SELECT list or of the WHERE clause is qualified. -/
inductive SelectStmt.Qualifies (y b : String) (stmt : SelectStmt) : SelectStmt → Prop
  | item {before after : List SelectItem} {e e' : Expr} {name : String} :
      stmt.selectList = before ++ .item e name :: after → e.Qualifies y b e' →
      Qualifies y b stmt { stmt with selectList := before ++ .item e' name :: after }
  | condition {e e' : Expr} : stmt.whereExpr = some e → e.Qualifies y b e' →
      Qualifies y b stmt { stmt with whereExpr := some e' }

/-- The column is one of the table of `b` and of no other FROM entry. -/
structure FromEntries.Belongs (entries : FromEntries) (y b : String) : Prop where
  entry : b ∈ entries.map Prod.fst
  only : ∀ x ∈ entries, y ∈ x.2.columns.map Column.name ↔ x.1 = b

/-- The alias `b` in the conjunct leaves it where it is, or takes it to the scan that has all its
columns. -/
def Expr.StaysWith (c : Expr) (entries : FromEntries) (b : String) : Prop :=
  match QueryPlanner.conjunctAliases c with
  | [] => ∀ ref ∈ c.columns, entries.Finds ref b
  | [a] => a = b
  | _ => True

/-- No other table has an answer to the name, and the conjuncts that change stay in place. -/
structure SelectStmt.SafelyQualified (stmt stmt' : SelectStmt) (entries : FromEntries) (y b : String) :
    Prop where
  found : entries.Finds ⟨"", y⟩ b
  inPlace : ∀ p ∈ stmt.conjuncts.zip stmt'.conjuncts, p.1 ≠ p.2 → p.1.StaysWith entries b

open Proofs QueryPlanner

section

variable {y b : String} {e e' : Expr}

/-! ### Expressions -/

lemma Expr.Qualifies.columns (h : e.Qualifies y b e') : ∃ before after,
    e.columns = before ++ ⟨"", y⟩ :: after ∧ e'.columns = before ++ ⟨b, y⟩ :: after := by
  induction h with
  | here => exact ⟨[], [], rfl, rfl⟩
  | @left op l l' r _ ih =>
    obtain ⟨before, after, hl, hl'⟩ := ih
    refine ⟨before, after ++ r.columns, ?_, ?_⟩
    · rw [Expr.columns, hl, List.append_assoc, List.cons_append]
    · rw [Expr.columns, hl', List.append_assoc, List.cons_append]
  | @right op l r r' _ ih =>
    obtain ⟨before, after, hr, hr'⟩ := ih
    refine ⟨l.columns ++ before, after, ?_, ?_⟩
    · rw [Expr.columns, hr, List.append_assoc]
    · rw [Expr.columns, hr', List.append_assoc]

lemma Expr.Qualifies.mem (h : e.Qualifies y b e') : (⟨"", y⟩ : ColumnRef) ∈ e.columns := by
  obtain ⟨before, after, hcols, -⟩ := h.columns
  rw [hcols]
  exact List.mem_append_right _ List.mem_cons_self

/-- What holds of both spellings holds of the columns of both expressions or of neither. -/
lemma Expr.Qualifies.forall_iff (h : e.Qualifies y b e') {P : ColumnRef → Prop}
    (hP : P ⟨"", y⟩ ↔ P ⟨b, y⟩) : (∀ ref ∈ e.columns, P ref) ↔ ∀ ref ∈ e'.columns, P ref := by
  obtain ⟨before, after, hcols, hcols'⟩ := h.columns
  rw [hcols, hcols', List.forall_mem_append, List.forall_mem_append, List.forall_mem_cons,
    List.forall_mem_cons, hP]

lemma Expr.Qualifies.other (h : e.Qualifies y b e') {ref : ColumnRef} (href : ref ∈ e.columns)
    (hne : ref.tableAlias ≠ "") : ref ∈ e'.columns := by
  obtain ⟨before, after, hcols, hcols'⟩ := h.columns
  rw [hcols] at href
  rw [hcols']
  rcases List.mem_append.mp href with href | href
  · exact List.mem_append_left _ href
  · rcases List.mem_cons.mp href with rfl | href
    · exact absurd rfl hne
    · exact List.mem_append_right _ (List.mem_cons_of_mem _ href)

lemma Expr.Qualifies.ne (hb : b ≠ "") (h : e.Qualifies y b e') : e ≠ e' := by
  induction h with
  | here => simp [hb.symm]
  | left _ ih => simp [ih]
  | right _ ih => simp [ih]

lemma Expr.Qualifies.mem_aliases (hb : b ≠ "") (h : e.Qualifies y b e') (a : String) :
    a ∈ conjunctAliases e' ↔ a ∈ conjunctAliases e ∨ a = b := by
  obtain ⟨before, after, hcols, hcols'⟩ := h.columns
  rw [mem_conjunctAliases, mem_conjunctAliases, hcols, hcols']
  simp only [List.mem_append, List.mem_cons, or_and_right, exists_or, exists_eq_left]
  constructor
  · rintro ⟨hne, hbefore | rfl | hafter⟩
    · exact .inl ⟨hne, .inl hbefore⟩
    · exact .inr rfl
    · exact .inl ⟨hne, .inr (.inr hafter)⟩
  · rintro (⟨hne, hbefore | rfl | hafter⟩ | rfl)
    · exact ⟨hne, .inl hbefore⟩
    · exact absurd rfl hne
    · exact ⟨hne, .inr (.inr hafter)⟩
    · exact ⟨hb, .inr (.inl rfl)⟩

lemma aliases_nodup (e : Expr) : (conjunctAliases e).Nodup := collectAliases_nodup List.nodup_nil

lemma aliases_eq_singleton {a : String} :
    conjunctAliases e = [a] ↔ ∀ x, x ∈ conjunctAliases e ↔ x = a := by
  constructor
  · intro h x
    rw [h]
    exact List.mem_singleton
  · intro h
    apply List.perm_singleton.mp
    apply (List.perm_ext_iff_of_nodup (aliases_nodup e) (List.nodup_singleton a)).mpr
    intro x
    rw [h, List.mem_singleton]

lemma Expr.Qualifies.aliases_of_nil (hb : b ≠ "") (h : e.Qualifies y b e')
    (hnone : conjunctAliases e = []) : conjunctAliases e' = [b] := by
  apply aliases_eq_singleton.mpr
  intro x
  rw [h.mem_aliases hb, hnone]
  simp

lemma Expr.Qualifies.aliases_of_own (hb : b ≠ "") (h : e.Qualifies y b e')
    (hone : conjunctAliases e = [b]) : conjunctAliases e' = [b] := by
  apply aliases_eq_singleton.mpr
  intro x
  rw [h.mem_aliases hb, hone]
  simp

lemma Expr.Qualifies.aliases_length (hb : b ≠ "") (h : e.Qualifies y b e') :
    (conjunctAliases e).length ≤ (conjunctAliases e').length := by
  apply List.Subperm.length_le
  apply (aliases_nodup e).subperm
  intro x hx
  exact (h.mem_aliases hb x).mpr (.inl hx)

/-- A key has no unqualified column. -/
lemma Expr.Qualifies.noKey (h : e.Qualifies y b e') : keyColumns e = none := by
  cases hkey : keyColumns e with
  | none => rfl
  | some lr =>
    have hq : AllQualified e := allQualified_of_key (by rw [hkey]; rfl)
    exact absurd rfl (hq _ h.mem)

/-- A conjunct that becomes a key had one alias, and another one than `b`. -/
lemma Expr.Qualifies.alias_of_key (h : e.Qualifies y b e') (hkey : (keyColumns e').isSome) :
    ∃ a, a ≠ b ∧ conjunctAliases e = [a] := by
  obtain ⟨⟨l, r⟩, hlr⟩ := Option.isSome_iff_exists.mp hkey
  obtain ⟨rfl, hl, hr, hne⟩ := keyColumns_iff.mp hlr
  cases h with
  | left h =>
    cases h
    refine ⟨r.tableAlias, hne.symm, ?_⟩
    simp [conjunctAliases, collectAliases, hr]
  | right h =>
    cases h
    refine ⟨l.tableAlias, hne, ?_⟩
    simp [conjunctAliases, collectAliases, hl]

/-- With two aliases written it does not become one. -/
lemma Expr.Qualifies.noKey_of_many (h : e.Qualifies y b e')
    (hlen : 2 ≤ (conjunctAliases e).length) : keyColumns e' = none := by
  by_contra hkey
  obtain ⟨a, -, ha⟩ := h.alias_of_key (Option.isSome_iff_ne_none.mpr hkey)
  rw [ha] at hlen
  exact absurd hlen (by simp)

lemma Expr.Qualifies.evalIn (h : e.Qualifies y b e') {env : Env} (henv : env ⟨"", y⟩ = env ⟨b, y⟩) :
    e.evalIn env = e'.evalIn env := by
  induction h with
  | here => exact henv
  | left _ ih => rw [Expr.evalIn, Expr.evalIn, ih]
  | right _ ih => rw [Expr.evalIn, Expr.evalIn, ih]

/-- The reference is in one of the top-level conjuncts. -/
lemma Expr.Qualifies.conjunct (h : e.Qualifies y b e') : ∃ before c c' after,
    flattenAnd e = before ++ c :: after ∧ flattenAnd e' = before ++ c' :: after ∧
      c.Qualifies y b c' := by
  induction h with
  | here => exact ⟨[], _, _, [], rfl, rfl, .here⟩
  | @left op l l' r hl ih =>
    by_cases hop : op = .and
    · subst hop
      obtain ⟨before, c, c', after, heq, heq', hc⟩ := ih
      refine ⟨before, c, c', after ++ flattenAnd r, ?_, ?_, hc⟩
      · rw [flattenAnd, heq, List.append_assoc, List.cons_append]
      · rw [flattenAnd, heq', List.append_assoc, List.cons_append]
    · refine ⟨[], .binOp op l r, .binOp op l' r, [], ?_, ?_, .left hl⟩
      · cases op <;> first | rfl | exact absurd rfl hop
      · cases op <;> first | rfl | exact absurd rfl hop
  | @right op l r r' hr ih =>
    by_cases hop : op = .and
    · subst hop
      obtain ⟨before, c, c', after, heq, heq', hc⟩ := ih
      refine ⟨flattenAnd l ++ before, c, c', after, ?_, ?_, hc⟩
      · rw [flattenAnd, heq, List.append_assoc]
      · rw [flattenAnd, heq', List.append_assoc]
    · refine ⟨[], .binOp op l r, .binOp op l r', [], ?_, ?_, .right hr⟩
      · cases op <;> first | rfl | exact absurd rfl hop
      · cases op <;> first | rfl | exact absurd rfl hop

end

namespace Proofs

open Tuples

/-- Two queries throw, or both return, and the same multiset of rows. -/
def SameAnswer (arch : Arch) (alloc : Nat → Word) (catalog : SQLCatalog) (printer : Word)
    (heap : Heap) (regs : VReg → Value) (sql sql' : String) : Prop :=
  (∃ e e', e.Thrown ∧ e'.Thrown ∧ ∀ fuel,
    runQuery arch alloc catalog printer sql false heap regs fuel = .error e ∧
    runQuery arch alloc catalog printer sql' false heap regs fuel = .error e') ∨
  ∃ answer answer' n, answer.rows.Perm answer'.rows ∧ ∀ fuel ≥ n,
    runQuery arch alloc catalog printer sql false heap regs fuel = .ok (some answer) ∧
    runQuery arch alloc catalog printer sql' false heap regs fuel = .ok (some answer')

/-- Neither spelling asks a join key for an unknown alias, and both are rejected or the column is safely
qualified. -/
structure NamesAgree (entries : FromEntries) (stmt stmt' : SelectStmt) (y b : String) : Prop where
  keys : KeysKnown entries stmt.conjuncts
  qualifiedKeys : KeysKnown entries stmt'.conjuncts
  same : (¬ stmt.Accepted entries ∧ ¬ stmt'.Accepted entries) ∨
    stmt.SafelyQualified stmt' entries y b

/-- The plan of the statement fits the slots of the runtime, its constants are apart, and its code
reads no register before it is written. -/
structure FitsMachine (arch : Arch) (alloc : Nat → Word) (catalog : SQLCatalog) (printer : Word)
    (heap : Heap) (regs : VReg → Value) (stmt : SelectStmt) (entries : FromEntries) : Prop where
  boolean : ∀ e ∈ stmt.whereExpr, e.isBoolean = true
  narrow : stmt.NarrowJoins entries
  apart : stmt.ConstantsApart entries alloc printer
  clean : CodeRunsClean arch alloc catalog printer stmt heap regs

section

variable {y b : String} {c c' : Expr} {entries : FromEntries} {scans : Scans}
  {ctx : CompilationContext}

/-! ### Conjuncts -/

lemma belongs_finds (h : entries.Belongs y b) {a : String} (hfinds : entries.Finds ⟨"", y⟩ a) :
    a = b := by
  obtain ⟨x, hx, hname⟩ := List.mem_map.mp h.entry
  obtain ⟨col, hcol, rfl⟩ := List.mem_map.mp ((h.only x hx).mpr hname)
  have hoffers : x.2.Offers col.name := ⟨col, hcol, answers_own x.2 col⟩
  rw [← hname, hfinds.unqualified rfl x hx hoffers]

lemma belongs_found (hb : b ≠ "") (h : entries.Belongs y b) : entries.Finds ⟨b, y⟩ b := by
  obtain ⟨x, hx, hname⟩ := List.mem_map.mp h.entry
  obtain ⟨col, hcol, hcolName⟩ := List.mem_map.mp ((h.only x hx).mpr hname)
  constructor
  · exact ⟨x, hx, hname, col, hcol, hcolName ▸ answers_own x.2 col⟩
  · exact fun _ => rfl
  · exact fun hempty => absurd hempty hb

/-- Where the unqualified column is found, both spellings are found in the same table. -/
lemma belongs_finds_iff (hb : b ≠ "") (h : entries.Belongs y b) (hfound : entries.Finds ⟨"", y⟩ b)
    (a : String) : entries.Finds ⟨"", y⟩ a ↔ entries.Finds ⟨b, y⟩ a := by
  constructor
  · intro hfinds
    rw [belongs_finds h hfinds]
    exact belongs_found hb h
  · intro hfinds
    have hba : b = a := hfinds.qualified hb
    rwa [← hba]

/-- A conjunct that stays in place is compiled under both spellings or under neither. -/
lemma compiles_of_stays (hb : b ≠ "") (hjoin : entries.Joinable) (hbelongs : entries.Belongs y b)
    (hfound : entries.Finds ⟨"", y⟩ b) (h : c.Qualifies y b c') (hstays : c.StaysWith entries b) :
    c.Compiles entries ↔ c'.Compiles entries := by
  have hcols : ∀ a, (∀ ref ∈ c.columns, entries.Finds ref a) ↔ ∀ ref ∈ c'.columns, entries.Finds ref a :=
    fun a => h.forall_iff (belongs_finds_iff hb hbelongs hfound a)
  have hsome : (∀ ref ∈ c.columns, ∃ a, entries.Finds ref a) ↔
      ∀ ref ∈ c'.columns, ∃ a, entries.Finds ref a :=
    h.forall_iff (exists_congr (belongs_finds_iff hb hbelongs hfound))
  unfold Expr.StaysWith at hstays
  match hal : conjunctAliases c with
  | [] =>
    rw [hal] at hstays
    rw [compiles_of_many hjoin (by rw [hal]; simp) h.noKey,
      compiles_of_one hbelongs.entry (h.aliases_of_nil hb hal)]
    exact iff_of_true (fun ref href => ⟨b, hstays ref href⟩) ((hcols b).mp hstays)
  | [a] =>
    rw [hal] at hstays
    obtain rfl : a = b := hstays
    rw [compiles_of_one hbelongs.entry hal, compiles_of_one hbelongs.entry (h.aliases_of_own hb hal)]
    exact hcols a
  | a :: a' :: rest =>
    have hlen : 2 ≤ (conjunctAliases c).length := by
      rw [hal, List.length_cons, List.length_cons]
      omega
    have hlen' := hlen.trans (h.aliases_length hb)
    rw [compiles_of_many hjoin (by omega) h.noKey, compiles_of_many hjoin (by omega) (h.noKey_of_many hlen)]
    exact hsome

/-- A conjunct that is compiled under both spellings stays in place. -/
lemma stays_of_compiles (hb : b ≠ "") (hjoin : entries.Joinable) (hbelongs : entries.Belongs y b) (h : c.Qualifies y b c')
    (hc : c.Compiles entries) (hc' : c'.Compiles entries) :
    entries.Finds ⟨"", y⟩ b ∧ c.StaysWith entries b := by
  have hfound : ∀ {a : String}, entries.Finds ⟨"", y⟩ a → entries.Finds ⟨"", y⟩ b := fun hfinds =>
    belongs_finds hbelongs hfinds ▸ hfinds
  unfold Expr.StaysWith
  match hal : conjunctAliases c with
  | [] =>
    obtain ⟨a, ha⟩ := hc.postJoin hjoin (by rw [hal]; simp) _ h.mem
    have hall := hc'.filter b hbelongs.entry (h.aliases_of_nil hb hal)
    refine ⟨hfound ha, ?_⟩
    exact (h.forall_iff (belongs_finds_iff hb hbelongs (hfound ha) b)).mpr hall
  | [a] =>
    by_cases hab : a = b
    · subst hab
      exact ⟨hc.filter a hbelongs.entry hal _ h.mem, rfl⟩
    · exfalso
      have hlen : (conjunctAliases c').length ≠ 1 := by
        intro hlen
        obtain ⟨x, hx⟩ := List.length_eq_one_iff.mp hlen
        have hmem := h.mem_aliases hb
        have ha : a ∈ conjunctAliases c' := (hmem a).mpr (.inl (hal ▸ List.mem_cons_self))
        have hb' : b ∈ conjunctAliases c' := (hmem b).mpr (.inr rfl)
        rw [hx] at ha hb'
        exact hab ((List.mem_singleton.mp ha).trans (List.mem_singleton.mp hb').symm)
      -- the other alias is a FROM alias, because the qualified conjunct is compiled
      obtain ⟨hne, ref, href, rfl⟩ := mem_conjunctAliases.mp (hal ▸ List.mem_cons_self : a ∈ _)
      obtain ⟨d, hd⟩ := hc'.postJoin hjoin hlen ref (h.other href hne)
      obtain ⟨x, hx, hname, -⟩ := hd.offered
      have hentry : ref.tableAlias ∈ entries.map Prod.fst := by
        rw [hd.qualified hne, ← hname]
        exact List.mem_map_of_mem hx
      exact hab (belongs_finds hbelongs (hc.filter _ hentry hal _ h.mem))
  | a :: a' :: rest =>
    obtain ⟨d, hd⟩ := hc.postJoin hjoin (by rw [hal]; simp) _ h.mem
    exact ⟨hfound hd, trivial⟩

/-! ### Rows -/

lemma FromScans.resolve_qualified (hs : FromScans entries scans ctx) (hb : b ≠ "")
    (hspace : ' ' ∉ y.toList) (hbelongs : entries.Belongs y b) (hfound : entries.Finds ⟨"", y⟩ b) :
    resolveColumn scans ⟨"", y⟩ = resolveColumn scans ⟨b, y⟩ := by
  obtain ⟨iu, hiu, -⟩ := @FromScans.resolves_of_finds entries scans ctx ⟨"", y⟩ b hs hspace hfound
  obtain ⟨a, s, hfinds, hlookup, hget⟩ :=
    (@FromScans.resolveColumn_iff entries scans ctx ⟨"", y⟩ iu hs hspace).mp hiu
  have hab := belongs_finds hbelongs hfinds
  rw [hiu]
  exact ((@Proofs.resolveColumn_iff scans ⟨b, y⟩ iu hb).mpr ⟨s, hab ▸ hlookup, hget⟩).symm

variable (hres : resolveColumn scans ⟨"", y⟩ = resolveColumn scans ⟨b, y⟩)
include hres

lemma satisfies_qualified (h : c.Qualifies y b c') (t : Row) :
    satisfies scans t c = satisfies scans t c' := by
  unfold satisfies Expr.holdsIn
  rw [h.evalIn]
  unfold Row.env
  rw [hres]

/-- With its alias written already, or two others, the conjunct is filed as before. -/
lemma qualified_interchangeable (hb : b ≠ "") (h : c.Qualifies y b c')
    (haliases : conjunctAliases c = [b] ∨ 2 ≤ (conjunctAliases c).length) :
    Interchangeable scans c c' := by
  have hnokey' : keyColumns c' = none := by
    rcases haliases with hone | htwo
    · exact key_of_one (h.aliases_of_own hb hone)
    · exact h.noKey_of_many htwo
  have hnone : ∀ {d : Expr}, keyColumns d = none → ∀ n x z, ¬ Equates scans d n x z := by
    rintro d hd n x z ⟨l, r, hkey, -⟩
    rw [hd] at hkey
    cases hkey
  constructor
  · intro a
    rcases haliases with hone | htwo
    · rw [hone, h.aliases_of_own hb hone]
    · have htwo' := htwo.trans (h.aliases_length hb)
      apply iff_of_false
      · intro ha
        rw [ha] at htwo
        exact absurd htwo (by simp)
      · intro ha
        rw [ha] at htwo'
        exact absurd htwo' (by simp)
  · exact iff_of_true h.noKey hnokey'
  · intro hkey
    rw [h.noKey] at hkey
    cases hkey
  · exact fun n x z => iff_of_false (hnone h.noKey n x z) (hnone hnokey' n x z)
  · exact satisfies_qualified hres h
  · intro ius
    rw [resolvesIn_iff, resolvesIn_iff]
    apply h.forall_iff
    rw [hres]

/-- The SELECT list resolves to the same IUs under both spellings. -/
lemma resolveItem_qualified {e e' : Expr} (h : e.Qualifies y b e') (aliases : List String)
    (name : String) : resolveItem scans aliases (.item e name) =
      resolveItem scans aliases (.item e' name) := by
  cases h with
  | here =>
    dsimp only [resolveItem]
    rw [hres]
  | left => rfl
  | right => rfl

end

/-! ### Statements -/

section

variable {alloc : Nat → Word} {catalog : SQLCatalog} {self : Word} {heap : Heap} {y b : String}
  {stmt stmt' : SelectStmt} {entries : FromEntries} {scans : Scans} {ctx : CompilationContext}

lemma qualified_fromList (h : stmt.Qualifies y b stmt') : stmt'.fromList = stmt.fromList := by
  cases h <;> rfl

lemma qualified_limit (h : stmt.Qualifies y b stmt') : stmt'.limit = stmt.limit := by
  cases h <;> rfl

lemma qualified_noSpace (h : stmt.Qualifies y b stmt') (hw : stmt.Writable) : ' ' ∉ y.toList := by
  cases h with
  | item hlist he =>
    exact @item_noSpace stmt ⟨"", y⟩ hw _ _ (hlist ▸ List.mem_append_right _ List.mem_cons_self) he.mem
  | condition hwhere he =>
    exact noSpace_of_isIdentifier (columns_isIdentifier (hw.whereExpr _ hwhere) _ he.mem)

/-- The reference is in one of the conjuncts. -/
lemma qualified_conjuncts {e e' : Expr} (hwhere : stmt.whereExpr = some e) (he : e.Qualifies y b e') :
    ∃ before c c' after, stmt.conjuncts = before ++ c :: after ∧
      SelectStmt.conjuncts { stmt with whereExpr := some e' } = before ++ c' :: after ∧
      c.Qualifies y b c' := by
  obtain ⟨before, c, c', after, heq, heq', hc⟩ := he.conjunct
  refine ⟨before, c, c', after, ?_, heq', hc⟩
  rw [SelectStmt.conjuncts, hwhere]
  exact heq

lemma zip_self {α : Type} {l : List α} {p : α × α} (h : p ∈ l.zip l) : p.1 = p.2 := by
  induction l with
  | nil => cases h
  | cons x rest ih =>
    rcases List.mem_cons.mp h with rfl | h
    · rfl
    · exact ih h

/-- One place of a list is changed. -/
lemma forall_zip_iff {α : Type} {before after : List α} {x x' : α} (hne : x ≠ x') (P : α → Prop) :
    (∀ p ∈ (before ++ x :: after).zip (before ++ x' :: after), p.1 ≠ p.2 → P p.1) ↔ P x := by
  rw [List.zip_append rfl, List.zip_cons_cons, List.forall_mem_append, List.forall_mem_cons]
  constructor
  · exact fun h => h.2.1 hne
  · intro hx
    exact ⟨fun p hp hp' => absurd (zip_self hp) hp', fun _ => hx,
      fun p hp hp' => absurd (zip_self hp) hp'⟩

/-- What is accepted under both spellings is safely qualified. -/
lemma safe_of_accepted (hb : b ≠ "") (hjoin : entries.Joinable) (hbelongs : entries.Belongs y b)
    (h : stmt.Qualifies y b stmt') (haccepted : stmt.Accepted entries)
    (haccepted' : stmt'.Accepted entries) : stmt.SafelyQualified stmt' entries y b := by
  cases h with
  | @item before after e e' name hlist he =>
    constructor
    · rcases haccepted.items (.item e name) (by rw [hlist]; simp) with hstar | ⟨ref, n, a, heq, ha⟩
      · cases hstar
      · cases heq
        cases he
        exact belongs_finds hbelongs ha ▸ ha
    · exact fun p hp hne => absurd (zip_self hp) hne
  | @condition e e' hwhere he =>
    obtain ⟨before, c, c', after, hconjs, hconjs', hc⟩ := qualified_conjuncts hwhere he
    have hcompiles := haccepted.conjuncts c (by rw [hconjs]; simp)
    have hcompiles' := haccepted'.conjuncts c' (by rw [hconjs']; simp)
    obtain ⟨hfound, hstays⟩ := stays_of_compiles hb hjoin hbelongs hc hcompiles hcompiles'
    refine ⟨hfound, ?_⟩
    rw [hconjs, hconjs']
    exact (forall_zip_iff (hc.ne hb) fun d => d.StaysWith entries b).mpr hstays

/-- What is safely qualified is accepted under both spellings or under neither. -/
lemma accepted_iff_of_safe (hb : b ≠ "") (hjoin : entries.Joinable) (hbelongs : entries.Belongs y b)
    (h : stmt.Qualifies y b stmt') (hsafe : stmt.SafelyQualified stmt' entries y b) :
    stmt.Accepted entries ↔ stmt'.Accepted entries := by
  rw [SelectStmt.accepted_iff, SelectStmt.accepted_iff]
  cases h with
  | @item before after e e' name hlist he =>
    have hitem : (SelectItem.item e name = .star ∨ ∃ ref n a,
          SelectItem.item e name = .item (.colRef ref) n ∧ entries.Finds ref a) ↔
        (SelectItem.item e' name = .star ∨ ∃ ref n a,
          SelectItem.item e' name = .item (.colRef ref) n ∧ entries.Finds ref a) := by
      cases he with
      | here =>
        have hfinds := belongs_finds_iff hb hbelongs hsafe.found
        simp [hfinds]
      | left => simp
      | right => simp
    have hwidth : (SelectItem.columns entries (.item e name)).length =
        (SelectItem.columns entries (.item e' name)).length := by
      obtain ⟨first, last, hcols, hcols'⟩ := he.columns
      change e.columns.length = e'.columns.length
      rw [hcols, hcols', List.length_append, List.length_append]
      rfl
    apply and_congr
    · rw [hlist]
      simp only [List.forall_mem_append, List.forall_mem_cons, hitem]
    · apply and_congr_left
      intro _
      unfold SelectStmt.outputColumns
      rw [hlist]
      simp only [List.flatMap_append, List.flatMap_cons, List.length_append, hwidth]
  | @condition e e' hwhere he =>
    obtain ⟨before, c, c', after, hconjs, hconjs', hc⟩ := qualified_conjuncts hwhere he
    have hplace := hsafe.inPlace
    rw [hconjs, hconjs', forall_zip_iff (hc.ne hb) fun d => d.StaysWith entries b] at hplace
    have hcompiles := compiles_of_stays hb hjoin hbelongs hsafe.found hc hplace
    apply and_congr_right
    intro _
    apply and_congr_right
    intro _
    rw [hconjs, hconjs']
    simp only [List.forall_mem_append, List.forall_mem_cons, hcompiles]

/-- The plans of safely qualified statements compute the same rows. -/
lemma sameRows_of_safe (hb : b ≠ "") (hspace : ' ' ∉ y.toList) (hbelongs : entries.Belongs y b)
    (h : stmt.Qualifies y b stmt') (hsafe : stmt.SafelyQualified stmt' entries y b)
    (hnodup : (stmt.fromList.map TableRef.aliasName).Nodup)
    (hentries : stmt.entries catalog = .ok entries) (hwritable : stmt.Writable)
    {result result' : PlanResult} {scans' : Scans} {cs cs' : Conjuncts}
    (hof : PlanOf catalog stmt ctx result scans cs)
    (hof' : PlanOf catalog stmt' ctx result' scans' cs') :
    result.root.result result.outputIUs = result'.root.result result'.outputIUs := by
  have hfrom := qualified_fromList h
  obtain rfl := hof.sameScans hfrom hof'
  obtain ⟨ctx₁, hscans, hapart⟩ := hof.created
  have haliases := entries_aliases hentries
  have hs := fromScans_of_created hscans hentries hwritable
  rw [scanned_eq (haliases ▸ hnodup)] at hs
  have hres := hs.resolve_qualified hb hspace hbelongs hsafe.found
  suffices hsame : result'.outputIUs = result.outputIUs ∧ result'.root.rows = result.root.rows by
    rw [Operator.result, Operator.result, hsame.1, hsame.2]
  cases h with
  | @item before after e e' name hlist he =>
    constructor
    · apply hof.sameOutput hfrom _ hof'
      unfold resolveSelectList
      rw [hlist]
      simp only [List.mapM_append, List.mapM_cons, resolveItem_qualified hres he]
    · exact (hof.alike hnodup hfrom (.of_mem fun _ => Iff.rfl) hof').rows.symm
  | @condition e e' hwhere he =>
    refine ⟨hof.sameOutput hfrom rfl hof', ?_⟩
    obtain ⟨before, c, c', after, hconjs, hconjs', hc⟩ := qualified_conjuncts hwhere he
    have hplace := hsafe.inPlace
    rw [hconjs, hconjs', forall_zip_iff (hc.ne hb) fun d => d.StaysWith entries b] at hplace
    unfold Expr.StaysWith at hplace
    have hinter : conjunctAliases c = [b] ∨ 2 ≤ (conjunctAliases c).length →
        result'.root.rows = result.root.rows := by
      intro hfiled
      have hfirst : SameConjuncts scans' before before := .of_mem fun _ => Iff.rfl
      have hlast : SameConjuncts scans' after after := .of_mem fun _ => Iff.rfl
      have hsame := hfirst.append
        ((SameConjuncts.singleton (qualified_interchangeable hres hb hc hfiled)).append hlast)
      exact (hof.alike hnodup hfrom (by rw [hconjs, hconjs']; exact hsame) hof').rows.symm
    rcases hal : conjunctAliases c with _ | ⟨a, _ | ⟨a', rest⟩⟩
    · rw [hal] at hplace
      have hclass := hconjs ▸ classify_spec hof.classified
      have hclass' := hconjs' ▸ classify_spec hof'.classified
      have horder := joinOrder_perm (stmt.fromList.map TableRef.aliasName)
      have hlocal : LocalTo (fun t => satisfies scans' t c') (idsOf scans' b) := by
        apply satisfies_localTo
        intro ref href iu hiu
        have hfinds := (hc.forall_iff (belongs_finds_iff hb hbelongs hsafe.found b)).mp hplace ref href
        have hsp := (hc.forall_iff (P := fun ref => ' ' ∉ ref.colName.toList) Iff.rfl).mp
          (fun ref href => conjunct_noSpace hwritable (by rw [hconjs]; simp) href) ref href
        obtain ⟨iu', hiu', hid⟩ := hs.resolves_of_finds hsp hfinds
        rw [hiu] at hiu'
        cases hiu'
        exact hid
      exact Planned.rows_moved hclass hclass' hal (hc.aliases_of_nil hb hal) hapart hlocal
        (satisfies_qualified hres hc) (horder.nodup_iff.mpr hnodup)
        (horder.mem_iff.mpr (haliases ▸ hbelongs.entry)) hof.root hof'.root
    · rw [hal] at hplace
      exact hinter (.inl (hal.trans (congrArg (fun x => [x]) hplace)))
    · exact hinter (.inr (by rw [hal]; simp))

/-! ### Queries -/

variable {arch : Arch} {regs : VReg → Value} {printer : Word} {sql : String} {fuel : Nat}

/-- What a query throws, it throws before its code is called. -/
lemma compileStmt_of_thrown {e : CppError} (hparse : parseSQL sql = .ok stmt) (he : e.Thrown)
    (h : runQuery arch alloc catalog printer sql false heap regs fuel = .error e) :
    compileStmt alloc catalog printer stmt (initialContext (heap.newPrinter printer)) = .error e := by
  obtain ⟨what, rfl⟩ := he
  cases hrun : compileStmt alloc catalog printer stmt (initialContext (heap.newPrinter printer)) with
  | error e =>
    rw [runQuery_of_error hparse hrun] at h
    cases h
    rfl
  | ok r =>
    exfalso
    unfold runQuery compiledCode at h
    simp only [hparse, hrun, bind, Except.bind, Bool.false_eq_true, ↓reduceIte] at h
    cases hfn : r.2.program.eliminateDeadCode.functions[0]? with
    | none =>
      rw [hfn] at h
      cases h
    | some fn =>
      rw [hfn] at h
      dsimp only at h
      split at h
      · cases h
      · cases h
      · cases h

lemma compileStmt_of_answered {answer : Option QueryResult} (hparse : parseSQL sql = .ok stmt)
    (h : runQuery arch alloc catalog printer sql false heap regs fuel = .ok answer) :
    ∃ r, compileStmt alloc catalog printer stmt (initialContext (heap.newPrinter printer)) = .ok r := by
  cases hrun : compileStmt alloc catalog printer stmt (initialContext (heap.newPrinter printer)) with
  | error e =>
    rw [runQuery_of_error hparse hrun] at h
    cases h
  | ok r => exact ⟨r, rfl⟩

/-- Where it is accepted and fits the machine, a query returns the rows of its plan. -/
lemma runQuery_of_accepted (hparse : parseSQL sql = .ok stmt)
    (hnodup : (stmt.fromList.map TableRef.aliasName).Nodup)
    (hentries : stmt.entries catalog = .ok entries) (hstored : entries.Stored heap)
    (hfresh : FreshTables alloc (3 * stmt.fromList.length) heap) (haccepted : stmt.Accepted entries)
    (hfits : FitsMachine arch alloc catalog printer heap regs stmt entries) :
    ∃ result scans cs, PlanOf catalog stmt (initialContext (heap.newPrinter printer)) result scans cs ∧
      ∃ rows, rows.map (·.map some) = result.root.result result.outputIUs ∧ ∃ n, ∀ fuel ≥ n,
        runQuery arch alloc catalog printer sql false heap regs fuel =
          .ok (some ⟨result.columnNames, applyLimit stmt.limit rows⟩) := by
  have hwritable := parseSQL_writable hparse
  have haliases := entries_aliases hentries
  have hscanned : entries.scanned = entries := scanned_eq (haliases ▸ hnodup)
  obtain ⟨⟨result, ctx'⟩, hrun⟩ : ∃ r, compileStmt alloc catalog printer stmt
      (initialContext (heap.newPrinter printer)) = .ok r :=
    (compileStmt_accepts_iff hentries hwritable).mpr (hscanned.symm ▸ haccepted)
  obtain ⟨scans, cs, ctx, hcompiled⟩ := compileStmt_compiledPlan hrun
  obtain ⟨ctx₀, hfrom⟩ := hcompiled.fromScans hentries hwritable
  have hnarrow : result.root.Narrow := by
    rw [hscanned] at hfrom
    exact (hfrom.narrow_iff (classify_spec hcompiled.planned.classified)
      (haliases ▸ hcompiled.planned.root)).mpr hfits.narrow
  have hdenotes := hcompiled.constsDenote hentries hwritable hnarrow (hscanned.symm ▸ hfits.apart)
  exact ⟨result, scans, cs, hcompiled.planned, hcompiled.runQuery_returns hrun hparse
    (hnodup.sublist (List.take_sublist _ _)) hentries hfits.boolean hstored hfresh hnarrow hdenotes
    fun code hcode => hfits.clean result ctx' code hrun hcode⟩

end

/-! ### Two tables -/

def singleTable : InMemoryTable := ⟨"single", 1, [⟨"z", .integer, 4224, [2]⟩]⟩

/-- `SELECT a.x FROM point a, single b WHERE l = z`, with `z` as it is written. -/
def mixedStmt (l : Expr) (tableAlias : String) : SelectStmt where
  selectList := [.item (.colRef ⟨"a", "x"⟩) ""]
  fromList := [⟨"point", "a"⟩, ⟨"single", "b"⟩]
  whereExpr := some (.binOp .eq l (.colRef ⟨tableAlias, "z"⟩))
  limit := noLimit

lemma mixedStmt_belongs : FromEntries.Belongs [("a", pointTable), ("b", singleTable)] "z" "b" where
  entry := List.mem_cons_of_mem _ List.mem_cons_self
  only := by
    intro x hx
    rcases List.mem_pair.mp hx with rfl | rfl
    · simp [pointTable]
    · simp [singleTable]

lemma mixedStmt_qualifies (l : Expr) :
    (mixedStmt l "").Qualifies "z" "b" (mixedStmt l "b") := .condition rfl (.right .here)

lemma mixedStmt_finds : FromEntries.Finds [("a", pointTable), ("b", singleTable)] ⟨"", "z"⟩ "b" where
  offered := ⟨("b", singleTable), by simp, rfl, _, List.mem_cons_self, answers_own _ _⟩
  qualified := fun h => absurd rfl h
  unqualified := by
    intro _ x hx hoffers
    rcases List.mem_pair.mp hx with rfl | rfl
    · obtain ⟨col, hcol, hanswers⟩ := hoffers
      have hnot : ∀ c ∈ pointTable.columns,
          ¬ ("." ++ "z").toList <:+ (pointTable.name ++ "." ++ c.name).toList := by decide +kernel
      exact absurd hanswers (hnot col hcol)
    · rfl

/-- `point` and `single` in memory. -/
def mixedHeap : Heap :=
  { emptyHeap with columns := fun addr =>
      if addr = 4096 ∨ addr = 4160 ∨ addr = 4224 then [2] else [] }

lemma mixedHeap_stored : FromEntries.Stored [("a", pointTable), ("b", singleTable)] mixedHeap := by
  refine ⟨fun x hx => ?_, fun x hx => ?_, fun x hx => ?_⟩
  · rcases List.mem_pair.mp hx with rfl | rfl <;> decide
  · rcases List.mem_pair.mp hx with rfl | rfl <;> decide
  · rcases List.mem_pair.mp hx with rfl | rfl <;> decide

lemma mixedStmt_fits {tableAlias : String}
    (hclean : (compileStmt spacedAlloc [pointTable, singleTable] 8192 (mixedStmt (.intLit 2) tableAlias)
      (initialContext (mixedHeap.newPrinter 8192))).toOption.all plansClean = true)
    (hnarrow : (mixedStmt (.intLit 2) tableAlias).NarrowJoins [("a", pointTable), ("b", singleTable)])
    (hapart : (mixedStmt (.intLit 2) tableAlias).ConstantsApart [("a", pointTable), ("b", singleTable)]
      spacedAlloc 8192) :
    FitsMachine .x86 spacedAlloc [pointTable, singleTable] 8192 mixedHeap (fun _ => .word 0)
      (mixedStmt (.intLit 2) tableAlias) [("a", pointTable), ("b", singleTable)] where
  boolean := by
    rintro e ⟨⟩
    rfl
  narrow := hnarrow
  apart := hapart
  clean := fun result ctx' code hrun hcode =>
    (runsAsPlanned_of_plansClean hclean result ctx' hrun).2.2 code hcode

end Proofs

end TidyTuples
