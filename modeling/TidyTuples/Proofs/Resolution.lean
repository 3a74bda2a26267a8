import TidyTuples.Proofs.JoinTree
import TidyTuples.Proofs.Printing

/-!
# Resolving unqualified columns

The search over all scans depends on the scans that have the column only: none, exactly one or
several. It asks for them in the order of an unordered map.
-/

namespace TidyTuples

/-- The qualified name of a column ends in the name that is looked for, behind a dot. -/
def InMemoryTable.Answers (table : InMemoryTable) (col : Column) (colName : String) : Prop :=
  ("." ++ colName).toList <:+ (table.name ++ "." ++ col.name).toList

/-- A column of the table has this name. -/
def ScanTranslator.HasColumn (scan : ScanTranslator) (colName : String) : Prop :=
  colName ∈ scan.table.columns.map Column.name

namespace Proofs

open QueryPlanner

def columnNotFound (colName : String) : CppError := .runtimeError ("Column not found: " ++ colName)

def ambiguousColumn (colName : String) : CppError :=
  .runtimeError ("Ambiguous column reference: " ++ colName)

/-- The scans that answer to the column name. -/
def hits (scans : Scans) (colName : String) : Scans :=
  scans.filter fun x => (x.2.getIU colName).isOk

section

variable {scans scans' : Scans} {colName : String}

/-! ### Identifiers -/

lemma isIdentChar_of_isIdentifier {name : String} (h : isIdentifier name = true) :
    ∀ c ∈ name.toList, isIdentChar c = true := by
  unfold isIdentifier at h
  cases hname : name.toList with
  | nil =>
    rw [hname] at h
    cases h
  | cons c cs =>
    rw [hname] at h
    dsimp only at h
    rw [Bool.and_eq_true, Bool.and_eq_true] at h
    obtain ⟨⟨hstart, hrest⟩, -⟩ := h
    intro x hx
    rcases List.mem_cons.mp hx with rfl | hx
    · exact (isIdentStart_identChar hstart).1
    · exact List.all_eq_true.mp hrest x hx

lemma notMem_of_isIdentifier {name : String} (h : isIdentifier name = true) {c : Char}
    (hc : isIdentChar c = false) : c ∉ name.toList := by
  intro hmem
  rw [isIdentChar_of_isIdentifier h c hmem] at hc
  cases hc

/-- The text by which a missing column is told from an ambiguous one. -/
lemma ambiguous_mentions_no_missing (hspace : ' ' ∉ colName.toList) :
    ¬ "Column not found".toList <:+: ("Ambiguous column reference: " ++ colName).toList := by
  rw [String.toList_append]
  rintro ⟨pre, post, heq⟩
  have hinside : ∀ xs, "Column not found".toList ++ post = xs → ' ' ∈ xs := by
    rintro xs rfl
    exact List.mem_append_left _ (by decide +kernel)
  rw [List.append_assoc] at heq
  rcases List.append_eq_append_iff.mp heq with ⟨front, hfront, hrest⟩ | ⟨front, hfront, hrest⟩
  · cases front with
    | nil => exact hspace (hinside _ hrest)
    | cons c front =>
      -- the text that is looked for starts with a letter that the message does not have
      have hC : 'C' ∈ "Ambiguous column reference: ".toList := by
        rw [hfront]
        have hhead : c = 'C' := by
          have hfirst := congrArg List.head? hrest
          exact (Option.some.inj hfirst).symm
        rw [hhead]
        simp
      exact absurd hC (by decide +kernel)
  · apply hspace
    rw [hrest]
    exact List.mem_append_right _ (hinside _ rfl)

/-! ### One scan -/

lemma answers_own (table : InMemoryTable) (col : Column) : table.Answers col col.name := by
  unfold InMemoryTable.Answers
  have hsplit : (table.name ++ ("." ++ col.name)).toList =
      table.name.toList ++ ("." ++ col.name).toList := String.toList_append
  rw [String.append_assoc, hsplit]
  exact List.suffix_append _ _

/-- A scan answers to a name with the IU of a column. -/
lemma getIU_ok_iff {scan : ScanTranslator} : (∃ iu, scan.getIU colName = .ok iu) ↔
    ∃ col ∈ scan.table.columns, scan.table.Answers col colName := by
  unfold ScanTranslator.getIU
  cases hfind : scan.colIUs.find? fun iu => ("." ++ colName).toList.isSuffixOf iu.name.toList with
  | none =>
    apply iff_of_false
    · rintro ⟨iu, hiu⟩
      cases hiu
    · rintro ⟨col, hcol, hanswers⟩
      obtain ⟨i, hi⟩ := List.mem_iff_getElem?.mp hcol
      have hnone := List.find?_eq_none.mp hfind _ (mem_colIUs.mpr ⟨i, col, hi, rfl⟩)
      exact hnone (List.isSuffixOf_iff_suffix.mpr hanswers)
  | some iu =>
    apply iff_of_true ⟨iu, rfl⟩
    have hanswers := List.find?_some hfind
    obtain ⟨i, col, hi, rfl⟩ := mem_colIUs.mp (List.mem_of_find?_eq_some hfind)
    exact ⟨col, List.mem_of_getElem? hi, List.isSuffixOf_iff_suffix.mp hanswers⟩

/-- With names without dots a scan answers to its columns and to nothing else. -/
lemma getIU_isOk_iff {scan : ScanTranslator} (hname : '.' ∉ colName.toList)
    (hcols : ∀ col ∈ scan.table.columns, '.' ∉ col.name.toList) :
    (scan.getIU colName).isOk = true ↔ scan.HasColumn colName := by
  have hok : (scan.getIU colName).isOk = true ↔ ∃ iu, scan.getIU colName = .ok iu := by
    cases scan.getIU colName with
    | error e => simp [Except.isOk, Except.toBool]
    | ok iu => simp [Except.isOk, Except.toBool]
  rw [hok, getIU_ok_iff]
  unfold ScanTranslator.HasColumn
  rw [List.mem_map]
  apply exists_congr
  intro col
  apply and_congr_right
  intro hcol
  unfold InMemoryTable.Answers
  rw [← List.isSuffixOf_iff_suffix, named_iff hname (hcols col hcol)]
  exact eq_comm

/-! ### The search -/

/-- Exactly one entry of a table keyed by `f` is selected. -/
lemma filter_eq_singleton {α β : Type} {l : List α} {p : α → Bool} {f : α → β}
    (h : (l.map f).Nodup) {x : α} :
    l.filter p = [x] ↔ x ∈ l ∧ p x = true ∧ ∀ y ∈ l, p y = true → f y = f x := by
  constructor
  · intro hone
    have hx : x ∈ l.filter p := hone ▸ List.mem_singleton_self x
    obtain ⟨hmem, hp⟩ := List.mem_filter.mp hx
    refine ⟨hmem, hp, fun y hy hpy => ?_⟩
    have hin : y ∈ l.filter p := List.mem_filter.mpr ⟨hy, hpy⟩
    rw [hone] at hin
    rw [List.mem_singleton.mp hin]
  · rintro ⟨hmem, hp, hunique⟩
    have hsame : ∀ y ∈ l.filter p, y = x := by
      intro y hy
      obtain ⟨hyl, hpy⟩ := List.mem_filter.mp hy
      exact List.inj_on_of_nodup_map h hyl hmem (hunique y hyl hpy)
    have hin : x ∈ l.filter p := List.mem_filter.mpr ⟨hmem, hp⟩
    have hnodup : (l.filter p).Nodup := (List.Nodup.of_map f h).filter p
    rw [List.eq_replicate_of_mem hsame] at hnodup hin ⊢
    have hone : (l.filter p).length = 1 := by
      have hle := List.nodup_replicate.mp hnodup
      have hpos := (List.mem_replicate.mp hin).1
      omega
    rw [hone]
    rfl

lemma hits_cons (a : String) (scan : ScanTranslator) (rest : Scans) :
    hits ((a, scan) :: rest) colName =
      if (scan.getIU colName).isOk then (a, scan) :: hits rest colName else hits rest colName := by
  unfold hits
  rw [List.filter_cons]

lemma searchScans_found (hspace : ' ' ∉ colName.toList) {found : String} (hfound : found ≠ "") :
    searchScans colName scans found =
      if hits scans colName = [] then .ok found else .error (ambiguousColumn colName) := by
  induction scans with
  | nil =>
    unfold searchScans
    rw [if_neg hfound]
    rfl
  | cons x rest ih =>
    obtain ⟨a, scan⟩ := x
    unfold searchScans
    rw [hits_cons]
    cases scan.getIU colName with
    | error e => exact ih
    | ok iu =>
      dsimp only
      rw [if_neg hfound, if_neg (ambiguous_mentions_no_missing hspace)]
      rfl

/-- No scan, one scan or several scans have the column. -/
lemma searchScans_eq (hspace : ' ' ∉ colName.toList) (hnames : ∀ x ∈ scans, x.1 ≠ "") :
    searchScans colName scans "" = match hits scans colName with
      | [] => .error (columnNotFound colName)
      | [x] => .ok x.1
      | _ => .error (ambiguousColumn colName) := by
  induction scans with
  | nil => rfl
  | cons x rest ih =>
    obtain ⟨a, scan⟩ := x
    unfold searchScans
    rw [hits_cons]
    cases scan.getIU colName with
    | error e => exact ih fun y hy => hnames y (List.mem_cons_of_mem _ hy)
    | ok iu =>
      dsimp only
      rw [if_pos rfl, searchScans_found hspace (hnames _ List.mem_cons_self)]
      cases hits rest colName with
      | nil => rfl
      | cons y ys => rfl

end

/-- The scan under `a` is the only one that has the column. -/
def OnlyScan (scans : Scans) (colName a : String) : Prop :=
  ∃ scan, (a, scan) ∈ scans ∧ scan.HasColumn colName ∧
    ∀ x ∈ scans, x.2.HasColumn colName → x.1 = a

/-- Whatever the order in which the map is walked, an unqualified column resolves to the only scan
that has it, and the search throws when there is none or when there are several. -/
theorem resolveAlias_exact (scans scans' : Scans) (colName : String)
    (hdistinct : (scans.map Prod.fst).Nodup) (haliases : ∀ x ∈ scans, x.1 ≠ "")
    (hcols : ∀ x ∈ scans, ∀ col ∈ x.2.table.columns, isIdentifier col.name = true)
    (hname : isIdentifier colName = true) (horder : scans'.Perm scans) :
    resolveAlias scans' ⟨"", colName⟩ = resolveAlias scans ⟨"", colName⟩ ∧
    (∀ a, resolveAlias scans ⟨"", colName⟩ = .ok a ↔ OnlyScan scans colName a) ∧
    ((∀ a, ¬ OnlyScan scans colName a) →
      resolveAlias scans ⟨"", colName⟩ = .error (columnNotFound colName) ∨
      resolveAlias scans ⟨"", colName⟩ = .error (ambiguousColumn colName)) := by
  have hspace := notMem_of_isIdentifier hname (c := ' ') (by decide +kernel)
  have hdot := notMem_of_isIdentifier hname (c := '.') (by decide +kernel)
  have hdots : ∀ x ∈ scans, ∀ col ∈ x.2.table.columns, '.' ∉ col.name.toList := fun x hx col hcol =>
    notMem_of_isIdentifier (hcols x hx col hcol) (by decide +kernel)
  have hok : ∀ x ∈ scans, (x.2.getIU colName).isOk = true ↔ x.2.HasColumn colName := fun x hx =>
    getIU_isOk_iff hdot (hdots x hx)
  have hpermuted : (hits scans' colName).Perm (hits scans colName) := horder.filter _
  have hsearch : resolveAlias scans ⟨"", colName⟩ = searchScans colName scans "" := rfl
  have hsearch' : resolveAlias scans' ⟨"", colName⟩ = searchScans colName scans' "" := rfl
  have honly : ∀ a, OnlyScan scans colName a ↔ ∃ scan, hits scans colName = [(a, scan)] := by
    intro a
    apply exists_congr
    intro scan
    unfold hits
    rw [filter_eq_singleton hdistinct]
    constructor
    · rintro ⟨hscan, hhas, hunique⟩
      exact ⟨hscan, (hok _ hscan).mpr hhas, fun x hx hxok => hunique x hx ((hok x hx).mp hxok)⟩
    · rintro ⟨hscan, hisOk, hunique⟩
      exact ⟨hscan, (hok _ hscan).mp hisOk, fun x hx hxhas => hunique x hx ((hok x hx).mpr hxhas)⟩
  rw [hsearch, hsearch', searchScans_eq hspace haliases,
    searchScans_eq hspace fun x hx => haliases x (horder.mem_iff.mp hx)]
  generalize hits scans colName = found at honly hpermuted
  generalize hits scans' colName = found' at hpermuted
  cases found with
  | nil =>
    rw [hpermuted.eq_nil]
    refine ⟨rfl, fun a => ?_, fun _ => .inl rfl⟩
    rw [honly]
    simp
  | cons x rest =>
    cases rest with
    | nil =>
      rw [List.perm_singleton.mp hpermuted]
      refine ⟨rfl, fun a => ?_, fun hnone => absurd ((honly x.1).mpr ⟨x.2, rfl⟩) (hnone x.1)⟩
      rw [honly]
      constructor
      · intro ha
        cases ha
        exact ⟨x.2, rfl⟩
      · rintro ⟨scan, hscan⟩
        rw [(List.cons.inj hscan).1]
    | cons y ys =>
      have hlen := hpermuted.length_eq
      obtain ⟨x', y', ys', rfl⟩ : ∃ x' y' ys', found' = x' :: y' :: ys' := by
        match found' with
        | [] => cases hlen
        | [_] => cases hlen
        | x' :: y' :: ys' => exact ⟨x', y', ys', rfl⟩
      refine ⟨rfl, fun a => ?_, fun _ => .inr rfl⟩
      rw [honly]
      simp

/-- A scan of a table with one column. -/
def columnScan (id : Nat) (colName : String) : ScanTranslator :=
  ⟨id, ⟨"t", 0, [⟨colName, .integer, 4096, []⟩]⟩, id⟩

theorem resolveAlias_exact_pair :
    resolveAlias [("b", columnScan 1 "y"), ("a", columnScan 0 "x")] ⟨"", "x"⟩ =
      resolveAlias [("a", columnScan 0 "x"), ("b", columnScan 1 "y")] ⟨"", "x"⟩ ∧
    (∀ a, resolveAlias [("a", columnScan 0 "x"), ("b", columnScan 1 "y")] ⟨"", "x"⟩ = .ok a ↔
      OnlyScan [("a", columnScan 0 "x"), ("b", columnScan 1 "y")] "x" a) :=
  have h := resolveAlias_exact [("a", columnScan 0 "x"), ("b", columnScan 1 "y")]
    [("b", columnScan 1 "y"), ("a", columnScan 0 "x")] "x" (by decide +kernel) (by decide +kernel)
    (by decide +kernel) (by decide +kernel) (List.Perm.swap _ _ _)
  ⟨h.1, h.2.1⟩

end Proofs

end TidyTuples
