import TidyTuples.Io.CsvLoader
import Mathlib.Data.List.Infix
import Mathlib.Algebra.Order.BigOperators.Group.List
import Mathlib.Algebra.Order.Group.Nat
import Mathlib.Data.List.Nodup

/-!
# What a loaded CSV table holds

Strings get their ids in the order in which the loader meets them. From this follow what a cell is
stored as, when a loaded table loses a cell, and when ids can be compared across tables.
-/

namespace TidyTuples

/-- A string list with one more string, if it is new. -/
def insertNew (d : List Bytes) (s : Bytes) : List Bytes := if s ∈ d then d else d ++ [s]

/-- The strings in the order of their first occurrence. -/
def distinctStrings (d ss : List Bytes) : List Bytes := ss.foldl insertNew d

/-- The non-empty cells of the string columns of a row. -/
def stringCells (cells : List (Bool × Bytes)) : List Bytes :=
  cells.filterMap fun (isString, cell) => if isString ∧ cell ≠ [] then some cell else none

/-- The lines that are data rows. -/
def dataLines (lines : List Bytes) : List Bytes :=
  lines.filter fun line => line ≠ [] ∧ line ≠ ['\r']

/-- The strings of a file in the order in which they are met. -/
def fileStrings (numCols : Nat) (lines : List Bytes) : List Bytes :=
  distinctStrings [] ((rawRows numCols lines).flatMap fun row =>
    stringCells ((stringColumns numCols (rawRows numCols lines)).zip row))

/-- The id of the `i`-th string. -/
def idOf (i : Nat) : Word := BitVec.ofNat 64 (i + 1)

/-- What a cell is stored as, when the dictionary is `strings` in the end. -/
def cellValue (strings : List Bytes) : Bool × Bytes → Word
  | (true, cell) => if cell = [] then 0 else idOf (strings.idxOf cell)
  | (false, cell) => (tryParseInt cell).getD 0

namespace Proofs

/-! ### Strings in the order of their first occurrence -/

lemma prefix_insertNew (d : List Bytes) (s : Bytes) : d <+: insertNew d s := by
  unfold insertNew
  split_ifs
  · exact List.prefix_rfl
  · exact List.prefix_append d [s]

lemma mem_insertNew (d : List Bytes) (s : Bytes) : s ∈ insertNew d s := by
  unfold insertNew
  split_ifs with h
  · exact h
  · simp

lemma insertNew_nodup {d : List Bytes} (h : d.Nodup) (s : Bytes) : (insertNew d s).Nodup := by
  unfold insertNew
  split_ifs with hs
  · exact h
  · exact List.nodup_append.mpr ⟨h, List.nodup_singleton s, fun a ha b hb hab =>
      hs (by rwa [← List.mem_singleton.mp hb, ← hab])⟩

lemma prefix_distinctStrings (d ss : List Bytes) : d <+: distinctStrings d ss := by
  induction ss generalizing d with
  | nil => exact List.prefix_rfl
  | cons s rest ih => exact (prefix_insertNew d s).trans (ih (insertNew d s))

lemma distinctStrings_nodup {d : List Bytes} (h : d.Nodup) (ss : List Bytes) :
    (distinctStrings d ss).Nodup := by
  induction ss generalizing d with
  | nil => exact h
  | cons s rest ih => exact ih (insertNew_nodup h s)

lemma distinctStrings_append (d ss ss' : List Bytes) :
    distinctStrings d (ss ++ ss') = distinctStrings (distinctStrings d ss) ss' := List.foldl_append

lemma mem_distinctStrings {d ss : List Bytes} {s : Bytes} :
    s ∈ distinctStrings d ss ↔ s ∈ d ∨ s ∈ ss := by
  induction ss generalizing d with
  | nil => simp [distinctStrings]
  | cons a rest ih =>
    have hinsert : s ∈ insertNew d a ↔ s ∈ d ∨ s = a := by
      unfold insertNew
      split_ifs with ha
      · constructor
        · exact .inl
        · rintro (h | rfl)
          · exact h
          · exact ha
      · simp
    change s ∈ distinctStrings (insertNew d a) rest ↔ _
    rw [ih, hinsert, List.mem_cons, or_assoc]

lemma distinctStrings_length (d ss : List Bytes) :
    (distinctStrings d ss).length ≤ d.length + ss.length := by
  induction ss generalizing d with
  | nil => exact Nat.le_refl _
  | cons s rest ih =>
    have hinsert : (insertNew d s).length ≤ d.length + 1 := by
      unfold insertNew
      split_ifs
      · exact Nat.le_succ _
      · simp
    have hrest := ih (insertNew d s)
    change (distinctStrings (insertNew d s) rest).length ≤ _
    rw [List.length_cons]
    omega

lemma idxOf_of_prefix {d D : List Bytes} (h : d <+: D) {s : Bytes} (hs : s ∈ d) :
    D.idxOf s = d.idxOf s := by
  obtain ⟨rest, rfl⟩ := h
  exact List.idxOf_append_of_mem hs

/-! ### The dictionary -/

/-- The map gives every string its position. -/
def DictOk (d : StringDict) : Prop := ∀ s, d.strToId.lookup s =
  if s ∈ d.idToStr then some (idOf (d.idToStr.idxOf s)) else none

lemma dictOk_empty : DictOk {} := by
  intro s
  simp

lemma intern_spec {d : StringDict} (h : DictOk d) (s : Bytes) : DictOk (d.intern s).2 ∧
    (d.intern s).2.idToStr = insertNew d.idToStr s ∧
    (d.intern s).1 = idOf ((insertNew d.idToStr s).idxOf s) := by
  unfold StringDict.intern insertNew
  by_cases hs : s ∈ d.idToStr
  · rw [h s, if_pos hs, if_pos hs]
    exact ⟨h, rfl, rfl⟩
  · rw [h s, if_neg hs, if_neg hs]
    refine ⟨?_, rfl, ?_⟩
    · intro s'
      change List.lookup s' ((s, _) :: d.strToId) = if s' ∈ d.idToStr ++ [s] then _ else none
      rw [List.lookup_cons]
      by_cases heq : s' = s
      · rw [heq, beq_self_eq_true, if_pos (by simp), List.idxOf_append_of_notMem hs]
        simp [idOf]
      · rw [beq_eq_false_iff_ne.mpr heq]
        change d.strToId.lookup s' = _
        rw [h s']
        by_cases hmem : s' ∈ d.idToStr
        · rw [if_pos hmem, if_pos (List.mem_append_left _ hmem), List.idxOf_append_of_mem hmem]
        · rw [if_neg hmem, if_neg (by simp [hmem, heq])]
    · rw [List.idxOf_append_of_notMem hs]
      simp [idOf]

lemma stringCells_cons (x : Bool × Bytes) (xs : List (Bool × Bytes)) :
    stringCells (x :: xs) = stringCells [x] ++ stringCells xs := by
  unfold stringCells
  rw [← List.filterMap_append]
  rfl

lemma storeCell_spec {d : StringDict} (h : DictOk d) (x : Bool × Bytes) :
    DictOk (storeCell x.1 x.2 d).2 ∧
    (storeCell x.1 x.2 d).2.idToStr = distinctStrings d.idToStr (stringCells [x]) ∧
    ∀ D, (storeCell x.1 x.2 d).2.idToStr <+: D → (storeCell x.1 x.2 d).1 = cellValue D x := by
  obtain ⟨isString, cell⟩ := x
  cases isString with
  | false => exact ⟨h, rfl, fun _ _ => rfl⟩
  | true =>
    by_cases hcell : cell = []
    · subst hcell
      exact ⟨h, rfl, fun _ _ => rfl⟩
    · have hstore : storeCell true cell d = d.intern cell := by
        unfold storeCell
        rw [if_pos rfl, if_neg hcell]
      have hcells : stringCells [(true, cell)] = [cell] := by simp [stringCells, hcell]
      obtain ⟨hok, hstr, hid⟩ := intern_spec h cell
      rw [hcells]
      change DictOk (storeCell true cell d).2 ∧ (storeCell true cell d).2.idToStr = _ ∧
        ∀ D, (storeCell true cell d).2.idToStr <+: D → (storeCell true cell d).1 = _
      rw [hstore]
      refine ⟨hok, hstr, fun D hD => ?_⟩
      rw [hstr] at hD
      rw [hid, cellValue, if_neg hcell, idxOf_of_prefix hD (mem_insertNew _ _)]

lemma storeRow_spec {d : StringDict} (h : DictOk d) (xs : List (Bool × Bytes)) :
    DictOk (storeRow xs d).2 ∧
    (storeRow xs d).2.idToStr = distinctStrings d.idToStr (stringCells xs) ∧
    ∀ D, (storeRow xs d).2.idToStr <+: D → (storeRow xs d).1 = xs.map (cellValue D) := by
  induction xs generalizing d with
  | nil => exact ⟨h, rfl, fun _ _ => rfl⟩
  | cons x rest ih =>
    obtain ⟨hok, hstr, hval⟩ := storeCell_spec h x
    obtain ⟨hok', hstr', hval'⟩ := ih hok
    have hpre : (storeCell x.1 x.2 d).2.idToStr <+:
        (storeRow rest (storeCell x.1 x.2 d).2).2.idToStr := by
      rw [hstr']
      exact prefix_distinctStrings _ _
    refine ⟨hok', ?_, fun D hD => ?_⟩
    · rw [stringCells_cons, distinctStrings_append, ← hstr]
      exact hstr'
    · change (storeCell x.1 x.2 d).1 :: (storeRow rest (storeCell x.1 x.2 d).2).1 = _
      rw [List.map_cons, hval D (hpre.trans hD), hval' D hD]

lemma storeRows_spec {d : StringDict} (h : DictOk d) (isStringCol : List Bool)
    (rows : List (List Bytes)) : DictOk (storeRows isStringCol rows d).2 ∧
    (storeRows isStringCol rows d).2.idToStr =
      distinctStrings d.idToStr (rows.flatMap fun row => stringCells (isStringCol.zip row)) ∧
    ∀ D, (storeRows isStringCol rows d).2.idToStr <+: D → (storeRows isStringCol rows d).1 =
      rows.map fun row => (isStringCol.zip row).map (cellValue D) := by
  induction rows generalizing d with
  | nil => exact ⟨h, rfl, fun _ _ => rfl⟩
  | cons row rest ih =>
    obtain ⟨hok, hstr, hval⟩ := storeRow_spec h (isStringCol.zip row)
    obtain ⟨hok', hstr', hval'⟩ := ih hok
    have hpre : (storeRow (isStringCol.zip row) d).2.idToStr <+:
        (storeRows isStringCol rest (storeRow (isStringCol.zip row) d).2).2.idToStr := by
      rw [hstr']
      exact prefix_distinctStrings _ _
    refine ⟨hok', ?_, fun D hD => ?_⟩
    · rw [List.flatMap_cons, distinctStrings_append, ← hstr]
      exact hstr'
    · change (storeRow (isStringCol.zip row) d).1 ::
        (storeRows isStringCol rest (storeRow (isStringCol.zip row) d).2).1 = _
      rw [List.map_cons, hval D (hpre.trans hD), hval' D hD]

/-! ### The loaded table -/

/-- The number of columns the header gives. -/
def numColsOf (header : Bytes) : Nat := (csvSplitLine (stripBOM header)).length

/-- `s` is the non-empty cell in row `r` of column `c`. -/
def Cell (numCols : Nat) (lines : List Bytes) (c r : Nat) (s : Bytes) : Prop :=
  c < numCols ∧ s ≠ [] ∧ ∃ line, (dataLines lines)[r]? = some line ∧ (csvSplitLine line)[c]? = some s

/-- The value in row `r` of column `c`. -/
def stored (t : CSVTable) (c r : Nat) : Option Word :=
  (t.table.columns[c]?).bind fun col => col.values[r]?

section

variable {numCols : Nat} {lines : List Bytes} {c r : Nat} {s : Bytes}

lemma rawRows_length : (rawRows numCols lines).length = (dataLines lines).length := List.length_map ..

lemma getD_resizeFields {fields : List Bytes} (hc : c < numCols) :
    (resizeFields numCols fields).getD c [] = fields.getD c [] := by
  unfold resizeFields
  rw [List.getD_eq_getElem?_getD, List.getD_eq_getElem?_getD]
  by_cases hlen : c < fields.length
  · rw [List.getElem?_append_left (by rw [List.length_take]; omega), List.getElem?_take_of_lt hc]
  · rw [List.getElem?_append_right (by rw [List.length_take]; omega),
      List.getElem?_eq_none (by omega : fields.length ≤ c)]
    cases hrep : (List.replicate (numCols - fields.length) ([] : Bytes))[c -
        (fields.take numCols).length]? with
    | none => rfl
    | some x => exact List.eq_of_mem_replicate (List.mem_of_getElem? hrep)

lemma row_length {row : List Bytes} (h : row ∈ rawRows numCols lines) : row.length = numCols := by
  obtain ⟨line, -, rfl⟩ := List.mem_map.mp h
  simp only [resizeFields, List.length_append, List.length_take, List.length_replicate]
  omega

lemma rawRows_getElem? : (rawRows numCols lines)[r]? =
    ((dataLines lines)[r]?).map fun line => resizeFields numCols (csvSplitLine line) :=
  List.getElem?_map ..

/-- Cells are what the rows hold. -/
lemma cell_iff : Cell numCols lines c r s ↔ c < numCols ∧ s ≠ [] ∧
    ∃ row, (rawRows numCols lines)[r]? = some row ∧ row.getD c [] = s := by
  unfold Cell
  constructor
  · rintro ⟨hc, hs, line, hline, hcell⟩
    refine ⟨hc, hs, resizeFields numCols (csvSplitLine line), ?_, ?_⟩
    · rw [rawRows_getElem?, hline]
      rfl
    · rw [getD_resizeFields hc, List.getD_eq_getElem?_getD, hcell]
      rfl
  · rintro ⟨hc, hs, row, hrow, hcell⟩
    rw [rawRows_getElem?] at hrow
    obtain ⟨line, hline, rfl⟩ := Option.map_eq_some_iff.mp hrow
    rw [getD_resizeFields hc, List.getD_eq_getElem?_getD] at hcell
    refine ⟨hc, hs, line, hline, ?_⟩
    cases hget : (csvSplitLine line)[c]? with
    | none =>
      rw [hget] at hcell
      exact absurd hcell.symm hs
    | some s' =>
      rw [hget] at hcell
      rw [← hcell]
      rfl

/-- A column is a string column if one of its first 200 cells is no integer. -/
lemma stringColumns_getD (hc : c < numCols) :
    (stringColumns numCols (rawRows numCols lines)).getD c false = true ↔
      ∃ r < 200, ∃ s, Cell numCols lines c r s ∧ isNonInt s = true := by
  unfold stringColumns
  rw [List.getD_eq_getElem?_getD, List.getElem?_map, List.getElem?_range hc]
  change List.any _ _ = true ↔ _
  rw [List.any_eq_true]
  constructor
  · rintro ⟨row, hrow, hnon⟩
    obtain ⟨r, hr⟩ := List.mem_iff_getElem?.mp hrow
    have hlt : r < 200 := by
      by_contra hge
      rw [List.getElem?_take, if_neg hge] at hr
      cases hr
    rw [List.getElem?_take_of_lt hlt] at hr
    refine ⟨r, hlt, row.getD c [], cell_iff.mpr ⟨hc, ?_, row, hr, rfl⟩, hnon⟩
    intro hnil
    rw [hnil] at hnon
    cases hnon
  · rintro ⟨r, hlt, s, hcell, hnon⟩
    obtain ⟨-, -, row, hrow, rfl⟩ := cell_iff.mp hcell
    refine ⟨row, ?_, hnon⟩
    apply List.mem_of_getElem?
    rw [List.getElem?_take_of_lt hlt]
    exact hrow

/-- What `loadCSV` returns. -/
structure Loaded (t : CSVTable) (numCols : Nat) (lines : List Bytes) : Prop where
  isStringCol : t.isStringCol = stringColumns numCols (rawRows numCols lines)
  idToStr : t.strings.idToStr = fileStrings numCols lines
  numRows : t.table.numRows = (dataLines lines).length
  columns : t.table.columns.length = numCols
  values : ∀ c < numCols, ∀ col, t.table.columns[c]? = some col → col.values =
    (rawRows numCols lines).map fun row =>
      cellValue (fileStrings numCols lines) (t.isStringCol.getD c false, row.getD c [])

lemma stored_row {strings : List Bytes} {row : List Bytes} (hc : c < numCols)
    (hrow : c < row.length) :
    (((stringColumns numCols (rawRows numCols lines)).zip row).map (cellValue strings)).getD c 0 =
      cellValue strings ((stringColumns numCols (rawRows numCols lines)).getD c false,
        row.getD c []) := by
  have hlen : c < (stringColumns numCols (rawRows numCols lines)).length := by
    rwa [stringColumns, List.length_map, List.length_range]
  have hzip : ((stringColumns numCols (rawRows numCols lines)).zip row)[c]? = some (_, _) :=
    List.getElem?_zip_eq_some.mpr ⟨List.getElem?_eq_getElem hlen, List.getElem?_eq_getElem hrow⟩
  rw [List.getD_eq_getElem?_getD, List.getElem?_map, hzip, List.getD_eq_getElem?_getD,
    List.getD_eq_getElem?_getD, List.getElem?_eq_getElem hlen, List.getElem?_eq_getElem hrow]
  rfl

lemma splitFields_ne_nil (line cur : Bytes) (inQuote : Bool) :
    splitFields line cur inQuote ≠ [] := by
  fun_induction splitFields line cur inQuote <;> simp_all

/-- A header always has a column. -/
lemma loadCSV_ok (address : Nat → Word) (path name : String) (header : Bytes)
    (lines : List Bytes) : ∃ t, loadCSV address path name (some (header :: lines)) = .ok t := by
  have hcols : (csvSplitLine (stripBOM header)).length ≠ 0 := by
    rw [Ne, List.length_eq_zero_iff]
    exact splitFields_ne_nil _ _ _
  unfold loadCSV
  dsimp only
  rw [if_neg hcols]
  exact ⟨_, rfl⟩

lemma loadCSV_loaded {address : Nat → Word} {path name : String} {header : Bytes} {t : CSVTable}
    (h : loadCSV address path name (some (header :: lines)) = .ok t) :
    Loaded t (numColsOf header) lines := by
  unfold loadCSV at h
  dsimp only at h
  split_ifs at h with hcols
  · cases h
  have ht := Except.ok.inj h
  have hspec := storeRows_spec dictOk_empty (stringColumns (numColsOf header)
    (rawRows (numColsOf header) lines)) (rawRows (numColsOf header) lines)
  obtain ⟨-, hstr, hval⟩ := hspec
  have hcolumns : ∀ c, t.table.columns[c]? = _ := fun c => by rw [← ht, List.getElem?_mapIdx]
  subst ht
  constructor
  · rfl
  · exact hstr
  · exact rawRows_length
  · exact List.length_mapIdx ..
  · intro c hc col hcol
    rw [hcolumns, List.getElem?_eq_getElem hc] at hcol
    have heq := Option.some.inj hcol
    rw [← heq]
    have hall := hval _ (List.prefix_rfl)
    rw [hstr] at hall
    change (storeRows (stringColumns (numColsOf header) (rawRows (numColsOf header) lines))
      (rawRows (numColsOf header) lines) {}).1.map (fun row => row.getD c 0) = _
    rw [hall, List.map_map]
    apply List.map_congr_left
    intro row hrow
    have hlen : c < row.length := by rwa [row_length hrow]
    exact stored_row hc hlen

lemma stored_eq {t : CSVTable} (h : Loaded t numCols lines) (hcell : Cell numCols lines c r s) :
    stored t c r =
      some (cellValue (fileStrings numCols lines) (t.isStringCol.getD c false, s)) := by
  obtain ⟨hc, -, row, hrow, rfl⟩ := cell_iff.mp hcell
  have hcol : t.table.columns[c]? = some _ :=
    List.getElem?_eq_getElem (by rw [h.columns]; exact hc)
  rw [stored, hcol, Option.bind_some, h.values c hc _ hcol, List.getElem?_map, hrow]
  rfl

/-- The strings are the cells of the string columns. -/
lemma mem_fileStrings : s ∈ fileStrings numCols lines ↔ ∃ c r, Cell numCols lines c r s ∧
    (stringColumns numCols (rawRows numCols lines)).getD c false = true := by
  unfold fileStrings
  rw [mem_distinctStrings, List.mem_flatMap]
  constructor
  · intro hmem
    obtain ⟨row, hrow, hmem⟩ := hmem.resolve_left List.not_mem_nil
    obtain ⟨r, hr⟩ := List.mem_iff_getElem?.mp hrow
    obtain ⟨⟨isString, cell⟩, hx, hcell⟩ := List.mem_filterMap.mp hmem
    obtain ⟨c, hc⟩ := List.mem_iff_getElem?.mp hx
    obtain ⟨hflag, hget⟩ := List.getElem?_zip_eq_some.mp hc
    dsimp only at hcell hflag hget
    split_ifs at hcell with hif
    obtain rfl := Option.some.inj hcell
    have hlt : c < numCols := by
      rw [← row_length hrow]
      exact (List.getElem?_eq_some_iff.mp hget).1
    refine ⟨c, r, cell_iff.mpr ⟨hlt, hif.2, row, hr, ?_⟩, ?_⟩
    · rw [List.getD_eq_getElem?_getD, hget]
      rfl
    · rw [List.getD_eq_getElem?_getD, hflag]
      exact hif.1
  · rintro ⟨c, r, hcell, hflag⟩
    obtain ⟨hc, hs, row, hrow, hget⟩ := cell_iff.mp hcell
    have hmem := List.mem_of_getElem? hrow
    refine .inr ⟨row, hmem, List.mem_filterMap.mpr ⟨(true, s), ?_, if_pos ⟨rfl, hs⟩⟩⟩
    have hlen : c < (stringColumns numCols (rawRows numCols lines)).length := by
      rwa [stringColumns, List.length_map, List.length_range]
    have hrowlen : c < row.length := by rwa [row_length hmem]
    rw [List.getD_eq_getElem?_getD, List.getElem?_eq_getElem hlen] at hflag
    rw [List.getD_eq_getElem?_getD, List.getElem?_eq_getElem hrowlen] at hget
    apply List.mem_of_getElem?
    apply List.getElem?_zip_eq_some.mpr
    constructor
    · rw [List.getElem?_eq_getElem hlen, ← hflag]
      rfl
    · rw [List.getElem?_eq_getElem hrowlen, ← hget]
      rfl

lemma fileStrings_nodup : (fileStrings numCols lines).Nodup := distinctStrings_nodup List.nodup_nil _

/-! ### A file has no more strings than bytes -/

lemma splitFields_length (line cur : Bytes) (inQuote : Bool) :
    (splitFields line cur inQuote).length ≤ line.length + 1 := by
  fun_induction splitFields line cur inQuote with
  | case1 cur inQuote => simp
  | case2 rest cur ih =>
    rw [List.length_cons, List.length_cons]
    omega
  | case3 rest cur inQuote _ ih =>
    rw [List.length_cons]
    omega
  | case4 rest cur ih =>
    rw [List.length_cons, List.length_cons]
    omega
  | case5 c rest cur inQuote _ _ _ ih =>
    rw [List.length_cons]
    omega

lemma stringCells_sublist (flags : List Bool) (row : List Bytes) :
    (stringCells (flags.zip row)).Sublist (row.filter fun cell => cell ≠ []) := by
  induction row generalizing flags with
  | nil =>
    rw [List.zip_nil_right]
    exact List.nil_sublist _
  | cons cell rest ih =>
    cases flags with
    | nil => exact List.nil_sublist _
    | cons flag flags =>
      rw [List.zip_cons_cons, stringCells_cons, List.filter_cons]
      by_cases hcell : cell = []
      · subst hcell
        have hnone : stringCells [(flag, ([] : Bytes))] = [] := by simp [stringCells]
        rw [hnone]
        exact ih flags
      · rw [if_pos (by simpa using hcell)]
        cases flag with
        | false =>
          have hnone : stringCells [(false, cell)] = [] := by simp [stringCells]
          rw [hnone]
          exact (ih flags).cons cell
        | true =>
          have hone : stringCells [(true, cell)] = [cell] := by simp [stringCells, hcell]
          rw [hone]
          exact (ih flags).cons_cons cell

lemma stringCells_length (flags : List Bool) (line : Bytes) :
    (stringCells (flags.zip (resizeFields numCols (csvSplitLine line)))).length ≤
      line.length + 1 := by
  have hcells := (stringCells_sublist flags (resizeFields numCols (csvSplitLine line))).length_le
  have hpad : (List.replicate (numCols - (csvSplitLine line).length) ([] : Bytes)).filter
      (fun cell => cell ≠ []) = [] := by simp
  rw [resizeFields, List.filter_append, hpad, List.append_nil] at hcells
  have hfields := (List.filter_sublist (p := fun cell : Bytes => decide (cell ≠ []))
    (l := (csvSplitLine line).take numCols)).length_le
  have htake := List.length_take_le' numCols (csvSplitLine line)
  have hline := splitFields_length line [] false
  have hfields' : (csvSplitLine line).length ≤ line.length + 1 := hline
  unfold resizeFields
  omega

/-- The bytes of the lines of a file and of their ends. -/
def fileSize (lines : List Bytes) : Nat := (lines.map fun line => line.length + 1).sum

lemma fileStrings_length : (fileStrings numCols lines).length ≤ fileSize lines := by
  have hdistinct := distinctStrings_length [] ((rawRows numCols lines).flatMap fun row =>
    stringCells ((stringColumns numCols (rawRows numCols lines)).zip row))
  rw [List.length_nil, Nat.zero_add, List.length_flatMap, rawRows, List.map_map] at hdistinct
  refine hdistinct.trans ?_
  have hsub : ((dataLines lines).map fun line => line.length + 1).sum ≤ fileSize lines :=
    List.Sublist.sum_le_sum (List.filter_sublist.map _) fun _ _ => Nat.zero_le _
  refine Nat.le_trans ?_ hsub
  apply List.sum_le_sum
  intro line _
  exact stringCells_length _ line

/-! ### Ids and strings -/

lemma idOf_toInt {i : Nat} (h : i + 1 < 2 ^ 63) : (idOf i).toInt = i + 1 := by
  have hnat : (idOf i).toNat = i + 1 := by
    rw [idOf, BitVec.toNat_ofNat]
    omega
  rw [BitVec.toInt_eq_toNat_of_lt (by rw [hnat]; omega), hnat]
  push_cast
  rfl

lemma idOf_inj {i j : Nat} (hi : i + 1 < 2 ^ 63) (hj : j + 1 < 2 ^ 63) (h : idOf i = idOf j) :
    i = j := by
  have hint := congrArg BitVec.toInt h
  rw [idOf_toInt hi, idOf_toInt hj] at hint
  omega

lemma lookup_idOf {d : StringDict} {i : Nat} (hi : i < d.idToStr.length)
    (hlen : d.idToStr.length < 2 ^ 63) : d.lookup (idOf i) = d.idToStr.getD i [] := by
  have hint := idOf_toInt (i := i) (by omega)
  rw [StringDict.lookup, hint, if_neg (by omega)]
  congr 1

/-! ### Which cells a table gives back -/

/-- The table holds the cell `s` in row `r` of column `c`. -/
def Represents (t : CSVTable) (c r : Nat) (s : Bytes) : Prop := ∃ v, stored t c r = some v ∧
  if t.isStringCol.getD c false then t.strings.lookup v = s else decimalValue s = some v.toInt

/-- Every non-empty cell is held, and every column is full. -/
def LosesNoCell (t : CSVTable) (numCols : Nat) (lines : List Bytes) : Prop :=
  (∀ c r s, Cell numCols lines c r s → Represents t c r s) ∧
  ∀ col ∈ t.table.columns, col.values.length = t.table.numRows

/-- A column with a cell that is no integer shows one in its first 200 rows. -/
def TypesSeenEarly (numCols : Nat) (lines : List Bytes) : Prop :=
  ∀ c r s, Cell numCols lines c r s → isNonInt s = true →
    ∃ r' < 200, ∃ s', Cell numCols lines c r' s' ∧ isNonInt s' = true

lemma tryParseInt_eq_some {v : Word} (h : tryParseInt s = some v) :
    decimalValue s = some v.toInt := by
  unfold tryParseInt at h
  cases hd : decimalValue s with
  | none =>
    rw [hd] at h
    cases h
  | some n =>
    rw [hd] at h
    change (if -2 ^ 63 ≤ n ∧ n < 2 ^ 63 then some (BitVec.ofInt 64 n) else none) = some v at h
    split_ifs at h with hrange
    have hv := Option.some.inj h
    rw [← hv, BitVec.toInt_ofInt, Int.bmod_eq_of_le (by omega) (by omega)]

/-- A number that fits is parsed. -/
lemma tryParseInt_eq_none (h : tryParseInt s = none) (v : Word) :
    decimalValue s ≠ some v.toInt := by
  intro hd
  have hlow := BitVec.le_toInt v
  have hhigh := BitVec.toInt_lt (x := v)
  unfold tryParseInt at h
  rw [hd] at h
  change (if -2 ^ 63 ≤ v.toInt ∧ v.toInt < 2 ^ 63 then some (BitVec.ofInt 64 v.toInt) else none) =
    none at h
  rw [if_pos (by omega)] at h
  cases h

lemma isNonInt_iff : isNonInt s = true ↔ s ≠ [] ∧ tryParseInt s = none := by
  simp [isNonInt]

section

variable {t : CSVTable}

lemma isStringCol_iff (h : Loaded t numCols lines) (hc : c < numCols) :
    t.isStringCol.getD c false = true ↔
      ∃ r < 200, ∃ s, Cell numCols lines c r s ∧ isNonInt s = true := by
  rw [h.isStringCol]
  exact stringColumns_getD hc

lemma represents_string (h : Loaded t numCols lines) (hsize : fileSize lines < 2 ^ 63)
    (hcell : Cell numCols lines c r s) (hstr : t.isStringCol.getD c false = true) :
    Represents t c r s := by
  have hmem : s ∈ fileStrings numCols lines :=
    mem_fileStrings.mpr ⟨c, r, hcell, by rwa [h.isStringCol] at hstr⟩
  have hlen : (fileStrings numCols lines).length ≤ fileSize lines := fileStrings_length
  have hidx := List.idxOf_lt_length_iff.mpr hmem
  refine ⟨_, stored_eq h hcell, ?_⟩
  rw [if_pos hstr, hstr, cellValue, if_neg hcell.2.1, lookup_idOf (by rwa [h.idToStr])
    (by rw [h.idToStr]; omega), h.idToStr, List.getD_eq_getElem?_getD,
    List.getElem?_eq_getElem hidx]
  exact List.getElem_idxOf hidx

lemma represents_number (h : Loaded t numCols lines) (hcell : Cell numCols lines c r s)
    (hstr : t.isStringCol.getD c false = false) : Represents t c r s ↔ isNonInt s = false := by
  have hv := stored_eq h hcell
  rw [hstr, cellValue] at hv
  unfold Represents
  rw [hv, hstr]
  cases hparse : tryParseInt s with
  | none =>
    have hnon : isNonInt s = true := isNonInt_iff.mpr ⟨hcell.2.1, hparse⟩
    rw [hnon]
    constructor
    · rintro ⟨v, -, hd⟩
      exact absurd hd (tryParseInt_eq_none hparse v)
    · intro hfalse
      cases hfalse
  | some v =>
    have hnon : isNonInt s = false := by
      rw [isNonInt, hparse]
      exact Bool.and_false _
    rw [hnon]
    exact ⟨fun _ => rfl, fun _ => ⟨v, rfl, tryParseInt_eq_some hparse⟩⟩

lemma columns_full (h : Loaded t numCols lines) :
    ∀ col ∈ t.table.columns, col.values.length = t.table.numRows := by
  intro col hcol
  obtain ⟨c, hc⟩ := List.mem_iff_getElem?.mp hcol
  have hlt := (List.getElem?_eq_some_iff.mp hc).1
  rw [h.columns] at hlt
  rw [h.values c hlt col hc, List.length_map, h.numRows]
  exact rawRows_length

end

/-- A loaded table loses no cell exactly if the first 200 rows show the type of every column. -/
theorem loadCSV_losesNoCell_iff {address : Nat → Word} {path name : String} {header : Bytes}
    {lines : List Bytes} {t : CSVTable} (hsize : fileSize lines < 2 ^ 63)
    (hload : loadCSV address path name (some (header :: lines)) = .ok t) :
    LosesNoCell t (numColsOf header) lines ↔ TypesSeenEarly (numColsOf header) lines := by
  have h := loadCSV_loaded hload
  constructor
  · intro hlose c r s hcell hnon
    by_contra hearly
    have hstr : t.isStringCol.getD c false = false := by
      rw [← Bool.not_eq_true, isStringCol_iff h hcell.1]
      exact hearly
    have hrep := (represents_number h hcell hstr).mp (hlose.1 c r s hcell)
    rw [hnon] at hrep
    cases hrep
  · intro hseen
    refine ⟨fun c r s hcell => ?_, columns_full h⟩
    cases hstr : t.isStringCol.getD c false with
    | true => exact represents_string h hsize hcell hstr
    | false =>
      apply (represents_number h hcell hstr).mpr
      rw [← Bool.not_eq_true]
      intro hnon
      have hearly := (isStringCol_iff h hcell.1).mpr (hseen c r s hcell hnon)
      rw [hstr] at hearly
      cases hearly

/-- A number, a name and one blank cell. -/
def clientLines : List Bytes := ["7,bob".toList, "-8,ann".toList, ",bob".toList]

theorem loadCSV_losesNoCell_iff_clients : ∃ t,
    loadCSV (fun _ => 0) "c.csv" "c" (some ("id,name".toList :: clientLines)) = .ok t ∧
    LosesNoCell t (numColsOf "id,name".toList) clientLines ∧ t.isStringCol = [false, true] := by
  obtain ⟨t, ht⟩ := loadCSV_ok (fun _ => 0) "c.csv" "c" "id,name".toList clientLines
  refine ⟨t, ht, (loadCSV_losesNoCell_iff (by decide) ht).mpr fun c r s hcell hnon => ?_, ?_⟩
  · -- every row is among the first 200
    obtain ⟨line, hline, -⟩ := hcell.2.2
    have hr : r < 3 := (List.getElem?_eq_some_iff.mp hline).1
    exact ⟨r, by omega, s, hcell, hnon⟩
  · rw [(loadCSV_loaded ht).isStringCol]
    decide +kernel

/-- 200 numbers, then a name. -/
def lateName : List Bytes := List.replicate 200 ['1'] ++ [['a', 'b', 'c']]

theorem loadCSV_losesNoCell_lateName : ¬ ∀ (address : Nat → Word) (path name : String)
    (header : Bytes) (lines : List Bytes) (t : CSVTable),
    loadCSV address path name (some (header :: lines)) = .ok t →
    LosesNoCell t (numColsOf header) lines := by
  intro hall
  obtain ⟨t, ht⟩ := loadCSV_ok (fun _ => 0) "l.csv" "l" ['c'] lateName
  have hloaded := loadCSV_loaded ht
  have hcell : Cell (numColsOf ['c']) lateName 0 200 ['a', 'b', 'c'] :=
    ⟨by decide, by decide, ['a', 'b', 'c'], by decide +kernel, by decide⟩
  have hstr : t.isStringCol.getD 0 false = false := by
    rw [hloaded.isStringCol]
    decide +kernel
  have hrep := (hall _ _ _ _ _ t ht).1 0 200 ['a', 'b', 'c'] hcell
  rw [represents_number hloaded hcell hstr] at hrep
  exact absurd hrep (by decide)

/-! ### Comparing ids across tables -/

/-- In string columns of two tables ids are equal for equal strings only. -/
def SameIds (t₁ t₂ : CSVTable) (numCols₁ numCols₂ : Nat) (lines₁ lines₂ : List Bytes) : Prop :=
  ∀ c₁ r₁ s₁ c₂ r₂ s₂, Cell numCols₁ lines₁ c₁ r₁ s₁ → Cell numCols₂ lines₂ c₂ r₂ s₂ →
    t₁.isStringCol.getD c₁ false = true → t₂.isStringCol.getD c₂ false = true →
    (stored t₁ c₁ r₁ = stored t₂ c₂ r₂ ↔ s₁ = s₂)

lemma stored_string {t : CSVTable} (h : Loaded t numCols lines)
    (hcell : Cell numCols lines c r s) (hstr : t.isStringCol.getD c false = true) :
    s ∈ fileStrings numCols lines ∧
      stored t c r = some (idOf ((fileStrings numCols lines).idxOf s)) := by
  constructor
  · exact mem_fileStrings.mpr ⟨c, r, hcell, by rwa [h.isStringCol] at hstr⟩
  · rw [stored_eq h hcell, hstr, cellValue, if_neg hcell.2.1]

/-- Two lists give the strings they share the same positions. -/
lemma prefix_of_getElem? {xs ys : List Bytes} (h : ∀ i < xs.length, xs[i]? = ys[i]?) :
    xs <+: ys := by
  apply List.prefix_iff_eq_take.mpr
  apply List.ext_getElem?
  intro i
  by_cases hi : i < xs.length
  · rw [h i hi, List.getElem?_take_of_lt hi]
  · rw [List.getElem?_eq_none (by omega), List.getElem?_take_eq_none (by omega)]

/-- Ids can be compared across two tables exactly if one file meets its strings in the order in
which the other meets its first ones. -/
theorem loadCSV_sameIds_iff {address₁ address₂ : Nat → Word} {path₁ path₂ name₁ name₂ : String}
    {header₁ header₂ : Bytes} {lines₁ lines₂ : List Bytes} {t₁ t₂ : CSVTable}
    (hsize₁ : fileSize lines₁ < 2 ^ 63) (hsize₂ : fileSize lines₂ < 2 ^ 63)
    (hload₁ : loadCSV address₁ path₁ name₁ (some (header₁ :: lines₁)) = .ok t₁)
    (hload₂ : loadCSV address₂ path₂ name₂ (some (header₂ :: lines₂)) = .ok t₂) :
    SameIds t₁ t₂ (numColsOf header₁) (numColsOf header₂) lines₁ lines₂ ↔
      fileStrings (numColsOf header₁) lines₁ <+: fileStrings (numColsOf header₂) lines₂ ∨
      fileStrings (numColsOf header₂) lines₂ <+: fileStrings (numColsOf header₁) lines₁ := by
  have h₁ := loadCSV_loaded hload₁
  have h₂ := loadCSV_loaded hload₂
  have hlen₁ : (fileStrings (numColsOf header₁) lines₁).length ≤ fileSize lines₁ :=
    fileStrings_length
  have hlen₂ : (fileStrings (numColsOf header₂) lines₂).length ≤ fileSize lines₂ :=
    fileStrings_length
  constructor
  · intro hsame
    have hget : ∀ i, i < (fileStrings (numColsOf header₁) lines₁).length →
        i < (fileStrings (numColsOf header₂) lines₂).length →
        (fileStrings (numColsOf header₁) lines₁)[i]? =
          (fileStrings (numColsOf header₂) lines₂)[i]? := by
      intro i hi₁ hi₂
      obtain ⟨c₁, r₁, hcell₁, hstr₁⟩ := mem_fileStrings.mp (List.getElem_mem hi₁)
      obtain ⟨c₂, r₂, hcell₂, hstr₂⟩ := mem_fileStrings.mp (List.getElem_mem hi₂)
      rw [← h₁.isStringCol] at hstr₁
      rw [← h₂.isStringCol] at hstr₂
      have hv₁ := (stored_string h₁ hcell₁ hstr₁).2
      have hv₂ := (stored_string h₂ hcell₂ hstr₂).2
      rw [fileStrings_nodup.idxOf_getElem] at hv₁ hv₂
      have heq := (hsame c₁ r₁ _ c₂ r₂ _ hcell₁ hcell₂ hstr₁ hstr₂).mp (by rw [hv₁, hv₂])
      rw [List.getElem?_eq_getElem hi₁, List.getElem?_eq_getElem hi₂, heq]
    rcases Nat.le_total (fileStrings (numColsOf header₁) lines₁).length
      (fileStrings (numColsOf header₂) lines₂).length with hle | hle
    · exact .inl (prefix_of_getElem? fun i hi => hget i hi (by omega))
    · exact .inr (prefix_of_getElem? fun i hi => (hget i (by omega) hi).symm)
  · intro hpre c₁ r₁ s₁ c₂ r₂ s₂ hcell₁ hcell₂ hstr₁ hstr₂
    obtain ⟨hmem₁, hv₁⟩ := stored_string h₁ hcell₁ hstr₁
    obtain ⟨hmem₂, hv₂⟩ := stored_string h₂ hcell₂ hstr₂
    have hlt₁ := List.idxOf_lt_length_iff.mpr hmem₁
    have hlt₂ := List.idxOf_lt_length_iff.mpr hmem₂
    have hinj : (fileStrings (numColsOf header₁) lines₁).idxOf s₁ =
        (fileStrings (numColsOf header₂) lines₂).idxOf s₂ ↔ s₁ = s₂ := by
      rcases hpre with hp | hp
      · rw [← idxOf_of_prefix hp hmem₁]
        exact List.idxOf_inj (hp.subset hmem₁)
      · rw [← idxOf_of_prefix hp hmem₂]
        exact List.idxOf_inj hmem₁
    rw [hv₁, hv₂, ← hinj, Option.some_inj]
    constructor
    · exact idOf_inj (by omega) (by omega)
    · exact congrArg idOf

theorem loadCSV_sameIds_iff_names : ∃ t₁ t₂,
    loadCSV (fun _ => 0) "a.csv" "a" (some [['n'], ['x'], ['y']]) = .ok t₁ ∧
    loadCSV (fun _ => 0) "b.csv" "b" (some [['n'], ['x']]) = .ok t₂ ∧
    (SameIds t₁ t₂ (numColsOf ['n']) (numColsOf ['n']) [['x'], ['y']] [['x']] ↔
      fileStrings (numColsOf ['n']) [['x'], ['y']] <+: fileStrings (numColsOf ['n']) [['x']] ∨
      fileStrings (numColsOf ['n']) [['x']] <+: fileStrings (numColsOf ['n']) [['x'], ['y']]) := by
  obtain ⟨t₁, h₁⟩ := loadCSV_ok (fun _ => 0) "a.csv" "a" ['n'] [['x'], ['y']]
  obtain ⟨t₂, h₂⟩ := loadCSV_ok (fun _ => 0) "b.csv" "b" ['n'] [['x']]
  exact ⟨t₁, t₂, h₁, h₂, loadCSV_sameIds_iff (by decide) (by decide) h₁ h₂⟩

/-- In the first table 1 stands for `x`, in the second for `y`. -/
theorem loadCSV_sameIds_reordered : ¬ ∀ (address₁ address₂ : Nat → Word)
    (path₁ path₂ name₁ name₂ : String) (header₁ header₂ : Bytes) (lines₁ lines₂ : List Bytes)
    (t₁ t₂ : CSVTable), loadCSV address₁ path₁ name₁ (some (header₁ :: lines₁)) = .ok t₁ →
    loadCSV address₂ path₂ name₂ (some (header₂ :: lines₂)) = .ok t₂ →
    SameIds t₁ t₂ (numColsOf header₁) (numColsOf header₂) lines₁ lines₂ := by
  intro hall
  obtain ⟨t₁, h₁⟩ := loadCSV_ok (fun _ => 0) "a.csv" "a" ['n'] [['x'], ['y']]
  obtain ⟨t₂, h₂⟩ := loadCSV_ok (fun _ => 0) "b.csv" "b" ['n'] [['y']]
  have hx : Cell (numColsOf ['n']) [['x'], ['y']] 0 0 ['x'] :=
    ⟨by decide, by decide, ['x'], by decide, by decide⟩
  have hy : Cell (numColsOf ['n']) [['y']] 0 0 ['y'] :=
    ⟨by decide, by decide, ['y'], by decide, by decide⟩
  have hstr₁ : t₁.isStringCol.getD 0 false = true := by
    rw [(loadCSV_loaded h₁).isStringCol]
    decide
  have hstr₂ : t₂.isStringCol.getD 0 false = true := by
    rw [(loadCSV_loaded h₂).isStringCol]
    decide
  have hsame := hall _ _ _ _ _ _ _ _ _ _ t₁ t₂ h₁ h₂ 0 0 _ 0 0 _ hx hy hstr₁ hstr₂
  rw [(stored_string (loadCSV_loaded h₁) hx hstr₁).2,
    (stored_string (loadCSV_loaded h₂) hy hstr₂).2] at hsame
  exact absurd (hsame.mp (by decide)) (by decide)

end

end Proofs

end TidyTuples
