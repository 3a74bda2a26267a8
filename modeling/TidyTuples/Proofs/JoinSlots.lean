import TidyTuples.Proofs.Acceptance
import TidyTuples.Proofs.PlanResources

/-!
# Joins that fit the slots of the runtime

The trampolines of a hash join have four slots for keys and four for payloads. Which columns of a
FROM entry take a slot is read off the names in the WHERE clause.
-/

namespace TidyTuples

namespace InMemoryTable

variable (table : InMemoryTable)

instance (col : Column) (colName : String) : Decidable (table.Answers col colName) :=
  inferInstanceAs (Decidable (_ <:+ _))

/-- Where the column is that a name is resolved to. -/
def position (colName : String) : Option Nat :=
  table.columns.findIdx? fun col => decide (table.Answers col colName)

/-- The columns that none of the names is resolved to. -/
def otherColumns (names : List String) : List (Column × Nat) :=
  table.columns.zipIdx.filter fun x => names.all fun colName => table.position colName != some x.2

/-- Keyed by these columns, the rows of the table fit the slots for keys and payloads. -/
def FitsSlots (names : List String) : Prop :=
  names.length ≤ 4 ∧ (table.otherColumns names).length ≤ 4

instance (names : List String) : Decidable (table.FitsSlots names) :=
  inferInstanceAs (Decidable (_ ∧ _))

end InMemoryTable

/-- The column of an alias in a join key whose other alias is one of `others`. -/
def Expr.keyName (a : String) (others : String → Bool) (c : Expr) : Option String :=
  (Proofs.keyColumns c).bind fun lr =>
    if lr.1.tableAlias = a ∧ others lr.2.tableAlias = true then some lr.1.colName
    else if lr.2.tableAlias = a ∧ others lr.1.tableAlias = true then some lr.2.colName
    else none

namespace SelectStmt

variable (stmt : SelectStmt)

def keyNames (a : String) (others : String → Bool) : List String :=
  stmt.conjuncts.filterMap (Expr.keyName a others)

/-- The build sides are narrow: the first FROM entry, keyed by its joins with the second, and the
entries behind these, keyed by all their joins. -/
def NarrowJoins : FromEntries → Prop
  | x :: y :: rest => x.2.FitsSlots (stmt.keyNames x.1 (· == y.1)) ∧
      ∀ z ∈ rest, z.2.FitsSlots (stmt.keyNames z.1 fun _ => true)
  | _ => True

instance : (entries : FromEntries) → Decidable (stmt.NarrowJoins entries)
  | [] => .isTrue trivial
  | [_] => .isTrue trivial
  | _ :: _ :: _ => inferInstanceAs (Decidable (_ ∧ _))

end SelectStmt

namespace Proofs

open QueryPlanner

section

variable {scans : Scans} {s : ScanTranslator} {a : String} {names : List String}
  {keys : List (IU × IU)}

/-! ### The columns of one scan -/

lemma colIUs_eq (s : ScanTranslator) : s.colIUs = s.table.columns.zipIdx.map fun x =>
    ⟨s.table.name ++ "." ++ x.1.name, x.1.type, s.firstIU + x.2⟩ := by
  rw [ScanTranslator.colIUs, List.mapIdx_eq_zipIdx_map]

/-- A name is resolved to the column at its position. -/
lemma getIU_position {colName : String} {iu : IU} (h : s.getIU colName = .ok iu) :
    ∃ i col, s.table.position colName = some i ∧ s.table.columns[i]? = some col ∧
      iu = ⟨s.table.name ++ "." ++ col.name, col.type, s.firstIU + i⟩ := by
  unfold ScanTranslator.getIU at h
  split at h
  · next hfind =>
    cases h
    obtain ⟨hanswers, i, hi, hget, hbefore⟩ := List.find?_eq_some_iff_getElem.mp hfind
    have hlen : s.colIUs.length = s.table.columns.length := by
      rw [ScanTranslator.colIUs, List.length_mapIdx]
    have hcol : ∀ j (hj : j < s.colIUs.length) (hj' : j < s.table.columns.length), s.colIUs[j] =
        ⟨s.table.name ++ "." ++ s.table.columns[j].name, s.table.columns[j].type, s.firstIU + j⟩ := by
      intro j hj hj'
      simp [ScanTranslator.colIUs]
    have hi' : i < s.table.columns.length := hlen ▸ hi
    refine ⟨i, s.table.columns[i], ?_, List.getElem?_eq_getElem _, ?_⟩
    · apply List.findIdx?_eq_some_iff_getElem.mpr
      refine ⟨hi', ?_, fun j hj => ?_⟩
      · rw [← hget, hcol i hi hi', List.isSuffixOf_iff_suffix] at hanswers
        exact decide_eq_true hanswers
      · have hno := hbefore j hj
        rw [hcol j (hj.trans hi) (hj.trans hi'), Bool.not_eq_true', ← Bool.not_eq_true,
          List.isSuffixOf_iff_suffix] at hno
        exact fun hdec => hno (of_decide_eq_true hdec)
    · rw [← hget, hcol i hi hi']
  · cases h

/-- The slots that the rows of a scan take as a build side. -/
lemma fitsSlots_iff (hkeys : List.Forall₂ (fun colName p => s.getIU colName = .ok p.1) names keys) :
    (keys.map Prod.fst).length ≤ 4 ∧
        (Operator.payloadIUs s.colIUs (keys.map Prod.fst)).length ≤ 4 ↔
      s.table.FitsSlots names := by
  have hpayload : (Operator.payloadIUs s.colIUs (keys.map Prod.fst)).length =
      (s.table.otherColumns names).length := by
    unfold Operator.payloadIUs InMemoryTable.otherColumns
    rw [colIUs_eq, List.filter_map, List.length_map]
    apply congrArg List.length
    apply List.filter_congr
    intro x hx
    have hcol : s.table.columns[x.2]? = some x.1 := List.mem_zipIdx_iff_getElem?.mp hx
    rw [Bool.eq_iff_iff, Function.comp_apply, Bool.not_eq_true', ← Bool.not_eq_true,
      List.contains_iff_mem, List.all_eq_true]
    constructor
    · intro hnot colName hname
      obtain ⟨p, hp, hget⟩ := forall₂_mem_left hkeys hname
      obtain ⟨i, col, hpos, hi, hiu⟩ := getIU_position hget
      rw [hpos, bne_iff_ne]
      rintro ⟨⟩
      rw [hcol] at hi
      cases hi
      exact hnot (hiu ▸ List.mem_map_of_mem hp)
    · intro hall hmem
      obtain ⟨p, hp, hpiu⟩ := List.mem_map.mp hmem
      obtain ⟨colName, hname, hget⟩ := forall₂_mem_left hkeys.flip hp
      obtain ⟨i, col, hpos, -, hiu⟩ := getIU_position hget
      rw [hpiu] at hiu
      have hid := Nat.add_left_cancel (IU.mk.inj hiu).2.2
      have hne := hall colName hname
      rw [hpos, hid, bne_self_eq_false] at hne
      cases hne
  rw [InMemoryTable.FitsSlots, hpayload, List.length_map, hkeys.length_eq]

/-! ### The keys of a join -/

variable {conjs : List Expr} {cs : Conjuncts}

/-- The join keys are those of the conjuncts, in the same order. -/
lemma Classified.keyNames (hclass : Classified scans conjs cs) {others : String → Bool}
    {side : JoinKey → Option (IU × IU)}
    (hside : ∀ (l r : ColumnRef) lIU rIU, l.tableAlias ≠ r.tableAlias →
      ∀ jk, jk = ⟨l.tableAlias, r.tableAlias, lIU, rIU⟩ ∨
          jk = ⟨r.tableAlias, l.tableAlias, rIU, lIU⟩ →
        side jk = if l.tableAlias = a ∧ others r.tableAlias = true then some (lIU, rIU)
          else if r.tableAlias = a ∧ others l.tableAlias = true then some (rIU, lIU) else none) :
    List.Forall₂ (fun colName p => resolveColumn scans ⟨a, colName⟩ = .ok p.1)
      (conjs.filterMap (Expr.keyName a others)) (cs.joinKeys.filterMap side) := by
  have hnames : conjs.filterMap (Expr.keyName a others) =
      (conjs.filterMap keyColumns).filterMap fun lr =>
        if lr.1.tableAlias = a ∧ others lr.2.tableAlias = true then some lr.1.colName
        else if lr.2.tableAlias = a ∧ others lr.1.tableAlias = true then some lr.2.colName
        else none := List.filterMap_filterMap.symm
  have hkeys := forall₂_imp_mem (S := fun lr jk => keyColumns (.binOp .eq (.colRef lr.1)
    (.colRef lr.2)) = some lr ∧ KeyOf scans lr.1 lr.2 jk) hclass.keys fun lr hlr jk hof => by
      obtain ⟨c, -, hkey⟩ := List.mem_filterMap.mp hlr
      obtain ⟨rfl, -⟩ := keyColumns_iff.mp hkey
      exact ⟨hkey, hof⟩
  rw [hnames]
  refine List.rel_filterMap (fun lr jk ⟨hkey, hof⟩ => ?_) hkeys
  obtain ⟨-, -, -, hne⟩ := keyColumns_iff.mp hkey
  obtain ⟨lIU, rIU, hl, hr, hjk⟩ := hof
  rw [hside lr.1 lr.2 lIU rIU hne jk hjk]
  split_ifs with hleft hright
  · exact .some (by rw [← hleft.1]; exact hl)
  · exact .some (by rw [← hright.1]; exact hr)
  · exact .none

lemma laterJoinKeys_names (hclass : Classified scans conjs cs) (n : String) :
    List.Forall₂ (fun colName p => resolveColumn scans ⟨n, colName⟩ = .ok p.1)
      (conjs.filterMap (Expr.keyName n fun _ => true)) (laterJoinKeys cs.joinKeys n) := by
  apply hclass.keyNames
  rintro l r lIU rIU hne jk (rfl | rfl)
  · simp
  · by_cases hl : l.tableAlias = n
    · have hr : r.tableAlias ≠ n := fun hr => hne (hl.trans hr.symm)
      simp [hl, hr]
    · simp [hl]

lemma firstJoinKeys_names (hclass : Classified scans conjs cs) (f n : String) :
    List.Forall₂ (fun colName p => resolveColumn scans ⟨f, colName⟩ = .ok p.1)
      (conjs.filterMap (Expr.keyName f (· == n))) (firstJoinKeys cs.joinKeys f n) := by
  apply hclass.keyNames
  rintro l r lIU rIU hne jk (rfl | rfl)
  · simp [and_comm]
  · by_cases hl : l.tableAlias = f
    · have hr : r.tableAlias ≠ f := fun hr => hne (hl.trans hr.symm)
      simp [hl, hr]
    · simp [hl, and_comm]

end

section

variable {entries : FromEntries} {stmt : SelectStmt} {scans : Scans} {cs : Conjuncts}
  {ctx : CompilationContext} {order : List String} {root : Operator}

lemma ScanUnder.narrow {a : String} (h : ScanUnder scans cs a root) : root.Narrow := by
  cases h <;> exact trivial

/-- A join on top of the scan of an entry. -/
lemma FromScans.join_narrow (h : FromScans entries scans ctx) {x : String × InMemoryTable}
    (hx : x ∈ entries) {build probe : Operator} (hb : ScanUnder scans cs x.1 build)
    {names : List String} {keys : List (IU × IU)}
    (hkeys : List.Forall₂ (fun colName p => resolveColumn scans ⟨x.1, colName⟩ = .ok p.1) names keys)
    {id : Nat} {ht : Word} :
    (Operator.hashJoin id build probe (keys.map Prod.fst) (keys.map Prod.snd) ht).Narrow ↔
      probe.Narrow ∧ x.2.FitsSlots names := by
  obtain ⟨s, hs, htable⟩ := h.scan x hx
  have hget : List.Forall₂ (fun colName p => s.getIU colName = .ok p.1) names keys := by
    refine hkeys.imp fun colName p hres => ?_
    obtain ⟨s', hs', hiu⟩ := (Proofs.resolveColumn_iff (h.named x hx)).mp hres
    rw [hs] at hs'
    cases hs'
    exact hiu
  have houtput : build.outputIUs = s.colIUs := by
    cases hb with
    | bare hs' =>
      rw [hs] at hs'
      cases hs'
      rfl
    | filtered hs' =>
      rw [hs] at hs'
      cases hs'
      rfl
  rw [Operator.Narrow, houtput, ← htable, ← fitsSlots_iff hget]
  exact ⟨fun hall => hall.2, fun hall => ⟨hb.narrow, hall⟩⟩

/-! ### The joins of a plan -/

/-- `NarrowJoins`, along the joins from the top of the tree down. -/
def NarrowAlong (fits : String → (String → Bool) → Prop) : List String → Prop
  | [] => True
  | [_] => True
  | [f, n] => fits f (· == n)
  | n :: done => fits n (fun _ => true) ∧ NarrowAlong fits done

lemma narrowAlong_append {fits : String → (String → Bool) → Prop} {f n : String}
    {later : List String} : NarrowAlong fits (later ++ [f, n]) ↔
      fits f (· == n) ∧ ∀ a ∈ later, fits a fun _ => true := by
  induction later with
  | nil => simp [NarrowAlong]
  | cons a rest ih =>
    have hstep : NarrowAlong fits (a :: (rest ++ [f, n])) ↔
        fits a (fun _ => true) ∧ NarrowAlong fits (rest ++ [f, n]) := by
      cases rest with
      | nil => rfl
      | cons b rest => cases rest <;> rfl
    rw [List.cons_append, hstep, ih, List.forall_mem_cons]
    exact and_left_comm

/-- The rows of an entry fit the slots. -/
def EntryFits (entries : FromEntries) (stmt : SelectStmt) (a : String) (others : String → Bool) :
    Prop :=
  ∀ x ∈ entries, x.1 = a → x.2.FitsSlots (stmt.keyNames a others)

lemma FromScans.entryFits_iff (h : FromScans entries scans ctx) {x : String × InMemoryTable}
    (hx : x ∈ entries) (others : String → Bool) :
    EntryFits entries stmt x.1 others ↔ x.2.FitsSlots (stmt.keyNames x.1 others) := by
  constructor
  · exact fun hfits => hfits x hx rfl
  · intro hfits y hy hyx
    obtain ⟨s, hs, htable⟩ := h.scan x hx
    obtain ⟨s', hs', htable'⟩ := h.scan y hy
    rw [hyx, hs] at hs'
    cases hs'
    rwa [← htable', htable]

/-- The induction is on the joins. -/
lemma FromScans.joined_narrow (h : FromScans entries scans ctx)
    (hclass : Classified scans stmt.conjuncts cs) (hj : Joined scans cs order root)
    (horder : ∀ a ∈ order, a ∈ entries.map Prod.fst) :
    root.Narrow ↔ NarrowAlong (EntryFits entries stmt) order := by
  induction hj with
  | scan hscan => exact iff_of_true hscan.narrow trivial
  | @first f n build probe id ht hb hp hid =>
    obtain ⟨x, hx, rfl⟩ := List.mem_map.mp (horder f List.mem_cons_self)
    rw [h.join_narrow hx hb (firstJoinKeys_names hclass x.1 n), NarrowAlong, h.entryFits_iff hx]
    exact and_iff_right hp.narrow
  | @later n done build probe id ht hjoined htwo hb hid ih =>
    obtain ⟨x, hx, rfl⟩ := List.mem_map.mp (horder n List.mem_cons_self)
    have hstep : NarrowAlong (EntryFits entries stmt) (x.1 :: done) ↔
        EntryFits entries stmt x.1 (fun _ => true) ∧ NarrowAlong (EntryFits entries stmt) done := by
      match done, htwo with
      | _ :: _ :: _, _ => rfl
    rw [h.join_narrow hx hb (laterJoinKeys_names hclass x.1), hstep, h.entryFits_iff hx,
      ih fun a ha => horder a (List.mem_cons_of_mem _ ha)]
    exact and_comm

/-- The joins of a plan are narrow exactly when the build sides in FROM are. -/
theorem FromScans.narrow_iff (h : FromScans entries scans ctx)
    (hclass : Classified scans stmt.conjuncts cs)
    (hplanned : Planned scans cs (joinOrder (entries.map Prod.fst)) root) :
    root.Narrow ↔ stmt.NarrowJoins entries := by
  have horder : ∀ a ∈ joinOrder (entries.map Prod.fst), a ∈ entries.map Prod.fst :=
    fun a ha => (joinOrder_perm _).mem_iff.mp ha
  have hjoined : root.Narrow ↔
      NarrowAlong (EntryFits entries stmt) (joinOrder (entries.map Prod.fst)) := by
    cases hplanned with
    | bare hj => exact h.joined_narrow hclass hj horder
    | filtered hj _ =>
      have hnarrow := h.joined_narrow hclass hj horder
      exact hnarrow
  rw [hjoined]
  match entries, h with
  | [], _ => exact iff_of_true trivial trivial
  | [_], _ => exact iff_of_true trivial trivial
  | x :: y :: rest, h =>
    rw [List.map_cons, List.map_cons, joinOrder, narrowAlong_append,
      h.entryFits_iff List.mem_cons_self, SelectStmt.NarrowJoins]
    apply and_congr_right
    intro _
    simp only [List.mem_reverse, List.forall_mem_map]
    exact forall₂_congr fun z hz =>
      h.entryFits_iff (List.mem_cons_of_mem _ (List.mem_cons_of_mem _ hz)) _

end

end Proofs

end TidyTuples
