import TidyTuples.Proofs.CompiledPlans
import TidyTuples.Proofs.JoinSlots
import TidyTuples.Proofs.Policies

/-!
# The constants of a query

The code of a query asks for constants that can be listed from the statement and its tables. Where no
two of them share a key of the constant cache, every reference denotes the constant it is for.
-/

namespace TidyTuples

/-- The literals of an expression and the values of its parts without a column. -/
def Expr.constants : Expr → List Word
  | .colRef _ => []
  | .intLit intVal => [intVal]
  | .binOp op left right =>
    left.constants ++ right.constants ++ ((Expr.binOp op left right).evalIn fun _ => none).toList

/-- The constants of a scan. -/
def InMemoryTable.constants (table : InMemoryTable) : List (IRType × Word) :=
  (.int64, BitVec.ofNat 64 table.numRows) :: table.columns.map fun col => (.ptr, col.address)

/-- The constants of the joins of `n` FROM entries, which have at most `3 * n` operators. -/
def joinConstants (alloc : Nat → Word) (n : Nat) : List (IRType × Word) :=
  (List.range (3 * n)).map (fun id => (.ptr, alloc id)) ++
    [hashSeed1, hashSeed2, hashMultiplier].map (fun w => (.uint64, w)) ++
    (List.range 4).map fun i => (.int32, BitVec.ofNat 64 i)

namespace SelectStmt

variable (stmt : SelectStmt)

def constants (entries : FromEntries) (alloc : Nat → Word) (printer : Word) :
    List (IRType × Word) :=
  [(.int64, 0), (.int64, 1), (.int64, BitVec.ofNat 64 (stmt.outputColumns entries).length),
      (.ptr, printer)] ++
    entries.flatMap (fun x => x.2.constants) ++
    stmt.conjuncts.flatMap (fun c => c.constants.map fun w => (.int64, w)) ++
    if entries.length < 2 then [] else joinConstants alloc entries.length

/-- No two constants of the query share a key of the cache. -/
def ConstantsApart (entries : FromEntries) (alloc : Nat → Word) (printer : Word) : Prop :=
  ∀ x ∈ stmt.constants entries alloc printer, ∀ y ∈ stmt.constants entries alloc printer,
    IRProgram.constKey x.2 x.1 = IRProgram.constKey y.2 y.1 → x = y

instance (entries : FromEntries) (alloc : Nat → Word) (printer : Word) :
    Decidable (stmt.ConstantsApart entries alloc printer) :=
  inferInstanceAs (Decidable (∀ x ∈ _, ∀ y ∈ _, _))

/-- The policy of the query: its constants, and any call. -/
def policy (entries : FromEntries) (alloc : Nat → Word) (printer : Word) : Policy where
  constants t v := (t, v) ∈ stmt.constants entries alloc printer
  calls _ := True

end SelectStmt

namespace Proofs

open QueryPlanner IRProgram

section

variable {catalog : SQLCatalog} {stmt : SelectStmt} {entries : FromEntries} {alloc : Nat → Word}
  {printer : Word} {scans : Scans} {cs : Conjuncts} {ctx ctx' : CompilationContext}
  {order : List String} {root : Operator} {policy : Policy} {heap : Heap} {result : PlanResult}

lemma policy_apart (h : stmt.ConstantsApart entries alloc printer) :
    (stmt.policy entries alloc printer).Apart := by
  intro t v t' v' hx hy hkey
  have hsame := h (t, v) hx (t', v') hy hkey
  exact Prod.mk.inj hsame

/-! ### What the operators ask for -/

lemma allowsExpr_of_constants {e : Expr} (hapart : policy.Apart)
    (h : ∀ w ∈ e.constants, policy.constants .int64 w) : policy.AllowsExpr e := by
  induction e with
  | colRef ref => exact trivial
  | intLit w => exact h w List.mem_cons_self
  | binOp op l r ihl ihr =>
    refine ⟨ihl fun w hw => h w ?_, ihr fun w hw => h w ?_, fun w hw => h w ?_⟩
    · exact List.mem_append_left _ (List.mem_append_left _ hw)
    · exact List.mem_append_left _ (List.mem_append_right _ hw)
    · exact List.mem_append_right _ (Option.mem_toList.mpr (hw hapart))

/-- What the constants of the scans, the conjuncts and the joins are allowed as. -/
structure AllowsQuery (policy : Policy) (scans : Scans) (conjs : List Expr) : Prop where
  scans : ∀ a s, scans.lookup a = some s → policy.AllowsScan s
  conjuncts : ∀ c ∈ conjs, policy.AllowsExpr c

lemma ScanUnder.allowed {a : String} {conjs : List Expr} (h : ScanUnder scans cs a root)
    (hclass : Classified scans conjs cs) (hallows : AllowsQuery policy scans conjs) :
    policy.AllowsTree root := by
  cases h with
  | bare hs => exact hallows.scans _ _ hs
  | @filtered s id hs =>
    refine ⟨hallows.scans _ _ hs, fun c hc => hallows.conjuncts c ?_⟩
    change c ∈ cs.filterConjuncts a at hc
    rw [hclass.filters] at hc
    exact List.mem_of_mem_filter hc

/-- The joins of a tree, if it has any, are allowed. -/
def AllowsJoins (policy : Policy) : Operator → Prop
  | .scan _ => True
  | .select _ child _ => AllowsJoins policy child
  | .hashJoin id build probe buildKeys probeKeys ht => AllowsJoins policy build ∧
      AllowsJoins policy probe ∧ policy.AllowsJoin (.of id build buildKeys probeKeys ht)

lemma Joined.allowed {conjs : List Expr} (h : Joined scans cs order root)
    (hclass : Classified scans conjs cs) (hallows : AllowsQuery policy scans conjs)
    (hjoins : AllowsJoins policy root) : policy.AllowsTree root := by
  induction h with
  | scan h => exact h.allowed hclass hallows
  | first hb hp _ => exact ⟨hb.allowed hclass hallows, hp.allowed hclass hallows, hjoins.2.2⟩
  | later _ _ hb _ ih => exact ⟨hb.allowed hclass hallows, ih hjoins.2.1, hjoins.2.2⟩

lemma Planned.allowed {conjs : List Expr} (h : Planned scans cs order root)
    (hclass : Classified scans conjs cs) (hallows : AllowsQuery policy scans conjs)
    (hjoins : AllowsJoins policy root) : policy.AllowsTree root := by
  cases h with
  | bare h => exact h.allowed hclass hallows hjoins
  | @filtered op id h =>
    refine ⟨h.allowed hclass hallows hjoins, fun c hc => hallows.conjuncts c ?_⟩
    change c ∈ cs.postJoinFilters at hc
    rw [hclass.postJoin] at hc
    exact List.mem_of_mem_filter hc

/-- The joins of a narrow tree ask for the constants of joins and for their hash tables. -/
lemma allowsJoins_of_narrow (hnarrow : root.Narrow)
    (hzero : policy.constants .int64 0) (hone : policy.constants .int64 1)
    (htables : ∀ ht ∈ root.tables, policy.constants .ptr ht)
    (hjoin : root.tables ≠ [] → (∀ w ∈ [hashSeed1, hashSeed2, hashMultiplier],
      policy.constants .uint64 w) ∧ ∀ i < 4, policy.constants .int32 (BitVec.ofNat 64 i))
    (hcalls : ∀ fn, policy.calls fn) : AllowsJoins policy root := by
  induction root with
  | scan s => exact trivial
  | select id child pred ih => exact ih hnarrow htables hjoin
  | hashJoin id build probe bks pks ht ihb ihp =>
    obtain ⟨hnb, hnp, hkeys, hpayload⟩ := hnarrow
    obtain ⟨hhash, hfields⟩ := hjoin (List.cons_ne_nil _ _)
    refine ⟨ihb hnb (fun t hmem => htables t ?_) fun _ => ⟨hhash, hfields⟩,
      ihp hnp (fun t hmem => htables t ?_) fun _ => ⟨hhash, hfields⟩, ?_⟩
    · exact List.mem_cons_of_mem _ (List.mem_append_left _ hmem)
    · exact List.mem_cons_of_mem _ (List.mem_append_right _ hmem)
    · refine ⟨hzero, hone, htables ht List.mem_cons_self, hhash, fun i hi => hfields i ?_,
        fun fn _ => hcalls fn⟩
      rcases hi with hi | hi
      · exact Nat.lt_of_lt_of_le hi hkeys
      · exact Nat.lt_of_lt_of_le hi hpayload

/-! ### The policy of a query -/

lemma mem_constants {x : IRType × Word} :
    x ∈ stmt.constants entries alloc printer ↔
      (x = (.int64, 0) ∨ x = (.int64, 1) ∨
        x = (.int64, BitVec.ofNat 64 (stmt.outputColumns entries).length) ∨ x = (.ptr, printer)) ∨
      (∃ y ∈ entries, x ∈ y.2.constants) ∨
      (∃ c ∈ stmt.conjuncts, ∃ w ∈ c.constants, (.int64, w) = x) ∨
      (2 ≤ entries.length ∧ x ∈ joinConstants alloc entries.length) := by
  have hjoins : (x ∈ if entries.length < 2 then [] else joinConstants alloc entries.length) ↔
      2 ≤ entries.length ∧ x ∈ joinConstants alloc entries.length := by
    split_ifs with hlen
    · simp [Nat.not_le.mpr hlen]
    · simp [Nat.le_of_not_lt hlen]
  unfold SelectStmt.constants
  rw [List.mem_append, hjoins]
  simp [or_assoc]

lemma FromScans.allowsQuery (h : FromScans entries scans ctx)
    (happart : stmt.ConstantsApart entries alloc printer) :
    AllowsQuery (stmt.policy entries alloc printer) scans stmt.conjuncts := by
  constructor
  · intro a s hs
    have hmem := h.only a s hs
    refine ⟨mem_constants.mpr (.inl (.inl rfl)), mem_constants.mpr (.inl (.inr (.inl rfl))),
      mem_constants.mpr (.inr (.inl ⟨_, hmem, List.mem_cons_self⟩)),
      fun col hcol => mem_constants.mpr (.inr (.inl ⟨_, hmem, ?_⟩)), trivial⟩
    exact List.mem_cons_of_mem _ (List.mem_map_of_mem hcol)
  · intro c hc
    apply allowsExpr_of_constants (policy_apart happart)
    exact fun w hw => mem_constants.mpr (.inr (.inr (.inl ⟨c, hc, w, hw, rfl⟩)))

lemma Planned.joins (h : Planned scans cs order root) (htables : root.tables ≠ []) :
    2 ≤ order.length := by
  have hjoined : ∀ {op : Operator}, Joined scans cs order op → op.tables ≠ [] → 2 ≤ order.length := by
    intro op hj hne
    cases hj with
    | scan h => exact absurd h.tables hne
    | first => exact Nat.le_refl _
    | later _ htwo => exact Nat.le_succ_of_le htwo
  cases h with
  | bare hj => exact hjoined hj htables
  | filtered hj _ => exact hjoined hj htables

/-- The tree of a compiled statement asks for the constants of the statement. -/
lemma CompiledPlan.allowed
    (h : CompiledPlan alloc catalog printer stmt heap result scans cs ctx ctx')
    (hentries : stmt.entries catalog = .ok entries) (hwritable : stmt.Writable)
    (hnarrow : result.root.Narrow) (happart : stmt.ConstantsApart entries.scanned alloc printer) :
    (stmt.policy entries.scanned alloc printer).AllowsTree result.root ∧
      (stmt.policy entries.scanned alloc printer).AllowsPrint printer result.outputIUs.length := by
  obtain ⟨ctx₀, hscans⟩ := h.fromScans hentries hwritable
  have haliases : entries.scanned.map Prod.fst = stmt.fromList.map TableRef.aliasName :=
    (scanned_aliases entries).trans (entries_aliases hentries)
  have hcount : entries.scanned.length = stmt.fromList.length := by
    simpa using congrArg List.length haliases
  have hzero : (stmt.policy entries.scanned alloc printer).constants .int64 0 :=
    mem_constants.mpr (.inl (.inl rfl))
  have hone : (stmt.policy entries.scanned alloc printer).constants .int64 1 :=
    mem_constants.mpr (.inl (.inr (.inl rfl)))
  constructor
  · have hlater : result.root.tables ≠ [] → 2 ≤ entries.scanned.length := by
      intro hne
      have hjoins := h.planned.root.joins hne
      rwa [(joinOrder_perm _).length_eq, List.length_map, ← hcount] at hjoins
    have hmem : ∀ x ∈ joinConstants alloc entries.scanned.length, result.root.tables ≠ [] →
        (stmt.policy entries.scanned alloc printer).constants x.1 x.2 := fun x hx hne =>
      mem_constants.mpr (.inr (.inr (.inr ⟨hlater hne, hx⟩)))
    refine h.planned.root.allowed (classify_spec h.planned.classified) (hscans.allowsQuery happart)
      (allowsJoins_of_narrow hnarrow hzero hone (fun ht hht => ?_)
        (fun hne => ⟨fun w hw => ?_, fun i hi => ?_⟩) fun _ => trivial)
    · obtain ⟨ids, -, hlt, heq⟩ := h.tables
      rw [heq] at hht
      obtain ⟨id, hid, rfl⟩ := List.mem_map.mp hht
      refine hmem (.ptr, alloc id) (List.mem_append_left _ (List.mem_append_left _ ?_)) ?_
      · exact List.mem_map_of_mem (List.mem_range.mpr (hcount ▸ hlt id hid))
      · rw [heq]
        exact List.ne_nil_of_mem (List.mem_map_of_mem hid)
    · exact hmem (.uint64, w) (List.mem_append_left _ (List.mem_append_right _
        (List.mem_map_of_mem hw))) hne
    · exact hmem (.int32, BitVec.ofNat 64 i) (List.mem_append_right _
        (List.mem_map_of_mem (List.mem_range.mpr hi))) hne
  · obtain ⟨output, houtput, hius⟩ := h.planned.output
    rw [← haliases] at houtput
    have hwidth : result.outputIUs.length = (stmt.outputColumns entries.scanned).length := by
      rw [hius, List.length_map]
      exact (hscans.resolveSelectList_output hwritable houtput).length_eq
    refine ⟨hzero, mem_constants.mpr (.inl (.inr (.inr (.inr rfl)))), ?_, trivial⟩
    rw [hwidth]
    exact mem_constants.mpr (.inl (.inr (.inr (.inl rfl))))

/-- The code of a compiled statement keeps to what its tree and its output are allowed. -/
lemma CompiledPlan.obeys (h : CompiledPlan alloc catalog printer stmt heap result scans cs ctx ctx')
    (htree : policy.AllowsTree result.root)
    (hprint : policy.AllowsPrint printer result.outputIUs.length) : Obeys policy ctx'.program := by
  obtain ⟨ctx₁, hproduce, rfl⟩ := run_generateCode h.generated
  have hobeys := produce_obeys result.root htree (print_emits printer result.outputIUs)
    (print_obeys hprint) (h.program ▸ queryProgram_valid) (h.program ▸ queryProgram_open)
    (h.program ▸ queryProgram_obeys) hproduce
  exact hobeys.emit_other (i := .ret .null) (by simp [Instr.op])

/-- Where the constants are apart, references to constants denote them. -/
theorem CompiledPlan.constsDenote
    (h : CompiledPlan alloc catalog printer stmt heap result scans cs ctx ctx')
    (hentries : stmt.entries catalog = .ok entries) (hwritable : stmt.Writable)
    (hnarrow : result.root.Narrow) (happart : stmt.ConstantsApart entries.scanned alloc printer) :
    ConstsDenote ctx'.program := by
  obtain ⟨htree, hprint⟩ := h.allowed hentries hwritable hnarrow happart
  exact (h.obeys htree hprint).constsDenote (policy_apart happart)

end

end Proofs

end TidyTuples
