import TidyTuples.Proofs.Simulation

/-!
# Which trees code is generated for

Generation succeeds exactly on the trees whose keys and predicates find their IUs in scope. What
it does to memory is to lay out the hash tables: it sets their field counts.
-/

namespace TidyTuples

/-- Every column of the expression resolves to one of the IUs. -/
def Expr.ResolvesIn (resolveColumn : ColumnRef → Except CppError IU) (ius : List IU) : Expr → Prop
  | .colRef ref => ∃ iu, resolveColumn ref = .ok iu ∧ iu.id ∈ ius.map IU.id
  | .intLit _ => True
  | .binOp _ left right => left.ResolvesIn resolveColumn ius ∧ right.ResolvesIn resolveColumn ius

/-- There is a conjunct, and all of them can be evaluated over the IUs. -/
def Predicate.ResolvesIn (p : Predicate) (ius : List IU) : Prop :=
  p.conjuncts ≠ [] ∧ ∀ e ∈ p.conjuncts, e.ResolvesIn p.resolveColumn ius

namespace Operator

/-- Keys and predicates are over what the inputs output. -/
def Scoped : Operator → Prop
  | scan _ => True
  | select _ child predicate => Scoped child ∧ predicate.ResolvesIn child.outputIUs
  | hashJoin _ build probe buildKeys probeKeys _ => Scoped build ∧ Scoped probe ∧
      (∀ iu ∈ buildKeys, iu.id ∈ build.outputIUs.map IU.id) ∧
      ∀ iu ∈ probeKeys, iu.id ∈ probe.outputIUs.map IU.id

/-- The hash tables of the joins. -/
def tables : Operator → List Word
  | scan _ => []
  | select _ child _ => tables child
  | hashJoin _ build probe _ _ hashTable => hashTable :: (tables build ++ tables probe)

end Operator

namespace Heap

def setNumKeyFields (hashTable : Word) (n : Nat) (heap : Heap) : Heap :=
  heap.setHashTable hashTable { heap.hashTables hashTable with numKeyFields := n }

def setNumPayloadFields (hashTable : Word) (n : Nat) (heap : Heap) : Heap :=
  heap.setHashTable hashTable { heap.hashTables hashTable with numPayloadFields := n }

end Heap

/-- What the build side of a join does to memory. -/
def HashJoinTranslator.layoutBuild (j : HashJoinTranslator) (heap : Heap) : Heap :=
  (heap.setNumKeyFields j.hashTable j.buildKeys.length).setNumPayloadFields j.hashTable
    j.buildPayloadIUs.length

/-- What `produce` does to memory when its consumer does `parent`. -/
def Operator.layout : Operator → (Heap → Heap) → Heap → Heap
  | scan _, parent => parent
  | select _ child _, parent => child.layout parent
  | hashJoin id build probe buildKeys probeKeys hashTable, parent => fun heap =>
    let j := HashJoinTranslator.of id build buildKeys probeKeys hashTable
    probe.layout (fun heap => parent (heap.setNumKeyFields hashTable probeKeys.length))
      (build.layout j.layoutBuild heap)

namespace Proofs

open IRProgram

section

variable {α β : Type} {ctx ctx' : CompilationContext}

/-- Straight-line generation succeeds and does `f` to memory. -/
def Lays (g : Gen α) (f : Heap → Heap) (post : α → Prop) : Prop :=
  ∀ ctx, ∃ a ctx', g ctx = .ok (a, ctx') ∧ ctx'.heap = f ctx.heap ∧ post a

/-- It leaves memory as it is. -/
abbrev Quiet (g : Gen α) (post : α → Prop) : Prop := Lays g id post

lemma Lays.bind {g : Gen α} {k : α → Gen β} {f f' : Heap → Heap} {P : α → Prop} {Q : β → Prop}
    (h : Lays g f P) (h' : ∀ a, P a → Lays (k a) f' Q) : Lays (g >>= k) (f' ∘ f) Q := by
  intro ctx
  obtain ⟨a, ctx₁, hg, hheap₁, ha⟩ := h ctx
  obtain ⟨b, ctx₂, hk, hheap₂, hb⟩ := h' a ha ctx₁
  refine ⟨b, ctx₂, ?_, ?_, hb⟩
  · rw [run_bind_of_ok hg, hk]
  · rw [hheap₂, hheap₁]
    rfl

lemma Quiet.bind {g : Gen α} {k : α → Gen β} {f : Heap → Heap} {P : α → Prop} {Q : β → Prop}
    (h : Quiet g P) (h' : ∀ a, P a → Lays (k a) f Q) : Lays (g >>= k) f Q := Lays.bind h h'

lemma quiet_pure {a : α} {P : α → Prop} (h : P a) : Quiet (pure a : Gen α) P :=
  fun ctx => ⟨a, ctx, rfl, rfl, h⟩

lemma quiet_build (f : IRProgram → α × IRProgram) : Quiet (Gen.build f) fun _ => True :=
  fun _ => ⟨_, _, rfl, rfl, trivial⟩

lemma quiet_ofExcept {a : α} {P : α → Prop} (h : P a) : Quiet (Gen.ofExcept (.ok a)) P :=
  fun ctx => ⟨a, ctx, rfl, rfl, h⟩

/-! ### Scopes -/

/-- Exactly these IUs are live. -/
def Binds (scope : ConsumerScope) (ius : List IU) : Prop :=
  ∀ id, (scope.bindings id).isSome ↔ id ∈ ius.map IU.id

lemma binds_nil : Binds {} [] := by simp [Binds]

lemma Binds.bind {scope : ConsumerScope} {ius : List IU} (h : Binds scope ius) (iu : IU)
    (v : SQLValue) : Binds (scope.bind iu v) (ius ++ [iu]) := by
  intro id
  rw [List.map_append, List.mem_append, ← h id]
  by_cases hid : id = iu.id
  · simp [ConsumerScope.bind, hid]
  · simp [ConsumerScope.bind, hid]

lemma Binds.get {scope : ConsumerScope} {ius : List IU} (h : Binds scope ius) {iu : IU}
    (hiu : iu.id ∈ ius.map IU.id) : ∃ v, scope.get iu = .ok v := by
  obtain ⟨v, hv⟩ := Option.isSome_iff_exists.mp ((h iu.id).mpr hiu)
  exact ⟨v, by rw [ConsumerScope.get, hv]⟩

lemma Binds.of_get {scope : ConsumerScope} {ius : List IU} (h : Binds scope ius) {iu : IU}
    {v : SQLValue} (hv : scope.bindings iu.id = some v) : iu.id ∈ ius.map IU.id :=
  (h iu.id).mp (by rw [hv]; rfl)

lemma Binds.getAll {scope : ConsumerScope} {ius : List IU} (h : Binds scope ius) {req : List IU}
    (hreq : ∀ iu ∈ req, iu.id ∈ ius.map IU.id) :
    Quiet (scope.getAll req) fun vals => vals.length = req.length := by
  have hvals : ∃ vals, req.mapM scope.get = .ok vals ∧ vals.length = req.length := by
    induction req with
    | nil => exact ⟨[], rfl, rfl⟩
    | cons iu rest ih =>
      obtain ⟨v, hv⟩ := h.get (hreq iu List.mem_cons_self)
      obtain ⟨vals, hvals, hlen⟩ := ih fun iu' hiu' => hreq iu' (List.mem_cons_of_mem iu hiu')
      refine ⟨v :: vals, ?_, by simp [hlen]⟩
      rw [List.mapM_cons, hv, hvals]
      rfl
  obtain ⟨vals, hvals, hlen⟩ := hvals
  unfold ConsumerScope.getAll
  rw [hvals]
  exact quiet_ofExcept hlen

/-! ### Straight-line generation succeeds -/

lemma propagateNull2_quiet (a b : SQLValue) (ref : IRValueRef) (t : SQLType) :
    Quiet (a.propagateNull2 b ref t) fun _ => True := by
  unfold SQLValue.propagateNull2
  split_ifs
  · exact quiet_pure trivial
  · exact quiet_pure trivial
  · exact quiet_pure trivial
  · exact Quiet.bind (quiet_build _) fun _ _ => quiet_pure trivial

lemma evalExpr_quiet {resolve : ColumnRef → Except CppError IU} {scope : ConsumerScope}
    {ius : List IU} (hb : Binds scope ius) {e : Expr} (h : e.ResolvesIn resolve ius) :
    Quiet (evalExpr resolve scope e) fun _ => True := by
  induction e with
  | colRef ref =>
    obtain ⟨iu, hres, hiu⟩ := h
    obtain ⟨v, hv⟩ := hb.get hiu
    rw [evalExpr, hres]
    refine (quiet_ofExcept (P := fun a => a = iu) rfl).bind fun a ha => ?_
    rw [ha, hv]
    exact quiet_ofExcept trivial
  | intLit n => exact Quiet.bind (quiet_build _) fun _ _ => quiet_pure trivial
  | binOp op l r ihl ihr =>
    have hop : ∀ op t rt a b, Quiet (SQLValue.emitOp op t rt a b) fun _ => True :=
      fun op t rt a b => Quiet.bind (quiet_build _) fun ref _ => propagateNull2_quiet a b ref rt
    have hlogic : ∀ op (a b : SQLValue), Quiet (do
        return ⟨← Gen.addBinary op .bool a.valueRef b.valueRef, .null, .bool⟩ : Gen SQLValue)
        fun _ => True := fun op a b => Quiet.bind (quiet_build _) fun _ _ => quiet_pure trivial
    refine (ihl h.1).bind fun a _ => (ihr h.2).bind fun b _ => ?_
    cases op
    case and => exact hlogic _ a b
    case or => exact hlogic _ a b
    all_goals exact hop _ _ _ a b

lemma Predicate.evalRest_quiet {pred : Predicate} {scope : ConsumerScope} {ius : List IU}
    (hb : Binds scope ius) {es : List Expr} (h : ∀ e ∈ es, e.ResolvesIn pred.resolveColumn ius)
    (v : SQLValue) : Quiet (pred.evalRest scope es v) fun _ => True := by
  induction es generalizing v with
  | nil => exact quiet_pure trivial
  | cons e rest ih =>
    have he := evalExpr_quiet hb (h e List.mem_cons_self)
    have hand : ∀ a b : SQLValue, Quiet (a.and b) fun _ => True :=
      fun a b => Quiet.bind (quiet_build _) fun _ _ => quiet_pure trivial
    exact he.bind fun a _ => (hand v a).bind fun b _ =>
      ih (fun e' he' => h e' (List.mem_cons_of_mem e he')) b

lemma Predicate.eval_quiet {pred : Predicate} {scope : ConsumerScope} {ius : List IU}
    (hb : Binds scope ius) (h : pred.ResolvesIn ius) : Quiet (pred.eval scope) fun _ => True := by
  obtain ⟨hne, hres⟩ := h
  unfold Predicate.eval
  cases hc : pred.conjuncts with
  | nil => exact absurd hc hne
  | cons e rest =>
    rw [hc] at hres
    exact (evalExpr_quiet hb (hres e List.mem_cons_self)).bind fun v _ =>
      Predicate.evalRest_quiet hb (fun e' he' => hres e' (List.mem_cons_of_mem e he')) v

lemma hashValues_quiet (vals : List SQLValue) : Quiet (hashValues vals) fun _ => True := by
  have hloop : ∀ h₁ h₂, Quiet (hashLoop vals h₁ h₂) fun _ => True := by
    induction vals with
    | nil => exact fun _ _ => quiet_pure trivial
    | cons v rest ih =>
      exact fun _ _ => Quiet.bind (quiet_build _) fun _ _ => Quiet.bind (quiet_build _) fun _ _ =>
        Quiet.bind (quiet_build _) fun a _ => Quiet.bind (quiet_build _) fun b _ => ih a b
  exact Quiet.bind (quiet_build _) fun a _ => Quiet.bind (quiet_build _) fun b _ => (hloop a b).bind
    fun _ _ => Quiet.bind (quiet_build _) fun _ _ => Quiet.bind (quiet_build _) fun _ _ =>
      Quiet.bind (quiet_build _) fun _ _ => quiet_build _

lemma padWithZeros_quiet (n : Nat) (args : List IRValueRef) :
    Quiet (padWithZeros n args) fun _ => True := by
  induction n generalizing args with
  | zero => exact quiet_pure trivial
  | succ n ih => exact Quiet.bind (quiet_build _) fun a _ => ih _

lemma bindFields_quiet (fn : RuntimeFn) (entryPtr : IRValueRef) (i : Nat) (ius : List IU)
    {scope : ConsumerScope} {bound : List IU} (hb : Binds scope bound) :
    Quiet (HashJoinTranslator.bindFields fn entryPtr i ius scope) (Binds · (bound ++ ius)) := by
  induction ius generalizing i scope bound with
  | nil => exact quiet_pure (by simpa using hb)
  | cons iu rest ih =>
    refine Quiet.bind (quiet_build _) fun a _ => Quiet.bind (quiet_build _) fun b _ => ?_
    have h := ih (i + 1) (hb.bind iu (.makeNonNull b iu.type))
    rwa [List.append_assoc] at h

lemma bindColumns_quiet {iPhi : IRValueRef} (cols : List (IU × Column)) {scope : ConsumerScope}
    {bound : List IU} (hb : Binds scope bound) : Quiet (ScanTranslator.bindColumns iPhi cols scope)
      (Binds · (bound ++ cols.map Prod.fst)) := by
  induction cols generalizing scope bound with
  | nil => exact quiet_pure (by simpa using hb)
  | cons col rest ih =>
    refine Quiet.bind (quiet_build _) fun a _ => Quiet.bind (quiet_build _) fun b _ => ?_
    have h := ih (hb.bind col.1 (.makeNonNull b col.2.type))
    rwa [List.append_assoc] at h

/-! ### Loops and consumers -/

/-- Wherever code can be emitted, the consumer emits its own and does `f` to memory. -/
def ConsumerLays (consume : Consumer) (child : Nat) (ius : List IU) (f : Heap → Heap) : Prop :=
  ∀ (ctx : CompilationContext) (scope : ConsumerScope), Ready ctx.program →
    ScopeOk ctx.program scope → Binds scope ius →
    ∃ ctx', consume scope child ctx = .ok ((), ctx') ∧ ctx'.heap = f ctx.heap

lemma ifStmt_lays {cond : IRValueRef} {body : Gen Unit} {f : Heap → Heap} (hv : Valid ctx.program)
    (hbody : ∀ ctx₁ : CompilationContext, Ready ctx₁.program → Local ctx.program ctx₁.program →
      ∃ ctx₂, body ctx₁ = .ok ((), ctx₂) ∧ ctx₂.heap = f ctx₁.heap) :
    ∃ ctx', Gen.ifStmt cond body ctx = .ok ((), ctx') ∧ ctx'.heap = f ctx.heap := by
  obtain ⟨ctx₁, hrun, hheap⟩ := hbody (ctx.withProgram (ctx.program.openIf cond))
    (openIf_ready hv cond) (openIf_spec hv cond).loc
  exact ⟨_, (run_ifStmt_iff hv cond body).mpr ⟨ctx₁, hrun, rfl⟩, hheap⟩

/-- A loop closes whatever its body emits. -/
lemma countedLoop_ok (ctx : CompilationContext) {name : String} {zero bound : IRValueRef}
    (one : IRValueRef) {body : IRValueRef → Gen Unit} (hv : Valid ctx.program)
    {ctx₂ : CompilationContext} (hrun : body (.instr ctx.program.loopIndex)
      (ctx.withProgram (ctx.program.openLoop name zero bound)) = .ok ((), ctx₂))
    (hemits : Emits False (ctx.program.openLoop name zero bound) ctx₂.program) :
    ∃ ctx', Gen.countedLoop name zero bound one body ctx = .ok ((), ctx') ∧
      ctx'.heap = ctx₂.heap := by
  have hopen := openLoop_spec hv name zero bound
  have hready := openLoop_ready hv name zero bound
  obtain ⟨hl, hvq, -⟩ := hemits.grows hready.valid hready.isOpen
  have hlen := hopen.length
  have hblocks : (ctx.program.openLoop name zero bound).blocks.length ≤
      ctx₂.program.blocks.length := hl.blocks
  obtain ⟨r, hr, -⟩ := closeLoop_spec hvq (hl.allRecords _ _ hopen.phi)
    (show ctx.program.blocks.length + 2 < ctx₂.program.blocks.length by omega) one
  exact ⟨_, (run_countedLoop_iff hv name zero bound one body).mpr ⟨ctx₂, r, hrun, hr, rfl⟩, rfl⟩

lemma countedLoop_lays (ctx : CompilationContext) (name : String) (zero bound one : IRValueRef)
    (body : IRValueRef → Gen Unit) {f : Heap → Heap} (hv : Valid ctx.program)
    (hemits : ∀ ctx₁ ctx₂ : CompilationContext, Ready ctx₁.program →
      Local ctx.program ctx₁.program → Available ctx₁.program (.instr ctx.program.loopIndex) →
      body (.instr ctx.program.loopIndex) ctx₁ = .ok ((), ctx₂) →
      Emits False ctx₁.program ctx₂.program)
    (hbody : ∀ ctx₁ : CompilationContext, Ready ctx₁.program → Local ctx.program ctx₁.program →
      Available ctx₁.program (.instr ctx.program.loopIndex) →
      ∃ ctx₂, body (.instr ctx.program.loopIndex) ctx₁ = .ok ((), ctx₂) ∧
        ctx₂.heap = f ctx₁.heap) :
    ∃ ctx', Gen.countedLoop name zero bound one body ctx = .ok ((), ctx') ∧
      ctx'.heap = f ctx.heap := by
  have hopen := openLoop_spec hv name zero bound
  have hready := openLoop_ready hv name zero bound
  have hav := loopIndex_available hv name zero bound
  obtain ⟨ctx₂, hrun, hheap⟩ := hbody (ctx.withProgram (ctx.program.openLoop name zero bound))
    hready hopen.loc hav
  obtain ⟨ctx', hloop, hheap'⟩ :=
    countedLoop_ok ctx one hv hrun (hemits _ _ hready hopen.loc hav hrun)
  exact ⟨ctx', hloop, hheap'.trans hheap⟩

lemma select_lays {id child : Nat} {pred : Predicate} {parent : Consumer} {ius : List IU}
    {f : Heap → Heap} (h : ConsumerLays parent id ius f) (hres : pred.ResolvesIn ius) :
    ConsumerLays (selectConsume id pred parent) child ius f := by
  intro ctx scope hready hscope hb
  obtain ⟨cond, ctx₁, hcond, hheap₁, -⟩ := Predicate.eval_quiet hb hres ctx
  obtain ⟨a₁, -⟩ := Predicate.eval_advances False hready hscope False.elim hcond
  have hscope₁ := hscope.mono a₁.loc
  unfold selectConsume
  rw [run_bind_of_ok hcond,
    run_bind_of_ok (show Gen.program ctx₁ = .ok (ctx₁.program, ctx₁) from rfl)]
  have hheap₁ : ctx₁.heap = ctx.heap := hheap₁
  rw [← hheap₁]
  split_ifs
  · exact h ctx₁ scope a₁.ready hscope₁ hb
  · exact ifStmt_lays a₁.ready.valid fun ctx₂ hready₂ hl₂ =>
      h ctx₂ scope hready₂ (hscope₁.mono hl₂) hb

lemma lays_setNumKeyFields (j : HashJoinTranslator) (n : Nat) :
    Lays (j.setNumKeyFields n) (·.setNumKeyFields j.hashTable n) fun _ => True :=
  fun _ => ⟨_, _, rfl, rfl, trivial⟩

lemma lays_setNumPayloadFields (j : HashJoinTranslator) (n : Nat) :
    Lays (j.setNumPayloadFields n) (·.setNumPayloadFields j.hashTable n) fun _ => True :=
  fun _ => ⟨_, _, rfl, rfl, trivial⟩

lemma consumeBuildSide_lays {j : HashJoinTranslator} {scope : ConsumerScope} {ius : List IU}
    (hb : Binds scope ius) (hkeys : ∀ iu ∈ j.buildKeys, iu.id ∈ ius.map IU.id)
    (hpayload : ∀ iu ∈ j.buildPayloadIUs, iu.id ∈ ius.map IU.id) :
    Lays (j.consumeBuildSide scope) (HashJoinTranslator.layoutBuild j) fun _ => True := by
  unfold HashJoinTranslator.consumeBuildSide
  refine Quiet.bind (hb.getAll hkeys) fun keyVals hk => ?_
  refine Quiet.bind (hb.getAll hpayload) fun payloadVals hp => ?_
  refine Quiet.bind (hashValues_quiet keyVals) fun hash _ => ?_
  refine Quiet.bind (quiet_build _) fun htPtr _ => ?_
  rw [hk, hp]
  have hrest : ∀ args : IRValueRef → List IRValueRef, Quiet (do
      let zero4 ← Gen.addConstInt 0 .int64
      let _ ← Gen.addCall .void .insert (args zero4) : Gen Unit) fun _ => True :=
    fun args => Quiet.bind (quiet_build _) fun _ _ => Quiet.bind (quiet_build _) fun _ _ =>
      quiet_pure trivial
  exact (lays_setNumKeyFields j _).bind fun _ _ => (lays_setNumPayloadFields j _).bind fun _ _ =>
    hrest fun zero4 => insertArgs htPtr hash zero4 _ _

lemma buildSide_lays {id : Nat} {build : Operator} {buildKeys probeKeys : List IU} {ht : Word}
    {parent : Consumer} (hkeys : ∀ iu ∈ buildKeys, iu.id ∈ build.outputIUs.map IU.id) :
    ConsumerLays ((HashJoinTranslator.of id build buildKeys probeKeys ht).consume parent) build.id
      build.outputIUs (HashJoinTranslator.of id build buildKeys probeKeys ht).layoutBuild := by
  intro ctx scope _ _ hb
  have hpayload : ∀ iu ∈ Operator.payloadIUs build.outputIUs buildKeys,
      iu.id ∈ build.outputIUs.map IU.id :=
    fun iu hiu => List.mem_map_of_mem (List.mem_of_mem_filter hiu)
  obtain ⟨⟨⟩, ctx₁, hrun, hheap, -⟩ := consumeBuildSide_lays
    (j := HashJoinTranslator.of id build buildKeys probeKeys ht) hb hkeys hpayload ctx
  refine ⟨ctx₁, ?_, hheap⟩
  unfold HashJoinTranslator.consume
  rw [if_pos (by rfl)]
  exact hrun

/-- The body of a probe binds the build side's IUs and consumes the tuple. -/
lemma probeBody_opens {j : HashJoinTranslator} (parent : Consumer) {scope : ConsumerScope}
    {matchesPtr idxPhi : IRValueRef} {ius : List IU} (hready : Ready ctx.program)
    (hscope : ScopeOk ctx.program scope) (hb : Binds scope ius)
    (hm : Available ctx.program matchesPtr) (hidx : Available ctx.program idxPhi) :
    ∃ ctx₁ scope₁, Ready ctx₁.program ∧ ScopeOk ctx₁.program scope₁ ∧
      Binds scope₁ (ius ++ j.buildKeys ++ j.buildPayloadIUs) ∧ ctx₁.heap = ctx.heap ∧
      probeBody j parent scope matchesPtr idxPhi ctx = parent scope₁ j.id ctx₁ := by
  rw [probeBody, run_bind_of_ok (run_addCall _ _ _)]
  have b₁ := hready.addCall False .ptr .matchAt [matchesPtr, idxPhi] (by
    intro r hr
    rcases List.mem_pair.mp hr with rfl | rfl
    · exact hm
    · exact hidx)
  have hav := emit_available (p := ctx.program) (i := .call .ptr .matchAt [matchesPtr, idxPhi]) rfl
  let ctx₁ := ctx.withProgram (ctx.program.addCall .ptr .matchAt [matchesPtr, idxPhi]).2
  obtain ⟨scope₁, ctx₂, hkeys, hheap₂, hb₁⟩ := bindFields_quiet .getKey
    (.instr ctx.program.dataSize) 0 j.buildKeys hb ctx₁
  obtain ⟨scope₂, ctx₃, hpayload, hheap₃, hb₂⟩ := bindFields_quiet .getPayload
    (.instr ctx.program.dataSize) 0 j.buildPayloadIUs hb₁ ctx₂
  obtain ⟨b₂, hs₁⟩ := bindFields_advances False b₁.ready hav (hscope.mono b₁.loc) hkeys
  obtain ⟨b₃, hs₂⟩ := bindFields_advances False b₂.ready (hav.mono b₂.loc) hs₁ hpayload
  refine ⟨ctx₃, scope₂, b₃.ready, hs₂, hb₂, ?_, ?_⟩
  · rw [hheap₃, id, hheap₂]
    rfl
  · exact (run_bind_of_ok hkeys).trans (run_bind_of_ok hpayload)

lemma probeBody_lays {j : HashJoinTranslator} {parent : Consumer} {scope : ConsumerScope}
    {matchesPtr idxPhi : IRValueRef} {ius : List IU} {f : Heap → Heap}
    (h : ConsumerLays parent j.id (ius ++ j.buildKeys ++ j.buildPayloadIUs) f)
    (hready : Ready ctx.program) (hscope : ScopeOk ctx.program scope) (hb : Binds scope ius)
    (hm : Available ctx.program matchesPtr) (hidx : Available ctx.program idxPhi) :
    ∃ ctx', probeBody j parent scope matchesPtr idxPhi ctx = .ok ((), ctx') ∧
      ctx'.heap = f ctx.heap := by
  obtain ⟨ctx₁, scope₁, hr₁, hs₁, hb₁, hheap₁, hbody⟩ := probeBody_opens parent hready hscope hb hm hidx
  rw [hbody, ← hheap₁]
  exact h ctx₁ scope₁ hr₁ hs₁ hb₁

/-- Code generation for the probe side reaches its loop over the matches. -/
lemma probeSide_opens {j : HashJoinTranslator} (parent : Consumer) {scope : ConsumerScope}
    {ius : List IU} (hready : Ready ctx.program) (hscope : ScopeOk ctx.program scope)
    (hb : Binds scope ius) (hkeys : ∀ iu ∈ j.probeKeys, iu.id ∈ ius.map IU.id) :
    ∃ (ctx₁ : CompilationContext) (matchesPtr zero bound one : IRValueRef),
      Advances False ctx.program ctx₁.program ∧ Available ctx₁.program matchesPtr ∧
      ctx₁.heap = ctx.heap.setNumKeyFields j.hashTable j.probeKeys.length ∧
      j.consumeProbeSide parent scope ctx =
        Gen.countedLoop "hj_match" zero bound one (probeBody j parent scope matchesPtr) ctx₁ := by
  obtain ⟨keyVals, ctx₀, hk, -, hlen⟩ := hb.getAll hkeys ctx
  obtain ⟨rfl, hvals⟩ := run_getAll hk
  obtain ⟨hash, ctx₁, hhash, hheap₁, -⟩ := hashValues_quiet keyVals ctx₀
  let ctx₂ : CompilationContext :=
    { ctx₁.withProgram (ctx₁.program.addConstInt j.hashTable .ptr).2 with
      heap := ctx₁.heap.setNumKeyFields j.hashTable keyVals.length }
  obtain ⟨lookupArgs, ctx₃, hpad, hheap₃, -⟩ := padWithZeros_quiet (2 + 4 - ([(ctx₁.program.addConstInt
    j.hashTable .ptr).1, hash] ++ keyVals.map SQLValue.valueRef).length)
      ([(ctx₁.program.addConstInt j.hashTable .ptr).1, hash] ++ keyVals.map SQLValue.valueRef) ctx₂
  have hstart := probeStart False hready (getAll_available hscope hvals) hhash
    (show ctx₂.program = (ctx₁.program.addConstInt j.hashTable .ptr).2 from rfl) hpad
  refine ⟨ctx₃.withProgram _, .instr ctx₃.program.dataSize,
    .instr (constOffset ((ctx₃.program.addCall .ptr .lookupAll lookupArgs).2.addCall .int64
      .matchCount [.instr ctx₃.program.dataSize]).2 0 .int64),
    .instr (ctx₃.program.addCall .ptr .lookupAll lookupArgs).2.dataSize,
    .instr (constOffset ((((ctx₃.program.addCall .ptr .lookupAll lookupArgs).2.addCall .int64
      .matchCount [.instr ctx₃.program.dataSize]).2.addConstInt 0 .int64).2) 1 .int64),
    hstart.advances, hstart.matchesAvailable, ?_, ?_⟩
  · have hheap₃ : ctx₃.heap = ctx₁.heap.setNumKeyFields j.hashTable keyVals.length := hheap₃
    have hheap₁ : ctx₁.heap = ctx₀.heap := hheap₁
    rw [← hlen, ← hheap₁, ← hheap₃]
    rfl
  · unfold HashJoinTranslator.consumeProbeSide
    rw [run_bind_of_ok hk, run_bind_of_ok hhash, run_bind_of_ok (run_addConstInt _ _),
      run_bind_of_ok (a := ()) rfl]
    apply (run_bind_of_ok hpad).trans
    rw [run_bind_of_ok (run_addCall _ _ _), run_bind_of_ok (run_addCall _ _ _),
      run_bind_of_ok (run_addConstInt _ _), run_bind_of_ok (run_addConstInt _ _)]
    simp only [program_withProgram, addConstInt_ref]
    rfl

lemma probeSide_lays {j : HashJoinTranslator} {parent : Consumer} {scope : ConsumerScope}
    {ius : List IU} {f : Heap → Heap} (he : ConsumerEmits False parent)
    (h : ConsumerLays parent j.id (ius ++ j.buildKeys ++ j.buildPayloadIUs) f)
    (hready : Ready ctx.program) (hscope : ScopeOk ctx.program scope) (hb : Binds scope ius)
    (hkeys : ∀ iu ∈ j.probeKeys, iu.id ∈ ius.map IU.id) :
    ∃ ctx', j.consumeProbeSide parent scope ctx = .ok ((), ctx') ∧
      ctx'.heap = f (ctx.heap.setNumKeyFields j.hashTable j.probeKeys.length) := by
  obtain ⟨ctx₁, matchesPtr, zero, bound, one, adv, hm, hheap, hrun⟩ :=
    probeSide_opens parent hready hscope hb hkeys
  have hscope₁ := hscope.mono adv.loc
  rw [hrun, ← hheap]
  apply countedLoop_lays ctx₁ "hj_match" zero bound one _ adv.ready.valid
  · intro ctx₂ ctx₃ hr hl hav hbody
    exact probeBody_emits he hr (hscope₁.mono hl) (hm.mono hl) hav hbody
  · intro ctx₂ hr hl hav
    exact probeBody_lays h hr (hscope₁.mono hl) hb (hm.mono hl) hav

lemma print_lays {self : Word} {outputIUs ius : List IU} {child : Nat}
    (hwide : outputIUs.length ≤ 8) (h : ∀ iu ∈ outputIUs, iu.id ∈ ius.map IU.id) :
    ConsumerLays (printConsume self outputIUs) child ius id := by
  intro ctx scope _ _ hb
  have hrest : Quiet (do
      let selfPtr ← Gen.addConstInt self .ptr
      let nColsRef ← Gen.addConstInt (BitVec.ofNat 64 outputIUs.length) .int64
      let vals ← scope.getAll outputIUs
      let callArgs := [selfPtr, nColsRef] ++ vals.map SQLValue.valueRef
      let callArgs ← padWithZeros (2 + 8 - callArgs.length) callArgs
      let _ ← Gen.addCall .void .printRow callArgs : Gen Unit) fun _ => True :=
    Quiet.bind (quiet_build _) fun _ _ => Quiet.bind (quiet_build _) fun _ _ =>
      Quiet.bind (hb.getAll h) fun _ _ => Quiet.bind (padWithZeros_quiet _ _) fun _ _ =>
        Quiet.bind (quiet_build _) fun _ _ => quiet_pure trivial
  obtain ⟨⟨⟩, ctx', hrun, hheap, -⟩ := hrest ctx
  refine ⟨ctx', ?_, hheap⟩
  unfold printConsume
  rw [if_neg (by omega)]
  exact hrun

/-- The body of a scan loads the columns and consumes the tuple. -/
lemma scanBody_opens (scan : ScanTranslator) (parent : Consumer) {iPhi : IRValueRef}
    (hready : Ready ctx.program) (hi : Available ctx.program iPhi) :
    ∃ ctx₁ scope, Ready ctx₁.program ∧ ScopeOk ctx₁.program scope ∧ Binds scope scan.colIUs ∧
      ctx₁.heap = ctx.heap ∧ scanBody scan parent iPhi ctx = parent scope scan.id ctx₁ := by
  have hcols : (scan.colIUs.zip scan.table.columns).map Prod.fst = scan.colIUs :=
    List.map_fst_zip (by simp [ScanTranslator.colIUs])
  obtain ⟨scope, ctx₁, hrun, hheap, hb⟩ := bindColumns_quiet
    (scan.colIUs.zip scan.table.columns) binds_nil ctx
  rw [List.nil_append, hcols] at hb
  obtain ⟨adv, hscope⟩ := bindColumns_advances False hready hi (fun _ _ hv => by cases hv) hrun
  exact ⟨ctx₁, scope, adv.ready, hscope, hb, hheap, run_bind_of_ok hrun⟩

lemma scan_lays {scan : ScanTranslator} {parent : Consumer} {f : Heap → Heap}
    (he : ConsumerEmits False parent) (h : ConsumerLays parent scan.id scan.colIUs f)
    (hv : Valid ctx.program) (ho : Open ctx.program) :
    ∃ ctx', scan.produce parent ctx = .ok ((), ctx') ∧ ctx'.heap = f ctx.heap := by
  obtain ⟨p, zeroOff, count, one, hstart, hopens⟩ := scanProduce_opens scan parent hv ho
  rw [hopens]
  apply countedLoop_lays (ctx.withProgram p) _ _ _ _ _ hstart.valid
  · intro ctx₁ ctx₂ hr _ hav hrun
    exact scanBody_emits he hr hav hrun
  · intro ctx₁ hr _ hav
    obtain ⟨ctx₂, scope, hr₂, hs₂, hb, hheap, hbody⟩ := scanBody_opens scan parent hr hav
    rw [hbody, ← hheap]
    exact h ctx₂ scope hr₂ hs₂ hb

/-- Code is generated for a scoped tree, and the tables are laid out. -/
theorem produce_lays (op : Operator) (hids : SidesDistinct op) (hs : op.Scoped) {parent : Consumer}
    {f : Heap → Heap} (he : ConsumerEmits False parent)
    (hp : ConsumerLays parent op.id op.outputIUs f) (hv : Valid ctx.program) (ho : Open ctx.program) :
    ∃ ctx', op.produce parent ctx = .ok ((), ctx') ∧ ctx'.heap = op.layout f ctx.heap := by
  induction op generalizing parent f ctx with
  | scan scan => exact scan_lays he hp hv ho
  | select id child pred ih =>
    exact ih hids hs.1 (select_emits he False.elim) (select_lays hp hs.2) hv ho
  | hashJoin id build probe buildKeys probeKeys ht ihb ihp =>
    obtain ⟨hne, hidb, hidp⟩ := hids
    obtain ⟨hsb, hsp, hbk, hpk⟩ := hs
    let j := HashJoinTranslator.of id build buildKeys probeKeys ht
    have hbuild : ConsumerLays (j.consume parent) build.id build.outputIUs j.layoutBuild :=
      buildSide_lays hbk
    have hprobe : ConsumerLays (j.consume parent) probe.id probe.outputIUs
        fun heap => f (heap.setNumKeyFields ht probeKeys.length) := by
      intro ctx₀ scope hready hscope hb
      unfold HashJoinTranslator.consume
      rw [if_neg (show probe.id ≠ j.buildId from hne.symm)]
      exact probeSide_lays he hp hready hscope hb hpk
    obtain ⟨ctx₁, hrun₁, hheap₁⟩ := ihb hidb hsb (join_emits he) hbuild hv ho
    have e₁ := produce_emits build (join_emits he) False.elim hv ho hrun₁
    obtain ⟨-, hv₁, ho₁⟩ := ((Emits.const _ _ _).trans e₁).grows hv ho
    obtain ⟨ctx₂, hrun₂, hheap₂⟩ := ihp hidp hsp (join_emits he) hprobe hv₁ ho₁
    refine ⟨ctx₂, (run_bind_of_ok hrun₁).trans hrun₂, ?_⟩
    rw [hheap₂, hheap₁]
    rfl

/-- What laying out the tables does: only the field counts of the tree's tables change. -/
lemma layout_invariant (op : Operator) {f : Heap → Heap} {P : Heap → Prop}
    (hf : ∀ heap, P heap → P (f heap))
    (hset : ∀ ht ∈ op.tables, ∀ heap n, P heap →
      P (heap.setNumKeyFields ht n) ∧ P (heap.setNumPayloadFields ht n))
    {heap : Heap} (h : P heap) : P (op.layout f heap) := by
  induction op generalizing f heap with
  | scan scan => exact hf heap h
  | select id child pred ih => exact ih hf hset h
  | hashJoin id build probe buildKeys probeKeys ht ihb ihp =>
    have hown := hset ht List.mem_cons_self
    have hb : ∀ ht' ∈ build.tables, _ := fun ht' hmem =>
      hset ht' (List.mem_cons_of_mem ht (List.mem_append_left _ hmem))
    have hp : ∀ ht' ∈ probe.tables, _ := fun ht' hmem =>
      hset ht' (List.mem_cons_of_mem ht (List.mem_append_right _ hmem))
    apply ihp (fun heap hheap => hf _ (hown heap _ hheap).1) hp
    exact ihb (fun heap hheap => (hown _ _ (hown heap _ hheap).1).2) hb h

/-- Whatever the consumer does last holds in the end. -/
lemma layout_final (op : Operator) {f : Heap → Heap} {P : Heap → Prop}
    (hf : ∀ heap, P (f heap)) (heap : Heap) : P (op.layout f heap) := by
  induction op generalizing f heap with
  | scan scan => exact hf heap
  | select id child pred ih => exact ih hf heap
  | hashJoin id build probe buildKeys probeKeys ht ihb ihp =>
    exact ihp (fun heap => hf _) _

end

end Proofs

end TidyTuples
