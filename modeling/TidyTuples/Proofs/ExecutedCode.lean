import TidyTuples.Proofs.Fusion

/-!
# The instructions of a run

The instructions that a run executes, in order, and whether each register is written before it is
read.
-/

namespace TidyTuples

/-- The instruction runs whatever the state, and control falls through it. -/
def VInstr.isTotal : VInstr → Bool
  | .invoke _ _ _ => false
  | i => i.isStraight

/-- Every register is written before it is read, those in `written` have been. -/
def WrittenFirst : List VReg → List VInstr → Prop
  | _, [] => True
  | written, i :: rest =>
    (∀ r ∈ i.reads, r ∈ written) ∧ WrittenFirst (i.writes.toList ++ written) rest

/-- The registers written once some instructions have run. -/
def writtenBy (written : List VReg) (code : List VInstr) : List VReg :=
  code.foldl (fun written i => i.writes.toList ++ written) written

namespace Target

variable {V σ : Type} (M : Target V σ)

/-- The instructions that `execCode` executes. -/
def executedIn : List VInstr → VState V σ → List VInstr
  | [], _ => []
  | i :: rest, s =>
    i :: match i with
      | .jmp _ => []
      | .cmpJumpTrue op a b _ =>
        if M.compare op (s.regs a) (s.regs b) then [] else executedIn rest s
      | .testJumpTrue cond _ => if M.truthy (s.regs cond) then [] else executedIn rest s
      | .ret => []
      | i =>
        match M.execVInstr i s with
        | none => []
        | some s => executedIn rest s

/-- The instructions that `runCode` executes. -/
def executed (code : List VInstr) : Nat → Label → VState V σ → List VInstr
  | 0, _, _ => []
  | fuel + 1, label, s =>
    match afterLabel code label with
    | none => []
    | some rest => M.executedIn rest s ++
      match M.execCode rest s with
      | .goto label s => executed code fuel label s
      | _ => []

/-- No register is read before it is written, however long the run. -/
def RunsClean (code : List VInstr) (s : VState V σ) : Prop :=
  ∀ fuel, WrittenFirst [] (M.executed code fuel (.block 0) s)

/-- What is executed of `rest` and, for `fuel` jumps, behind it. -/
def executedFrom (code : List VInstr) (fuel : Nat) (rest : List VInstr) (s : VState V σ) :
    List VInstr :=
  M.executedIn rest s ++
    match M.execCode rest s with
    | .goto label s => M.executed code fuel label s
    | _ => []

end Target

namespace Proofs

/-- Control falls through the code. -/
structure Runs {V σ : Type} (M : Target V σ) (code : List VInstr) (s s' : VState V σ) : Prop where
  exec : ∀ rest, M.execCode (code ++ rest) s = M.execCode rest s'
  log : ∀ rest, M.executedIn (code ++ rest) s = code ++ M.executedIn rest s'

/-- Control halts at the last instruction of the code. -/
structure Halts {V σ : Type} (M : Target V σ) (code : List VInstr) (s s' : VState V σ) : Prop where
  exec : ∀ rest, M.execCode (code ++ rest) s = .stuck s'
  log : ∀ rest, M.executedIn (code ++ rest) s = code

section

variable {W W' : List VReg} {code code' : List VInstr} {r : VReg}

lemma writtenBy_append : writtenBy W (code ++ code') = writtenBy (writtenBy W code) code' :=
  List.foldl_append

lemma mem_writtenBy : r ∈ writtenBy W code ↔ r ∈ W ∨ ∃ i ∈ code, i.writes = some r := by
  induction code generalizing W with
  | nil => simp [writtenBy]
  | cons i rest ih =>
    change r ∈ writtenBy (i.writes.toList ++ W) rest ↔ _
    rw [ih, List.mem_append, Option.mem_toList]
    simp only [List.mem_cons, exists_eq_or_imp]
    tauto

lemma writtenFirst_append : WrittenFirst W (code ++ code') ↔
    WrittenFirst W code ∧ WrittenFirst (writtenBy W code) code' := by
  induction code generalizing W with
  | nil => simp [WrittenFirst, writtenBy]
  | cons i rest ih =>
    rw [List.cons_append, WrittenFirst, WrittenFirst, ih, and_assoc]
    rfl

instance decidableWrittenFirst : (W : List VReg) → (code : List VInstr) →
    Decidable (WrittenFirst W code)
  | _, [] => .isTrue trivial
  | W, i :: rest =>
    have := decidableWrittenFirst (i.writes.toList ++ W) rest
    inferInstanceAs (Decidable (_ ∧ _))

end

section

variable {V σ : Type} {M : Target V σ} {code code' rest : List VInstr} {s s' s'' : VState V σ}
  {i : VInstr} {label : Label} {fuel : Nat}

/-! ### Falling through -/

lemma runs_nil : Runs M [] s s := ⟨fun _ => rfl, fun _ => rfl⟩

lemma Runs.append (h : Runs M code s s') (h' : Runs M code' s' s'') :
    Runs M (code ++ code') s s'' := by
  constructor
  · intro rest
    rw [List.append_assoc, h.exec, h'.exec]
  · intro rest
    rw [List.append_assoc, h.log, h'.log, List.append_assoc]

lemma Runs.halts (h : Runs M code s s') (h' : Halts M code' s' s'') :
    Halts M (code ++ code') s s'' := by
  constructor
  · intro rest
    rw [List.append_assoc, h.exec, h'.exec]
  · intro rest
    rw [List.append_assoc, h.log, h'.log]

lemma executedIn_cons (h : i.isStraight = true ∨ ∃ l, i = .bind l) (rest : List VInstr)
    (s : VState V σ) : M.executedIn (i :: rest) s =
      i :: match M.execVInstr i s with
        | none => []
        | some s => M.executedIn rest s := by
  rcases h with h | ⟨l, rfl⟩
  · cases i <;> first | rfl | cases h
  · rfl

lemma runs_straight (h : i.isStraight = true) (hs : M.execVInstr i s = some s') :
    Runs M [i] s s' := by
  constructor
  · intro rest
    rw [List.singleton_append, execCode_cons (.inl h), hs]
  · intro rest
    rw [List.singleton_append, executedIn_cons (.inl h), hs]
    rfl

lemma halts_straight (h : i.isStraight = true) (hs : M.execVInstr i s = none) :
    Halts M [i] s s := by
  constructor
  · intro rest
    rw [List.singleton_append, execCode_cons (.inl h), hs]
  · intro rest
    rw [List.singleton_append, executedIn_cons (.inl h), hs]

lemma runs_bind (label : Label) : Runs M [.bind label] s s := ⟨fun _ => rfl, fun _ => rfl⟩

lemma runs_test {cond : VReg} (h : M.truthy (s.regs cond) = false) (label : Label) :
    Runs M [.testJumpTrue cond label] s s := by
  constructor
  · intro rest
    rw [List.singleton_append, Target.execCode, h]
    rfl
  · intro rest
    rw [List.singleton_append, Target.executedIn, h]
    rfl

lemma runs_compare {op : Opcode} {a b : VReg} (h : M.compare op (s.regs a) (s.regs b) = false)
    (label : Label) : Runs M [.cmpJumpTrue op a b label] s s := by
  constructor
  · intro rest
    rw [List.singleton_append, Target.execCode, h]
    rfl
  · intro rest
    rw [List.singleton_append, Target.executedIn, h]
    rfl

/-- Code that runs whatever the state. -/
lemma total_runs (h : ∀ c ∈ code, c.isTotal = true) (s : VState V σ) : ∃ s', Runs M code s s' := by
  induction code generalizing s with
  | nil => exact ⟨s, runs_nil⟩
  | cons c rest ih =>
    have hc := h c List.mem_cons_self
    have hstraight : c.isStraight = true := by
      cases c <;> first | rfl | cases hc
    obtain ⟨s₁, hs₁⟩ : ∃ s₁, M.execVInstr c s = some s₁ := by
      cases c <;> first | exact ⟨_, rfl⟩ | cases hc
    obtain ⟨s', hs'⟩ := ih (fun c hc => h c (List.mem_cons_of_mem _ hc)) s₁
    exact ⟨s', (runs_straight hstraight hs₁).append hs'⟩

/-- Code of which only the last instruction can stop the run is executed. -/
lemma executedIn_reaches (code : List VInstr) (h : ∀ c ∈ code, c.isTotal = true)
    (hi : i.isStraight = true) (rest : List VInstr) (s : VState V σ) :
    ∃ log, M.executedIn ((code ++ [i]) ++ rest) s = (code ++ [i]) ++ log := by
  obtain ⟨s', hs'⟩ := total_runs (M := M) h s
  rw [List.append_assoc, hs'.log, List.singleton_append, executedIn_cons (.inl hi)]
  exact ⟨_, by rw [List.append_assoc, List.singleton_append]⟩

/-! ### What is executed from a place in the code -/

lemma executed_succ (h : Target.afterLabel code label = some rest) (fuel : Nat)
    (s : VState V σ) : M.executed code (fuel + 1) label s = M.executedFrom code fuel rest s := by
  rw [Target.executed, h]
  rfl

/-- No register is read before it is written in what is executed from `rest` on. -/
def CleanFrom (M : Target V σ) (code : List VInstr) (W : List VReg) (rest : List VInstr)
    (s : VState V σ) : Prop := ∀ fuel, WrittenFirst W (M.executedFrom code fuel rest s)

lemma Runs.executedFrom (h : Runs M code' s s') (code rest : List VInstr) (fuel : Nat) :
    M.executedFrom code fuel (code' ++ rest) s = code' ++ M.executedFrom code fuel rest s' := by
  unfold Target.executedFrom
  rw [h.exec, h.log, List.append_assoc]

lemma CleanFrom.of_runs {W : List VReg} (h : CleanFrom M code W (code' ++ rest) s)
    (hruns : Runs M code' s s') : CleanFrom M code (writtenBy W code') rest s' := by
  intro fuel
  have hfuel := h fuel
  rw [hruns.executedFrom] at hfuel
  exact (writtenFirst_append.mp hfuel).2

lemma CleanFrom.executes {W : List VReg} (h : CleanFrom M code W (code' ++ rest) s)
    (hlog : ∃ log, M.executedIn (code' ++ rest) s = code' ++ log) : WrittenFirst W code' := by
  obtain ⟨log, hlog⟩ := hlog
  have hfuel := h 0
  rw [Target.executedFrom, hlog] at hfuel
  exact (writtenFirst_append.mp (writtenFirst_append.mp hfuel).1).1

/-- Across a jump. -/
lemma CleanFrom.of_goto {W : List VReg} {label : Label} {rest' : List VInstr}
    (h : CleanFrom M code W rest s) (hexec : M.execCode rest s = .goto label s')
    (hlabel : Target.afterLabel code label = some rest') :
    CleanFrom M code (writtenBy W (M.executedIn rest s)) rest' s' := by
  intro fuel
  have hfuel := h (fuel + 1)
  unfold Target.executedFrom at hfuel
  rw [hexec] at hfuel
  dsimp only at hfuel
  rw [executed_succ hlabel] at hfuel
  exact (writtenFirst_append.mp hfuel).2

/-! ### Runs that end -/

lemma executed_isPrefixOf (code : List VInstr) (n : Nat) (label : Label) (s : VState V σ) :
    ∃ log, M.executed code (n + 1) label s = M.executed code n label s ++ log := by
  induction n generalizing label s with
  | zero => exact ⟨_, rfl⟩
  | succ n ih =>
    cases hlabel : Target.afterLabel code label with
    | none => exact ⟨[], by rw [Target.executed, Target.executed, hlabel]; rfl⟩
    | some rest =>
      rw [executed_succ hlabel, executed_succ hlabel, Target.executedFrom, Target.executedFrom]
      cases M.execCode rest s with
      | goto label' s' =>
        obtain ⟨log, hlog⟩ := ih label' s'
        refine ⟨log, ?_⟩
        dsimp only
        rw [hlog, List.append_assoc]
      | returned s' => exact ⟨[], (List.append_nil _).symm⟩
      | stuck s' => exact ⟨[], (List.append_nil _).symm⟩

lemma executed_of_returned {n : Nat} (h : M.runCode code n label s = .returned s') :
    M.executed code (n + 1) label s = M.executed code n label s ∧
      M.runCode code (n + 1) label s = .returned s' := by
  induction n generalizing label s with
  | zero => cases h
  | succ n ih =>
    cases hlabel : Target.afterLabel code label with
    | none =>
      rw [Target.runCode, hlabel] at h
      cases h
    | some rest =>
      rw [executed_succ hlabel, executed_succ hlabel, Target.executedFrom, Target.executedFrom]
      rw [Target.runCode, hlabel] at h ⊢
      dsimp only at h ⊢
      cases hexec : M.execCode rest s with
      | goto label' s₁ =>
        rw [hexec] at h
        obtain ⟨hlog, hrun⟩ := ih h
        dsimp only
        exact ⟨by rw [hlog], hrun⟩
      | returned s₁ =>
        rw [hexec] at h
        exact ⟨rfl, h⟩
      | stuck s₁ =>
        rw [hexec] at h
        cases h

lemma executed_add_of_returned {n : Nat} (h : M.runCode code n label s = .returned s') (k : Nat) :
    M.executed code (n + k) label s = M.executed code n label s ∧
      M.runCode code (n + k) label s = .returned s' := by
  induction k with
  | zero => exact ⟨rfl, h⟩
  | succ k ih =>
    obtain ⟨hsame, hrun⟩ := executed_of_returned ih.2
    exact ⟨hsame.trans ih.1, hrun⟩

lemma runCode_of_le {n n' : Nat} (h : M.runCode code n label s = .returned s') (hn : n ≤ n') :
    M.runCode code n' label s = .returned s' := by
  rw [← Nat.add_sub_cancel' hn]
  exact (executed_add_of_returned h _).2

/-- A run that returns is clean if it has been clean. -/
theorem runsClean_of_returned {n : Nat} (h : M.runCode code n (.block 0) s = .returned s')
    (hlog : WrittenFirst [] (M.executed code n (.block 0) s)) : M.RunsClean code s := by
  have hearlier : ∀ k ≤ n, WrittenFirst [] (M.executed code (n - k) (.block 0) s) := by
    intro k hk
    induction k with
    | zero => exact hlog
    | succ k ih =>
      obtain ⟨log, heq⟩ := executed_isPrefixOf (M := M) code (n - (k + 1)) (.block 0) s
      rw [← Nat.succ_eq_add_one, show (n - (k + 1)).succ = n - k by omega] at heq
      have hmore := ih (by omega)
      rw [heq] at hmore
      exact (writtenFirst_append.mp hmore).1
  intro fuel
  rcases Nat.le_total n fuel with hle | hle
  · rw [← Nat.add_sub_cancel' hle, (executed_add_of_returned h _).1]
    exact hlog
  · rw [← Nat.sub_sub_self hle]
    exact hearlier _ (Nat.sub_le _ _)

end

end Proofs

end TidyTuples
