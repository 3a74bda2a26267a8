import Mathlib.Data.Finset.Card
import Mathlib.Tactic.Common

/-!
# Graph exploration with a worklist

`explore` pops one node at a time, skips the nodes that are out of range or already seen, and
pushes the successors of the others. The worklist is a stack with its top first.
-/

namespace TidyTuples.Worklist

variable {α : Type} [DecidableEq α]

def explore (inRange : α → Prop) [DecidablePred inRange] (succ : α → List α) :
    Nat → List α → List α → List α
  | 0, _, seen => seen
  | _ + 1, [], seen => seen
  | fuel + 1, x :: worklist, seen =>
    if inRange x ∧ x ∉ seen then explore inRange succ fuel (succ x ++ worklist) (x :: seen)
    else explore inRange succ fuel worklist seen

/-- One iteration on the pair of worklist and seen nodes; there is none once the worklist is
empty. -/
def step (inRange : α → Prop) [DecidablePred inRange] (succ : α → List α) :
    List α × List α → Option (List α × List α)
  | ([], _) => none
  | (x :: worklist, seen) =>
    if inRange x ∧ x ∉ seen then some (succ x ++ worklist, x :: seen) else some (worklist, seen)

/-- The state after a number of iterations, if the loop runs for so long. -/
def steps {σ : Type} (next : σ → Option σ) : Nat → σ → Option σ
  | 0, s => some s
  | k + 1, s => (next s).bind (steps next k)

variable {inRange : α → Prop} [DecidablePred inRange] {succ : α → List α}

lemma mem_explore_of_mem (fuel : Nat) (worklist seen : List α) {x : α} (h : x ∈ seen) :
    x ∈ explore inRange succ fuel worklist seen := by
  induction fuel generalizing worklist seen with
  | zero => exact h
  | succ fuel ih =>
    cases worklist with
    | nil => exact h
    | cons y worklist =>
      rw [explore]
      split_ifs
      · exact ih _ _ (List.mem_cons_of_mem y h)
      · exact ih _ _ h

/-- What holds of the pending nodes and passes on to successors holds of the marked nodes. -/
theorem explore_sound {holds : α → Prop} (hsucc : ∀ x, holds x → ∀ y ∈ succ x, holds y) (fuel : Nat)
    (worklist seen : List α) (hpend : ∀ x ∈ worklist, holds x) (hseen : ∀ x ∈ seen, holds x) :
    ∀ x ∈ explore inRange succ fuel worklist seen, holds x := by
  induction fuel generalizing worklist seen with
  | zero => exact hseen
  | succ fuel ih =>
    cases worklist with
    | nil => exact hseen
    | cons z worklist =>
      have hz := hpend z List.mem_cons_self
      have hrest : ∀ x ∈ worklist, holds x := fun x hx => hpend x (List.mem_cons_of_mem z hx)
      rw [explore]
      split_ifs
      · apply ih
        · intro x hx
          rcases List.mem_append.mp hx with hx | hx
          · exact hsucc z hz x hx
          · exact hrest x hx
        · intro x hx
          rcases List.mem_cons.mp hx with rfl | hx
          · exact hz
          · exact hseen x hx
      · exact ih worklist seen hrest hseen

/-- What is still to be popped or can still be pushed. -/
def work (U : Finset α) (d : Nat) (worklist seen : List α) : Nat :=
  worklist.length + d * (U \ seen.toFinset).card

lemma work_mark {U : Finset α} {d : Nat} (worklist : List α) {seen : List α} {x : α} (hx : x ∈ U)
    (hseen : x ∉ seen) (hd : (succ x).length ≤ d) :
    work U d (succ x ++ worklist) (x :: seen) < work U d (x :: worklist) seen := by
  have hmem : x ∈ U \ seen.toFinset := by simp [hx, hseen]
  have hcard : (U \ (x :: seen).toFinset).card + 1 = (U \ seen.toFinset).card := by
    rw [List.toFinset_cons, Finset.sdiff_insert, Finset.card_erase_add_one hmem]
  simp only [work, List.length_append, List.length_cons, ← hcard, Nat.mul_add]
  omega

variable (inRange succ) in
/-- With enough fuel every node in range that is pending or seen, and every successor in range
of a node that gets marked, is marked in the end. -/
theorem explore_closed (U : Finset α) (hU : ∀ x, inRange x → x ∈ U) (d : Nat)
    (hd : ∀ x, (succ x).length ≤ d) (fuel : Nat) (worklist seen : List α)
    (hfuel : work U d worklist seen ≤ fuel)
    (hinv : ∀ x ∈ seen, ∀ y ∈ succ x, inRange y → y ∈ seen ∨ y ∈ worklist) :
    (∀ x ∈ worklist, inRange x → x ∈ explore inRange succ fuel worklist seen) ∧
      ∀ x ∈ explore inRange succ fuel worklist seen, ∀ y ∈ succ x, inRange y →
        y ∈ explore inRange succ fuel worklist seen := by
  induction fuel generalizing worklist seen with
  | zero =>
    have hnil : worklist = [] := List.length_eq_zero_iff.mp (by unfold work at hfuel; omega)
    subst hnil
    refine ⟨by simp, fun x hx y hy hr => ?_⟩
    exact (hinv x hx y hy hr).elim id (fun h => absurd h (by simp))
  | succ fuel ih =>
    cases worklist with
    | nil =>
      refine ⟨by simp, fun x hx y hy hr => ?_⟩
      exact (hinv x hx y hy hr).elim id (fun h => absurd h (by simp))
    | cons z worklist =>
      rw [explore]
      by_cases hz : inRange z ∧ z ∉ seen
      · rw [if_pos hz]
        have hwork := work_mark worklist (hU z hz.1) hz.2 (hd z)
        obtain ⟨hpend, hclosed⟩ := ih (succ z ++ worklist) (z :: seen) (by omega) (by
          intro x hx y hy hr
          rcases List.mem_cons.mp hx with rfl | hx
          · exact .inr (List.mem_append_left _ hy)
          · rcases hinv x hx y hy hr with h | h
            · exact .inl (List.mem_cons_of_mem z h)
            · rcases List.mem_cons.mp h with rfl | h
              · exact .inl List.mem_cons_self
              · exact .inr (List.mem_append_right _ h))
        refine ⟨fun x hx hr => ?_, hclosed⟩
        rcases List.mem_cons.mp hx with rfl | hx
        · exact mem_explore_of_mem _ _ _ List.mem_cons_self
        · exact hpend x (List.mem_append_right _ hx) hr
      · rw [if_neg hz]
        have hwork : work U d worklist seen + 1 = work U d (z :: worklist) seen := by
          simp only [work, List.length_cons]
          omega
        have hskip : inRange z → z ∈ seen := fun hr => by
          by_contra hns
          exact hz ⟨hr, hns⟩
        obtain ⟨hpend, hclosed⟩ := ih worklist seen (by omega) (by
          intro x hx y hy hr
          rcases hinv x hx y hy hr with h | h
          · exact .inl h
          · rcases List.mem_cons.mp h with rfl | h
            · exact .inl (hskip hr)
            · exact .inr h)
        refine ⟨fun x hx hr => ?_, hclosed⟩
        rcases List.mem_cons.mp hx with rfl | hx
        · exact mem_explore_of_mem _ _ _ (hskip hr)
        · exact hpend x hx hr

variable (inRange succ) in
/-- The loop empties the worklist within `work` iterations, and what it has seen then is what
`explore` returns. -/
theorem steps_explore (U : Finset α) (hU : ∀ x, inRange x → x ∈ U) (d : Nat)
    (hd : ∀ x, (succ x).length ≤ d) (fuel : Nat) (worklist seen : List α)
    (hfuel : work U d worklist seen ≤ fuel) :
    ∃ k ≤ fuel, steps (step inRange succ) k (worklist, seen) =
      some ([], explore inRange succ fuel worklist seen) := by
  induction fuel generalizing worklist seen with
  | zero =>
    have hnil : worklist = [] := List.length_eq_zero_iff.mp (by unfold work at hfuel; omega)
    subst hnil
    exact ⟨0, Nat.le_refl 0, rfl⟩
  | succ fuel ih =>
    cases worklist with
    | nil => exact ⟨0, Nat.zero_le _, rfl⟩
    | cons z worklist =>
      rw [explore]
      by_cases hz : inRange z ∧ z ∉ seen
      · have hwork := work_mark worklist (hU z hz.1) hz.2 (hd z)
        obtain ⟨k, hk, hrun⟩ := ih (succ z ++ worklist) (z :: seen) (by omega)
        refine ⟨k + 1, by omega, ?_⟩
        rw [if_pos hz, steps, step, if_pos hz]
        exact hrun
      · have hwork : work U d worklist seen + 1 = work U d (z :: worklist) seen := by
          simp only [work, List.length_cons]
          omega
        obtain ⟨k, hk, hrun⟩ := ih worklist seen (by omega)
        refine ⟨k + 1, by omega, ?_⟩
        rw [if_neg hz, steps, step, if_neg hz]
        exact hrun

/-- A loop that simulates another one step by step is related to it after every run. -/
theorem steps_simulates {σ τ : Type} {next : σ → Option σ} {next' : τ → Option τ} {R : σ → τ → Prop}
    (hstep : ∀ s t t', R s t → next' t = some t' → ∃ s', next s = some s' ∧ R s' t') (k : Nat)
    {s : σ} {t t' : τ} (hst : R s t) (hrun : steps next' k t = some t') :
    ∃ s', steps next k s = some s' ∧ R s' t' := by
  induction k generalizing s t with
  | zero =>
    cases hrun
    exact ⟨s, rfl, hst⟩
  | succ k ih =>
    obtain ⟨t₁, ht₁, hrest⟩ := Option.bind_eq_some_iff.mp hrun
    obtain ⟨s₁, hs₁, h₁⟩ := hstep s t t₁ hst ht₁
    obtain ⟨s', hs', h'⟩ := ih h₁ hrest
    refine ⟨s', ?_, h'⟩
    rw [steps, hs₁]
    exact hs'

end TidyTuples.Worklist
