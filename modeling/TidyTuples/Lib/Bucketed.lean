import Mathlib.Data.List.Basic
import Mathlib.Logic.Function.Basic

/-!
# Lists by bucket, and loops that build them

`group bucket xs` is the content of a chained hash table after the insertion of `xs`, in order. A
lookup that can only succeed inside one bucket finds there what it would find in the whole list.
-/

namespace TidyTuples.Bucketed

section

variable {ι α : Type} [DecidableEq ι] (bucket : α → ι)

def group (xs : List α) : ι → List α := fun b => xs.filter fun x => bucket x = b

@[simp] lemma group_nil : group bucket [] = fun _ => [] := rfl

lemma group_append_singleton (xs : List α) (x : α) : group bucket (xs ++ [x]) =
    Function.update (group bucket xs) (bucket x) (group bucket xs (bucket x) ++ [x]) := by
  funext b
  by_cases hb : b = bucket x
  · subst hb
    simp [group]
  · simp [group, Function.update_of_ne hb, Ne.symm hb]

lemma filter_group {xs : List α} {b : ι} {p : α → Bool}
    (h : ∀ x ∈ xs, p x = true → bucket x = b) : (group bucket xs b).filter p = xs.filter p := by
  rw [group, List.filter_filter]
  apply List.filter_congr
  intro x hx
  cases hp : p x with
  | false => simp
  | true => simp [h x hx hp]

end

/-- A loop over `0, ..., n - 1` keeps an invariant that counts the rounds. -/
lemma foldlM_range_of_invariant {σ : Type} {body : σ → Nat → Option σ} {n : Nat}
    {I : Nat → σ → Prop} (hstep : ∀ i < n, ∀ s, I i s → ∃ s', body s i = some s' ∧ I (i + 1) s')
    {s : σ} (h : I 0 s) : ∃ s', (List.range n).foldlM body s = some s' ∧ I n s' := by
  induction n with
  | zero => exact ⟨s, rfl, h⟩
  | succ n ih =>
    obtain ⟨s₁, hs₁, h₁⟩ := ih fun i hi => hstep i (by omega)
    obtain ⟨s₂, hs₂, h₂⟩ := hstep n (by omega) s₁ h₁
    refine ⟨s₂, ?_, h₂⟩
    rw [List.range_succ, List.foldlM_append, hs₁]
    simpa using hs₂

end TidyTuples.Bucketed
