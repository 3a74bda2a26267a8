import Mathlib.Data.Sum.Basic
import Mathlib.Data.Nat.Init

/-!
# Simulation with stuttering

Two deterministic systems step from state to state until they end with a result. A step of the
source is matched by steps of the target or, while a measure of the source goes down, by none.
-/

namespace TidyTuples.Stuttering

variable {S T O U : Type*}

/-- At most `n` steps; a run that has ended is its result. -/
def steps (next : S → S ⊕ O) : Nat → S → S ⊕ O
  | 0, s => .inl s
  | n + 1, s =>
    match next s with
    | .inl s' => steps next n s'
    | .inr o => .inr o

section

variable {next : S → S ⊕ O} {s s' : S} {o : O} {m : Nat}

lemma steps_succ_of_inl (h : next s = .inl s') (n : Nat) :
    steps next (n + 1) s = steps next n s' := by
  rw [steps, h]

lemma steps_succ_of_inr (h : next s = .inr o) (n : Nat) : steps next (n + 1) s = .inr o := by
  rw [steps, h]

lemma steps_add_of_inl (h : steps next m s = .inl s') (n : Nat) :
    steps next (m + n) s = steps next n s' := by
  induction m generalizing s with
  | zero =>
    cases h
    rw [Nat.zero_add]
  | succ m ih =>
    rw [Nat.succ_add]
    cases hs : next s with
    | inl s₁ =>
      rw [steps_succ_of_inl hs] at h ⊢
      exact ih h
    | inr o =>
      rw [steps_succ_of_inr hs] at h
      cases h

lemma steps_add_of_inr (h : steps next m s = .inr o) (n : Nat) :
    steps next (m + n) s = .inr o := by
  induction m generalizing s with
  | zero => cases h
  | succ m ih =>
    rw [Nat.succ_add]
    cases hs : next s with
    | inl s₁ =>
      rw [steps_succ_of_inl hs] at h ⊢
      exact ih h
    | inr o' =>
      rw [steps_succ_of_inr hs] at h ⊢
      exact h

/-- A run that goes on after `m` steps goes on before. -/
lemma steps_inl_of_le {n : Nat} (h : steps next m s = .inl s') (hn : n ≤ m) :
    ∃ s₁, steps next n s = .inl s₁ := by
  cases hs : steps next n s with
  | inl s₁ => exact ⟨s₁, rfl⟩
  | inr o =>
    have hlater := steps_add_of_inr hs (m - n)
    rw [Nat.add_sub_cancel' hn, h] at hlater
    cases hlater

end

/-- `R` relates states, `Q` results. `Seen` holds of the target's states while a step of the source
is matched. -/
structure Simulation (source : S → S ⊕ O) (target : T → T ⊕ U) (R Seen : S → T → Prop)
    (Q : O → U → Prop) (measure : S → Nat) : Prop where
  ends : ∀ {s t o}, R s t → source s = .inr o → ∃ u, target t = .inr u ∧ Q o u
  moves : ∀ {s t s'}, R s t → source s = .inl s' → (R s' t ∧ measure s' < measure s) ∨
    ∃ k t', steps target (k + 1) t = .inl t' ∧ R s' t' ∧ Seen s' t' ∧
      ∀ j, 0 < j → j ≤ k → ∀ u, steps target j t = .inl u → Seen s' u

namespace Simulation

variable {source : S → S ⊕ O} {target : T → T ⊕ U} {R Seen : S → T → Prop} {Q : O → U → Prop}
  {measure : S → Nat} {s : S} {t : T}

/-- Some step of the source is matched in full, or both end. -/
lemma catchesUp (h : Simulation source target R Seen Q measure) (hR : R s t) :
    ∃ n m, Sum.LiftRel Seen Q (steps source n s) (steps target m t) := by
  induction hmeasure : measure s using Nat.strong_induction_on generalizing s with
  | _ size ih =>
    cases hs : source s with
    | inr o =>
      obtain ⟨u, ht, hQ⟩ := h.ends hR hs
      refine ⟨1, 1, ?_⟩
      rw [steps_succ_of_inr hs, steps_succ_of_inr ht]
      exact .inr hQ
    | inl s' =>
      rcases h.moves hR hs with ⟨hR', hlt⟩ | ⟨k, t', ht, -, hseen, -⟩
      · obtain ⟨n, m, hnm⟩ := ih (measure s') (hmeasure ▸ hlt) hR' rfl
        exact ⟨n + 1, m, by rwa [steps_succ_of_inl hs]⟩
      · refine ⟨1, k + 1, ?_⟩
        rw [steps_succ_of_inl hs, ht]
        exact .inl hseen

/-- Whatever the source does, the target comes to do. -/
theorem forward (h : Simulation source target R Seen Q measure) (hR : R s t) (n : Nat) :
    ∃ n' ≥ n, ∃ m, Sum.LiftRel Seen Q (steps source n' s) (steps target m t) := by
  induction n generalizing s t with
  | zero =>
    obtain ⟨n', m, hnm⟩ := h.catchesUp hR
    exact ⟨n', Nat.zero_le _, m, hnm⟩
  | succ n ih =>
    cases hs : source s with
    | inr o =>
      obtain ⟨u, ht, hQ⟩ := h.ends hR hs
      refine ⟨n + 1, Nat.le_refl _, 1, ?_⟩
      rw [steps_succ_of_inr hs, steps_succ_of_inr ht]
      exact .inr hQ
    | inl s' =>
      rcases h.moves hR hs with ⟨hR', -⟩ | ⟨k, t', ht, hR', -, -⟩
      · obtain ⟨n', hn, m, hnm⟩ := ih hR'
        exact ⟨n' + 1, Nat.succ_le_succ hn, m, by rwa [steps_succ_of_inl hs]⟩
      · obtain ⟨n', hn, m, hnm⟩ := ih hR'
        refine ⟨n' + 1, Nat.succ_le_succ hn, k + 1 + m, ?_⟩
        rwa [steps_succ_of_inl hs, steps_add_of_inl ht]

/-- The target does nothing but what the source does. -/
theorem backward (h : Simulation source target R Seen Q measure) (hR : R s t) (hseen : Seen s t)
    (m : Nat) : ∃ n, Sum.LiftRel Seen Q (steps source n s) (steps target m t) := by
  rcases Nat.eq_zero_or_pos m with rfl | hm
  · exact ⟨0, .inl hseen⟩
  clear hseen
  induction m using Nat.strong_induction_on generalizing s t with
  | _ m ihm =>
    induction hmeasure : measure s using Nat.strong_induction_on generalizing s with
    | _ size ih =>
      cases hs : source s with
      | inr o =>
        obtain ⟨u, ht, hQ⟩ := h.ends hR hs
        refine ⟨1, ?_⟩
        rw [steps_succ_of_inr hs, ← Nat.sub_add_cancel hm, steps_succ_of_inr ht]
        exact .inr hQ
      | inl s' =>
        rcases h.moves hR hs with ⟨hR', hlt⟩ | ⟨k, t', ht, hR', hseen', hbetween⟩
        · obtain ⟨n, hn⟩ := ih (measure s') (hmeasure ▸ hlt) hR' rfl
          exact ⟨n + 1, by rwa [steps_succ_of_inl hs]⟩
        · rcases Nat.lt_trichotomy m (k + 1) with hlt | rfl | hlt
          · obtain ⟨u, hu⟩ := steps_inl_of_le ht (Nat.le_of_lt hlt)
            refine ⟨1, ?_⟩
            rw [steps_succ_of_inl hs, hu]
            exact .inl (hbetween m hm (Nat.le_of_lt_succ hlt) u hu)
          · refine ⟨1, ?_⟩
            rw [steps_succ_of_inl hs, ht]
            exact .inl hseen'
          · obtain ⟨n, hn⟩ := ihm (m - (k + 1)) (by omega) hR' (by omega)
            refine ⟨n + 1, ?_⟩
            rw [steps_succ_of_inl hs, ← Nat.add_sub_cancel' (Nat.le_of_lt hlt), steps_add_of_inl ht]
            exact hn

end Simulation

end TidyTuples.Stuttering
