import Mathlib.Data.List.Induction
import Mathlib.Data.List.Nodup
import Mathlib.Logic.Function.Basic
import Mathlib.Logic.Nontrivial.Defs

/-!
# Copies in sequence and in parallel

A list of copies between registers writes distinct registers, each from a register or a constant.
Made one after the other the copies do what they do at once, for all contents of the registers,
exactly if no copy reads what an earlier one has changed.
-/

namespace TidyTuples.ParallelCopy

variable {R K V : Type*} [DecidableEq R]

section

variable (const : K → V)

def value (regs : R → V) (src : K ⊕ R) : V := src.elim const regs

/-- One copy after the other. -/
def sequential : List (R × (K ⊕ R)) → (R → V) → R → V
  | [], regs => regs
  | (dst, src) :: rest, regs =>
    sequential rest (Function.update regs dst (value const regs src))

/-- Every written register gets what its source held before. -/
def IsParallel (copies : List (R × (K ⊕ R))) : Prop :=
  ∀ regs, ∀ copy ∈ copies, sequential const copies regs copy.1 = value const regs copy.2

end

/-- No copy reads a register that an earlier one has changed. -/
def Independent (copies : List (R × (K ⊕ R))) : Prop :=
  copies.Pairwise fun a b => b.2 = .inr a.1 → a.2 = .inr a.1

variable {const : K → V} {regs regs' : R → V} {copies : List (R × (K ⊕ R))} {r : R}

lemma sequential_append (copies' : List (R × (K ⊕ R))) :
    sequential const (copies ++ copies') regs =
      sequential const copies' (sequential const copies regs) := by
  induction copies generalizing regs with
  | nil => rfl
  | cons copy rest ih => exact ih

/-- The other registers stay as they are. -/
lemma sequential_of_notMem (h : r ∉ copies.map Prod.fst) :
    sequential const copies regs r = regs r := by
  induction copies generalizing regs with
  | nil => rfl
  | cons copy rest ih =>
    rw [List.map_cons, List.mem_cons, not_or] at h
    change sequential const rest (Function.update regs copy.1 _) r = _
    rw [ih h.2, Function.update_of_ne h.1]

/-- A register gets what the source of its copy holds by then. -/
lemma sequential_split {dst : R} {src : K ⊕ R} {pre post : List (R × (K ⊕ R))}
    (h : dst ∉ post.map Prod.fst) : sequential const (pre ++ (dst, src) :: post) regs dst =
      value const (sequential const pre regs) src := by
  rw [sequential_append]
  change sequential const post (Function.update _ dst _) dst = _
  rw [sequential_of_notMem h, Function.update_self]

omit [DecidableEq R] in
lemma notMem_of_nodup {dst : R} {src : K ⊕ R} {pre post : List (R × (K ⊕ R))}
    (h : ((pre ++ (dst, src) :: post).map Prod.fst).Nodup) :
    dst ∉ pre.map Prod.fst ∧ dst ∉ post.map Prod.fst := by
  rw [List.map_append, List.map_cons, List.nodup_append, List.nodup_cons] at h
  exact ⟨fun hmem => h.2.2 _ hmem _ List.mem_cons_self rfl, h.2.1.1⟩

/-- What precedes a copy works in parallel, too. -/
lemma IsParallel.of_append {copies' : List (R × (K ⊕ R))} (h : IsParallel const (copies ++ copies'))
    (hnodup : ((copies ++ copies').map Prod.fst).Nodup) : IsParallel const copies := by
  intro regs copy hcopy
  have hall := h regs copy (List.mem_append_left _ hcopy)
  rw [sequential_append, sequential_of_notMem] at hall
  · exact hall
  · rw [List.map_append, List.nodup_append] at hnodup
    exact fun hmem => hnodup.2.2 _ (List.mem_map_of_mem hcopy) _ hmem rfl

lemma Independent.isParallel (h : Independent copies) (hnodup : (copies.map Prod.fst).Nodup) :
    IsParallel const copies := by
  induction copies using List.reverseRecOn with
  | nil =>
    intro regs copy hcopy
    cases hcopy
  | append_singleton pre last ih =>
    obtain ⟨dst, src⟩ := last
    obtain ⟨hpre, hlast⟩ := notMem_of_nodup hnodup
    unfold Independent at h
    rw [List.pairwise_append] at h
    have hpar : IsParallel const pre := ih h.1 (by
      rw [List.map_append, List.nodup_append] at hnodup
      exact hnodup.1)
    intro regs copy hcopy
    rcases List.mem_append.mp hcopy with hmem | hmem
    · rw [sequential_append, sequential_of_notMem]
      · exact hpar regs copy hmem
      · rw [List.map_singleton, List.mem_singleton]
        intro heq
        apply hpre
        change copy.1 = dst at heq
        rw [← heq]
        exact List.mem_map_of_mem hmem
    · obtain rfl := List.mem_singleton.mp hmem
      rw [sequential_split hlast]
      cases src with
      | inl k => rfl
      | inr r =>
        change sequential const pre regs r = regs r
        by_cases hr : r ∈ pre.map Prod.fst
        · obtain ⟨earlier, hearlier, rfl⟩ := List.mem_map.mp hr
          have hself := h.2.2 earlier hearlier (dst, .inr earlier.1) List.mem_cons_self rfl
          rw [hpar regs earlier hearlier, hself]
          rfl
        · exact sequential_of_notMem hr

lemma IsParallel.independent [Nontrivial V] (h : IsParallel const copies)
    (hnodup : (copies.map Prod.fst).Nodup) : Independent copies := by
  induction copies using List.reverseRecOn with
  | nil => exact List.Pairwise.nil
  | append_singleton pre last ih =>
    obtain ⟨dst, src⟩ := last
    obtain ⟨-, hlast⟩ := notMem_of_nodup hnodup
    have hpar := h.of_append hnodup
    have hind := ih hpar (by
      rw [List.map_append, List.nodup_append] at hnodup
      exact hnodup.1)
    refine List.pairwise_append.mpr ⟨hind, List.pairwise_singleton _ _, ?_⟩
    intro earlier hearlier copy hcopy hsrc
    obtain rfl := List.mem_singleton.mp hcopy
    dsimp only at hsrc
    subst hsrc
    -- the last copy reads what the earlier one has written
    have hread : ∀ regs : R → V, value const regs earlier.2 = regs earlier.1 := by
      intro regs
      have hdst := h regs (dst, .inr earlier.1) (List.mem_append_right _ List.mem_cons_self)
      rw [sequential_split hlast] at hdst
      change sequential const pre regs earlier.1 = regs earlier.1 at hdst
      rw [← hdst, hpar regs earlier hearlier]
    obtain ⟨v, v', hne⟩ := exists_pair_ne V
    cases hsrc : earlier.2 with
    | inl k =>
      rw [hsrc] at hread
      exact absurd ((hread fun _ => v).symm.trans (hread fun _ => v')) hne
    | inr r =>
      by_contra hr
      have hrne : r ≠ earlier.1 := fun heq => hr (congrArg Sum.inr heq)
      have hboth := hread (Function.update (fun _ => v) earlier.1 v')
      rw [hsrc, Function.update_self, value, Sum.elim_inr, Function.update_of_ne hrne] at hboth
      exact hne hboth

/-- Copies made in sequence are parallel if and only if they are independent. -/
theorem isParallel_iff [Nontrivial V] (hnodup : (copies.map Prod.fst).Nodup) :
    IsParallel const copies ↔ Independent copies :=
  ⟨fun h => h.independent hnodup, fun h => h.isParallel hnodup⟩

end TidyTuples.ParallelCopy
