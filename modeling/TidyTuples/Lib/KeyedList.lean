import Mathlib.Data.List.Nodup

/-!
# Lists with keys

A list as a store: the first element with a key is the one that counts, and a new element takes the
place of the first one with its key.
-/

namespace TidyTuples.KeyedList

variable {α β κ : Type*} [DecidableEq κ]

/-- Put `x` in the place of the first element with its key, or behind all. -/
def upsert (key : α → κ) (x : α) (xs : List α) : List α :=
  match xs.findIdx? fun y => key y = key x with
  | some i => xs.set i x
  | none => xs ++ [x]

/-- The element of a key. -/
def get? (key : α → κ) (k : κ) (xs : List α) : Option α := xs.find? fun y => key y = k

variable {key : α → κ} {x y : α} {xs : List α} {k : κ} {i : Nat}

lemma upsert_of_none (h : xs.findIdx? (fun y => key y = key x) = none) :
    upsert key x xs = xs ++ [x] := by
  rw [upsert, h]

lemma upsert_of_some (h : xs.findIdx? (fun y => key y = key x) = some i) :
    upsert key x xs = xs.set i x := by
  rw [upsert, h]

lemma upsert_cons : upsert key x (y :: xs) =
    if key y = key x then x :: xs else y :: upsert key x xs := by
  unfold upsert
  rw [List.findIdx?_cons]
  by_cases h : key y = key x
  · simp [h]
  · simp only [h, decide_false, Bool.false_eq_true, if_false]
    cases xs.findIdx? fun y => key y = key x <;> simp

/-- The new element counts, and no other key is touched. -/
theorem get?_upsert : get? key k (upsert key x xs) = if k = key x then some x else get? key k xs := by
  induction xs with
  | nil =>
    by_cases h : k = key x
    · simp [upsert, get?, h]
    · simp [upsert, get?, h, Ne.symm h]
  | cons y xs ih =>
    rw [upsert_cons]
    unfold get? at ih ⊢
    by_cases hy : key y = key x
    · rw [if_pos hy]
      by_cases h : k = key x
      · simp [h]
      · have hx : key x ≠ k := Ne.symm h
        have hyk : key y ≠ k := hy ▸ hx
        simp [h, hx, hyk]
    · rw [if_neg hy]
      by_cases hyk : key y = k
      · have h : k ≠ key x := hyk ▸ hy
        simp [hyk, h]
      · simp only [List.find?_cons, hyk, decide_false]
        exact ih

lemma keys_upsert : (upsert key x xs).map key =
    if key x ∈ xs.map key then xs.map key else xs.map key ++ [key x] := by
  induction xs with
  | nil => rfl
  | cons y xs ih =>
    rw [upsert_cons]
    by_cases hy : key y = key x
    · simp [hy]
    · have hne : key x ≠ key y := Ne.symm hy
      rw [if_neg hy, List.map_cons, ih, List.map_cons]
      by_cases hmem : key x ∈ xs.map key
      · rw [if_pos hmem, if_pos (List.mem_cons_of_mem _ hmem)]
      · rw [if_neg hmem, if_neg, List.cons_append]
        simp [hne, hmem]

/-- Distinct keys stay distinct. -/
theorem nodup_upsert (h : (xs.map key).Nodup) : ((upsert key x xs).map key).Nodup := by
  rw [keys_upsert]
  split_ifs with hmem
  · exact h
  · rw [← List.concat_eq_append]
    exact h.concat hmem

lemma map_upsert (key' : β → κ) (f : α → β) (h : ∀ y, key' (f y) = key y) (x : α) (xs : List α) :
    (upsert key x xs).map f = upsert key' (f x) (xs.map f) := by
  induction xs with
  | nil => rfl
  | cons y xs ih =>
    rw [upsert_cons, List.map_cons, upsert_cons, h, h]
    split_ifs
    · rfl
    · rw [List.map_cons, ih]

/-- An element is found under its key. -/
lemma get?_of_mem (hnodup : (xs.map key).Nodup) (hy : y ∈ xs) : get? key (key y) xs = some y := by
  induction xs with
  | nil => cases hy
  | cons z xs ih =>
    obtain ⟨hz, hxs⟩ := List.nodup_cons.mp hnodup
    unfold get? at ih ⊢
    rcases List.mem_cons.mp hy with rfl | hy
    · simp
    · have hne : key z ≠ key y := fun heq => hz (heq ▸ List.mem_map_of_mem hy)
      simp only [List.find?_cons, hne, decide_false]
      exact ih hxs hy

/-- After a run of insertions a key stands for what was last inserted under it. -/
theorem get?_foldl_upsert (news xs : List α) :
    get? key k (news.foldl (fun xs x => upsert key x xs) xs) =
      (get? key k news.reverse).or (get? key k xs) := by
  induction news generalizing xs with
  | nil => rfl
  | cons x news ih =>
    rw [List.foldl_cons, ih, get?_upsert, List.reverse_cons]
    unfold get?
    rw [List.find?_append]
    by_cases h : k = key x
    · rw [if_pos h]
      simp [h]
    · rw [if_neg h]
      simp [Ne.symm h]

/-- With distinct keys the last element of a key is the first one. -/
lemma get?_reverse (hnodup : (xs.map key).Nodup) : get? key k xs.reverse = get? key k xs := by
  cases hget : get? key k xs with
  | none =>
    unfold get? at hget ⊢
    rw [List.find?_eq_none] at hget ⊢
    exact fun y hy => hget y (List.mem_reverse.mp hy)
  | some y =>
    have hy : y ∈ xs := List.mem_of_find?_eq_some hget
    have hk : key y = k := of_decide_eq_true (List.find?_some (p := fun y => decide (key y = k)) hget)
    have hnodup' : (xs.reverse.map key).Nodup := by
      rw [List.map_reverse]
      exact List.nodup_reverse.mpr hnodup
    rw [← hk]
    exact get?_of_mem hnodup' (List.mem_reverse.mpr hy)

end TidyTuples.KeyedList
