import Mathlib.Data.Multiset.Bind
import Mathlib.Data.Multiset.Filter
import Mathlib.Data.Set.Disjoint
import Mathlib.Data.Set.Lattice
import Mathlib.Order.CompletePartialOrder

/-!
# Bags of partial tuples

A tuple gives some attributes a value. Products of bags over disjoint attributes do not depend on
the order of the factors, and a selection over the attributes of one factor moves into it.
-/

namespace TidyTuples.Tuples

variable {ι κ V α : Type}

abbrev Tuple (ι V : Type) := ι → Option V

def merge (a b : Tuple ι V) : Tuple ι V := fun i => (a i).or (b i)

/-- Tuples of the bag have no value outside `A`. -/
def Supported (R : Multiset (Tuple ι V)) (A : Set ι) : Prop := ∀ a ∈ R, ∀ i, i ∉ A → a i = none

/-- The predicate only looks at the attributes in `A`. -/
def LocalTo (p : Tuple ι V → Bool) (A : Set ι) : Prop :=
  ∀ a b : Tuple ι V, (∀ i ∈ A, a i = b i) → p a = p b

def prod (R S : Multiset (Tuple ι V)) : Multiset (Tuple ι V) := R.bind fun a => S.map (merge a)

def prodAll : List (Multiset (Tuple ι V)) → Multiset (Tuple ι V)
  | [] => {fun _ => none}
  | R :: rest => prod R (prodAll rest)

lemma merge_assoc (a b c : Tuple ι V) : merge (merge a b) c = merge a (merge b c) := by
  funext i
  exact Option.or_assoc

lemma merge_none (a : Tuple ι V) : merge a (fun _ => none) = a := by
  funext i
  exact Option.or_none

lemma merge_left {a b : Tuple ι V} {i : ι} (h : b i = none) : merge a b i = a i := by
  rw [merge, h, Option.or_none]

lemma merge_right {a b : Tuple ι V} {i : ι} (h : a i = none) : merge a b i = b i := by
  rw [merge, h, Option.none_or]

lemma merge_comm {a b : Tuple ι V} (h : ∀ i, a i = none ∨ b i = none) : merge a b = merge b a := by
  funext i
  rcases h i with hi | hi
  · rw [merge_right hi, merge_left hi]
  · rw [merge_left hi, merge_right hi]

lemma Supported.mono {R : Multiset (Tuple ι V)} {A B : Set ι} (h : Supported R A) (hAB : A ⊆ B) :
    Supported R B := fun a ha i hi => h a ha i fun hA => hi (hAB hA)

lemma Supported.prod {R S : Multiset (Tuple ι V)} {A B : Set ι} (hR : Supported R A)
    (hS : Supported S B) : Supported (Tuples.prod R S) (A ∪ B) := by
  intro t ht i hi
  obtain ⟨a, ha, ht⟩ := Multiset.mem_bind.mp ht
  obtain ⟨b, hb, rfl⟩ := Multiset.mem_map.mp ht
  rw [merge_right (hR a ha i fun h => hi (.inl h)), hS b hb i fun h => hi (.inr h)]

lemma supported_filter {R : Multiset (Tuple ι V)} {A : Set ι} (h : Supported R A)
    (p : Tuple ι V → Bool) : Supported (R.filter fun a => p a) A :=
  fun a ha => h a (Multiset.mem_of_mem_filter ha)

lemma LocalTo.mono {p : Tuple ι V → Bool} {A B : Set ι} (h : LocalTo p A) (hAB : A ⊆ B) :
    LocalTo p B := fun a b hab => h a b fun i hi => hab i (hAB hi)

/-! ### Products -/

lemma prodAll_singleton (R : Multiset (Tuple ι V)) : prodAll [R] = R := by
  simp only [prodAll, prod, Multiset.map_singleton, merge_none]
  exact (Multiset.bind_singleton R id).trans (Multiset.map_id R)

lemma prod_assoc (R S T : Multiset (Tuple ι V)) : prod (prod R S) T = prod R (prod S T) := by
  unfold prod
  rw [Multiset.bind_assoc]
  apply Multiset.bind_congr
  intro a _
  rw [Multiset.bind_map, Multiset.map_bind]
  apply Multiset.bind_congr
  intro b _
  rw [Multiset.map_map]
  exact Multiset.map_congr rfl fun c _ => merge_assoc a b c

lemma prod_comm {R S : Multiset (Tuple ι V)} {A B : Set ι} (hR : Supported R A)
    (hS : Supported S B) (hAB : Disjoint A B) : prod R S = prod S R := by
  unfold prod
  rw [Multiset.bind_map_comm]
  apply Multiset.bind_congr
  intro b hb
  apply Multiset.map_congr rfl
  intro a ha
  apply merge_comm
  intro i
  by_cases hi : i ∈ A
  · exact .inr (hS b hb i (Set.disjoint_left.mp hAB hi))
  · exact .inl (hR a ha i hi)

lemma prod_left_comm {R S : Multiset (Tuple ι V)} {A B : Set ι} (hR : Supported R A)
    (hS : Supported S B) (hAB : Disjoint A B) (T : Multiset (Tuple ι V)) :
    prod R (prod S T) = prod S (prod R T) := by
  rw [← prod_assoc, prod_comm hR hS hAB, prod_assoc]

/-- The order of the factors does not matter. -/
theorem prodAll_perm {xs ys : List α} (h : xs.Perm ys) {bag : α → Multiset (Tuple ι V)}
    {attrs : α → Set ι} (hbag : ∀ x ∈ xs, Supported (bag x) (attrs x))
    (hdisj : xs.Pairwise fun x y => Disjoint (attrs x) (attrs y)) :
    prodAll (xs.map bag) = prodAll (ys.map bag) := by
  induction h with
  | nil => rfl
  | cons x _ ih =>
    simp only [List.map_cons, prodAll]
    rw [ih (fun y hy => hbag y (List.mem_cons_of_mem x hy)) (List.pairwise_cons.mp hdisj).2]
  | swap x y l =>
    simp only [List.map_cons, prodAll]
    have hxy := (List.pairwise_cons.mp hdisj).1 x List.mem_cons_self
    exact prod_left_comm (hbag y (by simp)) (hbag x (by simp)) hxy _
  | trans h₁ h₂ ih₁ ih₂ =>
    rw [ih₁ hbag hdisj]
    apply ih₂
    · exact fun x hx => hbag x (h₁.mem_iff.mpr hx)
    · exact (h₁.pairwise_iff fun h => Disjoint.symm h).mp hdisj

lemma prodAll_supported {xs : List α} {bag : α → Multiset (Tuple ι V)} {attrs : α → Set ι}
    (hbag : ∀ x ∈ xs, Supported (bag x) (attrs x)) :
    Supported (prodAll (xs.map bag)) {i | ∃ x ∈ xs, i ∈ attrs x} := by
  induction xs with
  | nil =>
    intro a ha i _
    rw [Multiset.mem_singleton.mp ha]
  | cons x rest ih =>
    have hrest := ih fun y hy => hbag y (List.mem_cons_of_mem x hy)
    apply ((hbag x List.mem_cons_self).prod hrest).mono
    rintro i (hi | ⟨y, hy, hi⟩)
    · exact ⟨x, List.mem_cons_self, hi⟩
    · exact ⟨y, List.mem_cons_of_mem x hy, hi⟩

/-! ### Selections -/

lemma filter_prod (R S : Multiset (Tuple ι V)) (p : Tuple ι V → Bool) :
    (prod R S).filter (fun t => p t) =
      R.bind fun a => (S.filter fun b => p (merge a b)).map (merge a) := by
  unfold prod
  rw [Multiset.filter_bind]
  apply Multiset.bind_congr
  intro a _
  exact Multiset.filter_map (fun t => p t = true) (merge a) S

lemma filter_prod_left {R S : Multiset (Tuple ι V)} {A B : Set ι} {p : Tuple ι V → Bool}
    (hp : LocalTo p A) (hS : Supported S B) (hAB : Disjoint A B) :
    (prod R S).filter (fun t => p t) = prod (R.filter fun a => p a) S := by
  have hloc : ∀ a, ∀ b ∈ S, p (merge a b) = p a := by
    intro a b hb
    apply hp
    intro i hi
    exact merge_left (hS b hb i (Set.disjoint_left.mp hAB hi))
  rw [filter_prod, prod, Multiset.bind_filter]
  apply Multiset.bind_congr
  intro a _
  rw [Multiset.filter_congr fun b hb => by rw [hloc a b hb]]
  cases p a with
  | true => simp only [if_true, Multiset.filter_true]
  | false => simp only [Bool.false_eq_true, if_false, Multiset.filter_false, Multiset.map_zero]

lemma filter_prod_right {R S : Multiset (Tuple ι V)} {A B : Set ι} {p : Tuple ι V → Bool}
    (hp : LocalTo p B) (hR : Supported R A) (hAB : Disjoint A B) :
    (prod R S).filter (fun t => p t) = prod R (S.filter fun b => p b) := by
  have hloc : ∀ a ∈ R, ∀ b, p (merge a b) = p b := by
    intro a ha b
    apply hp
    intro i hi
    exact merge_right (hR a ha i (Set.disjoint_right.mp hAB hi))
  rw [filter_prod, prod]
  apply Multiset.bind_congr
  intro a ha
  rw [Multiset.filter_congr fun b _ => by rw [hloc a ha b]]

/-- Selections on both sides of a product are one over it. -/
theorem prod_filter {R S : Multiset (Tuple ι V)} {A B : Set ι} {p q : Tuple ι V → Bool}
    (hp : LocalTo p A) (hq : LocalTo q B) (hR : Supported R A) (hS : Supported S B)
    (hAB : Disjoint A B) : prod (R.filter fun a => p a) (S.filter fun b => q b) =
      (prod R S).filter fun t => p t && q t := by
  rw [← filter_prod_left hp (supported_filter hS q) hAB, ← filter_prod_right hq hR hAB,
    Multiset.filter_filter]
  apply Multiset.filter_congr
  intro t _
  rw [Bool.and_eq_true]

/-! ### Renaming the attributes -/

lemma map_prod {f : Tuple ι V → Tuple κ V} (hf : ∀ a b, f (merge a b) = merge (f a) (f b))
    (R S : Multiset (Tuple ι V)) : (prod R S).map f = prod (R.map f) (S.map f) := by
  unfold prod
  rw [Multiset.map_bind, Multiset.bind_map]
  apply Multiset.bind_congr
  intro a _
  rw [Multiset.map_map, Multiset.map_map]
  exact Multiset.map_congr rfl fun b _ => hf a b

lemma map_prodAll {f : Tuple ι V → Tuple κ V} (hf : ∀ a b, f (merge a b) = merge (f a) (f b))
    (hnone : f (fun _ => none) = fun _ => none) (Rs : List (Multiset (Tuple ι V))) :
    (prodAll Rs).map f = prodAll (Rs.map (Multiset.map f)) := by
  induction Rs with
  | nil => simp only [prodAll, Multiset.map_singleton, hnone, List.map_nil]
  | cons R rest ih => rw [prodAll, map_prod hf, ih, List.map_cons, prodAll]

/-! ### Lists of tuples -/

/-- A selection that only depends on the outer element moves into the outer list. -/
lemma flatMap_filter_left {β : Type} {l : List α} {f : α → List β} {p : α → Bool} {q : β → Bool}
    (h : ∀ a ∈ l, ∀ t ∈ f a, q t = p a) : (l.filter p).flatMap f = (l.flatMap f).filter q := by
  induction l with
  | nil => rfl
  | cons a rest ih =>
    have hrest := ih fun b hb => h b (List.mem_cons_of_mem a hb)
    have hhead : ∀ t ∈ f a, q t = p a := h a List.mem_cons_self
    rw [List.flatMap_cons, List.filter_append, ← hrest]
    by_cases hp : p a
    · have hall : (f a).filter q = f a :=
        List.filter_eq_self.mpr fun t ht => (hhead t ht).trans hp
      rw [List.filter_cons_of_pos hp, List.flatMap_cons, hall]
    · have hnone : (f a).filter q = [] :=
        List.filter_eq_nil_iff.mpr fun t ht hq => hp ((hhead t ht).symm.trans hq)
      rw [List.filter_cons_of_neg hp, hnone, List.nil_append]

end TidyTuples.Tuples
