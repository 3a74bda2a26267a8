import Mathlib.Data.BitVec
import Mathlib.Data.Nat.Basic
import Mathlib.Tactic.Common

/-!
# Byte-addressed memory

Every address holds a byte, and a number of `n` bytes has its lowest byte at its address. Addresses
wrap around.
-/

namespace TidyTuples

/-- Memory with addresses of `w` bits. -/
abbrev Memory (w : Nat) := BitVec w → BitVec 8

namespace Memory

variable {w : Nat}

/-- The `n` bytes from `a` on. -/
def load (m : Memory w) : BitVec w → (n : Nat) → BitVec (8 * n)
  | _, 0 => 0#0
  | a, n + 1 => m.load (a + 1) n ++ m a

/-- Byte `k` of a number. -/
def byte {b : Nat} (v : BitVec b) (k : Nat) : BitVec 8 := v.extractLsb' (8 * k) 8

/-- `v` in the `n` bytes from `a` on. -/
def store {b : Nat} (m : Memory w) (a : BitVec w) (n : Nat) (v : BitVec b) : Memory w := fun x =>
  if (x - a).toNat < n then byte v (x - a).toNat else m x

section

variable {m m' : Memory w} {a x : BitVec w} {n k : Nat} {b : Nat}

/-- Numbers with the same bytes are equal. -/
lemma eq_of_byte {v v' : BitVec (8 * n)} (h : ∀ k < n, byte v k = byte v' k) : v = v' := by
  apply BitVec.eq_of_getLsbD_eq
  intro i hi
  have hbyte := congrArg (fun c => BitVec.getLsbD c (i % 8)) (h (i / 8) (by omega))
  have hmod : i % 8 < 8 := Nat.mod_lt _ (by decide)
  have hi' : 8 * (i / 8) + i % 8 = i := Nat.div_add_mod i 8
  simpa only [byte, BitVec.getLsbD_extractLsb', hmod, decide_true, Bool.true_and, hi'] using hbyte

lemma byte_append_low (u : BitVec (8 * n)) (c : BitVec 8) :
    byte (b := 8 * n + 8) (u ++ c) 0 = c := by
  apply BitVec.eq_of_getLsbD_eq
  intro i hi
  rw [byte, BitVec.getLsbD_extractLsb', BitVec.getLsbD_append]
  simp [hi]

lemma byte_append_high (u : BitVec (8 * n)) (c : BitVec 8) (k : Nat) :
    byte (b := 8 * n + 8) (u ++ c) (k + 1) = byte u k := by
  apply BitVec.eq_of_getLsbD_eq
  intro i hi
  rw [byte, byte, BitVec.getLsbD_extractLsb', BitVec.getLsbD_extractLsb', BitVec.getLsbD_append,
    if_neg (by omega)]
  congr 2
  omega

/-- A number that is read consists of the bytes at its address. -/
lemma byte_load (hk : k < n) : byte (m.load a n) k = m (a + BitVec.ofNat w k) := by
  induction n generalizing a k with
  | zero => omega
  | succ n ih =>
    cases k with
    | zero =>
      rw [load, BitVec.ofNat_eq_ofNat, BitVec.add_zero]
      exact byte_append_low _ _
    | succ k =>
      refine (byte_append_high (m.load (a + 1) n) (m a) k).trans ?_
      rw [ih (by omega), BitVec.add_assoc, BitVec.ofNat_add, BitVec.add_comm (BitVec.ofNat w k)]
      rfl

lemma store_apply (v : BitVec b) : m.store a n v x =
    if (x - a).toNat < n then byte v (x - a).toNat else m x := rfl

/-- Numbers of `n` bytes at offsets from `a`, one after the other. -/
def storeAll (m : Memory w) (a : BitVec w) (n : Nat) (ws : List (Nat × BitVec b)) : Memory w :=
  ws.foldl (fun m x => m.store (a + BitVec.ofNat w x.1) n x.2) m

lemma storeAll_cons (x : Nat × BitVec b) (ws : List (Nat × BitVec b)) :
    m.storeAll a n (x :: ws) = (m.store (a + BitVec.ofNat w x.1) n x.2).storeAll a n ws := rfl

lemma storeAll_append (ws ws' : List (Nat × BitVec b)) :
    m.storeAll a n (ws ++ ws') = (m.storeAll a n ws).storeAll a n ws' := List.foldl_append

/-- The bytes at one offset, from another. -/
lemma store_apply_offset (v : BitVec b) {o : Nat} (hk : k < 2 ^ w) (ho : o + n ≤ 2 ^ w) :
    m.store (a + BitVec.ofNat w o) n v (a + BitVec.ofNat w k) =
      if o ≤ k ∧ k < o + n then byte v (k - o) else m (a + BitVec.ofNat w k) := by
  rw [store_apply]
  by_cases hn : n = 0
  · rw [if_neg (by omega), if_neg (by omega)]
  · have hdist : (a + BitVec.ofNat w k - (a + BitVec.ofNat w o)).toNat = (2 ^ w - o + k) % 2 ^ w := by
      rw [add_sub_add_left_eq_sub, BitVec.toNat_sub, BitVec.toNat_ofNat, BitVec.toNat_ofNat,
        Nat.mod_eq_of_lt (show o < 2 ^ w by omega), Nat.mod_eq_of_lt hk]
    rw [hdist]
    by_cases hle : o ≤ k
    · have hwrap : 2 ^ w - o + k = k - o + 2 ^ w := by omega
      rw [hwrap, Nat.add_mod_right, Nat.mod_eq_of_lt (by omega)]
      congr 1
      exact propext (by omega)
    · rw [Nat.mod_eq_of_lt (by omega), if_neg (by omega), if_neg (by omega)]

/-- A byte is that of one of the numbers stored over it, or the one before. -/
lemma storeAll_cases (ws : List (Nat × BitVec b)) (hk : k < 2 ^ w)
    (hws : ∀ x ∈ ws, x.1 + n ≤ 2 ^ w) :
    (m.storeAll a n ws (a + BitVec.ofNat w k) = m (a + BitVec.ofNat w k) ∧
      ∀ x ∈ ws, ¬ (x.1 ≤ k ∧ k < x.1 + n)) ∨
    ∃ x ∈ ws, (x.1 ≤ k ∧ k < x.1 + n) ∧
      m.storeAll a n ws (a + BitVec.ofNat w k) = byte x.2 (k - x.1) := by
  induction ws generalizing m with
  | nil => exact .inl ⟨rfl, fun x hx => (List.not_mem_nil hx).elim⟩
  | cons x rest ih =>
    obtain ⟨hx, hrest⟩ := List.forall_mem_cons.mp hws
    rw [storeAll_cons]
    rcases @ih (m.store (a + BitVec.ofNat w x.1) n x.2) hrest with ⟨hsame, hnone⟩ | ⟨y, hy, hover, hbyte⟩
    · rw [hsame, store_apply_offset x.2 hk hx]
      split_ifs with hover
      · exact .inr ⟨x, List.mem_cons_self, hover, rfl⟩
      · exact .inl ⟨rfl, List.forall_mem_cons.mpr ⟨hover, hnone⟩⟩
    · exact .inr ⟨y, List.mem_cons_of_mem x hy, hover, hbyte⟩

end

end Memory

end TidyTuples
