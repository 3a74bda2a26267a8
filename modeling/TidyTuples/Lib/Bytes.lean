import Mathlib.Data.List.Basic
import Mathlib.Tactic.Ring
import Mathlib.Tactic.Common

/-!
# Little-endian numbers in a byte array

A record is a list of fields, each at a distance from the start of the record. What lies between the
fields is padding, and padding may be anything.
-/

namespace TidyTuples.Bytes

/-- The number in `n` bytes from `off` on, the lowest byte first. -/
def value (data : List UInt8) : Nat → Nat → Nat
  | _, 0 => 0
  | off, n + 1 => (data.getD off 0).toNat + 256 * value data (off + 1) n

/-- A read of bytes that exist. -/
def load (data : List UInt8) (off n : Nat) : Option Nat :=
  if off + n ≤ data.length then some (value data off n) else none

/-- `v` in `n` bytes from `off` on; what lies behind the array is lost. -/
def store (data : List UInt8) (off n v : Nat) : List UInt8 :=
  data.mapIdx fun a b => if off ≤ a ∧ a < off + n then UInt8.ofNat (v / 256 ^ (a - off)) else b

/-- The fields of a record: their distance, their width and their value. -/
structure Field where
  distance : Nat
  width : Nat
  value : Nat
deriving DecidableEq, Repr

/-- The record at `off`, of which the first `size` bytes are `pad` where there is no field. -/
def storeFields (data : List UInt8) (off : Nat) (fields : List Field) : List UInt8 :=
  fields.foldl (fun data field => store data (off + field.distance) field.width field.value) data

/-- `size` more bytes, filled with `pad`. -/
def grow (pad : Nat → UInt8) (data : List UInt8) (size : Nat) : List UInt8 :=
  data ++ (List.range size).map fun k => pad (data.length + k)

/-- Append a record. -/
def append (pad : Nat → UInt8) (data : List UInt8) (size : Nat) (fields : List Field) : List UInt8 :=
  storeFields (grow pad data size) data.length fields

/-- The fields lie behind each other, from `lo` to `hi`. -/
def Packed : List Field → Nat → Nat → Prop
  | [], lo, hi => lo ≤ hi
  | field :: fields, lo, hi =>
    lo ≤ field.distance ∧ Packed fields (field.distance + field.width) hi

/-- Every field has its value. -/
def Holds (data : List UInt8) (off : Nat) (fields : List Field) : Prop :=
  ∀ field ∈ fields,
    load data (off + field.distance) field.width = some (field.value % 256 ^ field.width)

variable {data data' : List UInt8} {off n : Nat}

/-! ### One number -/

lemma value_congr (h : ∀ a, off ≤ a → a < off + n → data'.getD a 0 = data.getD a 0) :
    value data' off n = value data off n := by
  induction n generalizing off with
  | zero => rfl
  | succ n ih =>
    rw [value, value, h off (Nat.le_refl _) (by omega),
      ih fun a ha ha' => h a (by omega) (by omega)]

/-- A number is the sum of its digits. -/
lemma value_eq_mod {v : Nat} (h : ∀ k < n, (data.getD (off + k) 0).toNat = v / 256 ^ k % 256) :
    value data off n = v % 256 ^ n := by
  induction n generalizing off v with
  | zero => rw [value, pow_zero, Nat.mod_one]
  | succ n ih =>
    have hrest : value data (off + 1) n = v / 256 % 256 ^ n := by
      apply ih
      intro k hk
      have hdigit := h (k + 1) (by omega)
      rw [Nat.div_div_eq_div_mul, ← pow_succ']
      rw [← hdigit]
      congr 2
      omega
    have hfirst := h 0 (by omega)
    rw [pow_zero, Nat.div_one, Nat.add_zero] at hfirst
    rw [value, hrest, hfirst, pow_succ', Nat.mod_mul]

@[simp] lemma length_store (data : List UInt8) (off n v : Nat) :
    (store data off n v).length = data.length := by
  rw [store, List.length_mapIdx]

lemma getD_store {v a : Nat} (ha : a < data.length) : (store data off n v).getD a 0 =
    if off ≤ a ∧ a < off + n then UInt8.ofNat (v / 256 ^ (a - off)) else data.getD a 0 := by
  unfold store
  simp only [List.getD_eq_getElem?_getD, List.getElem?_mapIdx, List.getElem?_eq_getElem ha,
    Option.map_some, Option.getD_some]

lemma getD_store_of_disjoint {v a : Nat} (h : a < off ∨ off + n ≤ a) :
    (store data off n v).getD a 0 = data.getD a 0 := by
  by_cases ha : a < data.length
  · rw [getD_store ha, if_neg (by omega)]
  · rw [List.getD_eq_getElem?_getD, List.getD_eq_getElem?_getD,
      List.getElem?_eq_none (by rw [length_store]; omega), List.getElem?_eq_none (by omega)]

lemma load_congr (hlen : off + n ≤ data.length → off + n ≤ data'.length)
    (h : ∀ a, off ≤ a → a < off + n → data'.getD a 0 = data.getD a 0) {v : Nat}
    (hv : load data off n = some v) : load data' off n = some v := by
  unfold load at hv ⊢
  split_ifs at hv with hin
  rw [if_pos (hlen hin), value_congr h]
  exact hv

/-- What is stored is read back, modulo the width. -/
lemma load_store {v : Nat} (h : off + n ≤ data.length) :
    load (store data off n v) off n = some (v % 256 ^ n) := by
  rw [load, if_pos (by rw [length_store]; exact h)]
  congr 1
  apply value_eq_mod
  intro k hk
  rw [getD_store (by omega), if_pos (by omega), Nat.add_sub_cancel_left, UInt8.toNat_ofNat']

/-! ### Records -/

lemma Packed.le {fields : List Field} {lo hi : Nat} (h : Packed fields lo hi) : lo ≤ hi := by
  induction fields generalizing lo with
  | nil => exact h
  | cons field fields ih =>
    have hrest := ih h.2
    have hlo := h.1
    omega

lemma Packed.mem {fields : List Field} {lo hi : Nat} (h : Packed fields lo hi) {field : Field}
    (hf : field ∈ fields) : lo ≤ field.distance ∧ field.distance + field.width ≤ hi := by
  induction fields generalizing lo with
  | nil => cases hf
  | cons first fields ih =>
    rcases List.mem_cons.mp hf with rfl | hf
    · exact ⟨h.1, h.2.le⟩
    · have hrest := ih h.2 hf
      have hlo := h.1
      exact ⟨by omega, hrest.2⟩

@[simp] lemma length_storeFields (data : List UInt8) (off : Nat) (fields : List Field) :
    (storeFields data off fields).length = data.length := by
  induction fields generalizing data with
  | nil => rfl
  | cons field fields ih =>
    rw [storeFields, List.foldl_cons]
    exact (ih _).trans (length_store _ _ _ _)

/-- A record changes its own bytes only. -/
lemma getD_storeFields_of_outside {fields : List Field} {lo hi a : Nat} (h : Packed fields lo hi)
    (ha : a < off + lo ∨ off + hi ≤ a) :
    (storeFields data off fields).getD a 0 = data.getD a 0 := by
  induction fields generalizing data lo with
  | nil => rfl
  | cons field fields ih =>
    have hlo := h.1
    have hhi := h.2.le
    rw [storeFields, List.foldl_cons]
    refine (ih h.2 (by omega)).trans ?_
    exact getD_store_of_disjoint (by omega)

lemma storeFields_holds {fields : List Field} {lo hi : Nat} (h : Packed fields lo hi)
    (hin : off + hi ≤ data.length) : Holds (storeFields data off fields) off fields := by
  induction fields generalizing data lo with
  | nil => exact fun _ hf => absurd hf List.not_mem_nil
  | cons field fields ih =>
    have hhi := h.2.le
    intro f hf
    rw [storeFields, List.foldl_cons]
    rcases List.mem_cons.mp hf with rfl | hf
    · -- the later fields lie behind this one
      have hown : load (store data (off + f.distance) f.width f.value) (off + f.distance) f.width =
          some (f.value % 256 ^ f.width) := load_store (by omega)
      refine load_congr ?_ ?_ hown
      · intro hle
        change _ ≤ (storeFields _ off fields).length
        rw [length_storeFields]
        exact hle
      · intro a _ ha
        exact getD_storeFields_of_outside h.2 (by omega)
    · exact ih h.2 (by rw [length_store]; exact hin) f hf

/-- A record stays where its bytes stay. -/
lemma Holds.congr {fields : List Field} {size : Nat} (h : Holds data off fields)
    (hpacked : Packed fields 0 size) (hin : off + size ≤ data'.length)
    (hsame : ∀ a, off ≤ a → a < off + size → data'.getD a 0 = data.getD a 0) :
    Holds data' off fields := by
  intro field hf
  obtain ⟨-, hle⟩ := hpacked.mem hf
  exact load_congr (fun _ => by omega) (fun a ha ha' => hsame a (by omega) (by omega)) (h field hf)

/-- Some fields of a record are stored anew, the others lie beside them. -/
lemma Holds.patch {fields fields' new : List Field} {lo hi : Nat} (h : Holds data off fields)
    (hnew : Packed new lo hi) (hin : off + hi ≤ data.length)
    (hcases : ∀ field ∈ fields', field ∈ new ∨
      field ∈ fields ∧ (field.distance + field.width ≤ lo ∨ hi ≤ field.distance)) :
    Holds (storeFields data off new) off fields' := by
  intro field hf
  rcases hcases field hf with hmem | ⟨hmem, hbeside⟩
  · exact storeFields_holds hnew hin field hmem
  · refine load_congr (fun hle => ?_) (fun a ha ha' => ?_) (h field hmem)
    · rw [length_storeFields]
      exact hle
    · exact getD_storeFields_of_outside hnew (by omega)

/-! ### Appending -/

section

variable (pad : Nat → UInt8) (data : List UInt8) (size : Nat) (fields : List Field)

@[simp] lemma length_grow : (grow pad data size).length = data.length + size := by
  rw [grow, List.length_append, List.length_map, List.length_range]

@[simp] lemma length_append : (append pad data size fields).length = data.length + size := by
  rw [append, length_storeFields, length_grow]

lemma getD_append_old (h : Packed fields 0 size) {a : Nat} (ha : a < data.length) :
    (append pad data size fields).getD a 0 = data.getD a 0 := by
  rw [append, getD_storeFields_of_outside h (.inl (by omega)), grow,
    List.getD_eq_getElem?_getD, List.getElem?_append_left ha, ← List.getD_eq_getElem?_getD]

/-- An appended record holds its fields. -/
lemma append_holds (h : Packed fields 0 size) :
    Holds (append pad data size fields) data.length fields :=
  storeFields_holds h (by rw [length_grow])

/-- Appending leaves the records before alone. -/
lemma Holds.append {data : List UInt8} {off : Nat} {fields' : List Field} {size' : Nat}
    (h : Holds data off fields') (hpacked' : Packed fields' 0 size')
    (hin : off + size' ≤ data.length) (hpacked : Packed fields 0 size) :
    Holds (Bytes.append pad data size fields) off fields' := by
  apply h.congr hpacked' (by rw [length_append]; omega)
  intro a _ ha
  exact getD_append_old pad data size fields hpacked (by omega)

end

end TidyTuples.Bytes
