import Mathlib.Data.List.Basic

/-! Byte-addressed memory: runs of bytes and little-endian fields. -/

namespace Memory

open List

variable {memory : Bytes} {address : Nat} {data : List UInt8}

/-- A memory is total; a bound on the addresses in use is kept beside it. -/
abbrev Bytes := Nat → UInt8

def store (memory : Bytes) (address : Nat) (data : List UInt8) : Bytes := fun index =>
  if address ≤ index ∧ index < address + data.length then data.getD (index - address) 0
  else memory index

def load (memory : Bytes) (address : Nat) : Nat → List UInt8
  | 0 => []
  | count + 1 => memory address :: load memory (address + 1) count

def HoldsAt (memory : Bytes) (address : Nat) (data : List UInt8) : Prop :=
  ∀ index, (bound : index < data.length) → memory (address + index) = data[index]

@[simp] theorem load_length (memory : Bytes) (address count : Nat) : (load memory address count).length = count := by
  induction count generalizing address with
  | zero => rfl
  | succ count ih => simp [load, ih]

theorem load_getElem (memory : Bytes) (address count index : Nat)
    (bound : index < (load memory address count).length) :
    (load memory address count)[index] = memory (address + index) := by
  induction count generalizing address index with
  | zero => simp [load] at bound
  | succ count ih =>
    cases index with
    | zero => simp [load]
    | succ index =>
      simp only [load, getElem_cons_succ]
      rw [ih]
      congr 1
      omega

theorem load_of_holdsAt (holds : HoldsAt memory address data) : load memory address data.length = data := by
  apply ext_getElem
  · simp
  · intro index _ bound
    rw [load_getElem]
    exact holds index bound

theorem load_append (memory : Bytes) (address front back : Nat) :
    load memory address (front + back) = load memory address front ++ load memory (address + front) back := by
  induction front generalizing address with
  | zero => simp [load]
  | succ front ih =>
    rw [Nat.succ_add, load, load, ih, cons_append, Nat.add_right_comm, Nat.add_assoc]

theorem load_congr {other : Bytes} {count : Nat}
    (same : ∀ index, address ≤ index → index < address + count → other index = memory index) :
    load other address count = load memory address count := by
  induction count generalizing address with
  | zero => rfl
  | succ count ih =>
    rw [load, load, same address (Nat.le_refl _) (by omega), ih]
    intro index lower upper
    exact same index (by omega) (by omega)

theorem holdsAt_nil (memory : Bytes) (address : Nat) : HoldsAt memory address [] := by
  intro index bound
  simp at bound

theorem holdsAt_append {front back : List UInt8} : HoldsAt memory address (front ++ back) ↔
      HoldsAt memory address front ∧ HoldsAt memory (address + front.length) back := by
  constructor
  · intro holds
    constructor
    · intro index bound
      have found := holds index (by simp; omega)
      rwa [getElem_append_left bound] at found
    · intro index bound
      have found := holds (front.length + index) (by simp; omega)
      rw [getElem_append_right (by omega)] at found
      simpa [Nat.add_assoc] using found
  · rintro ⟨first, second⟩ index bound
    by_cases early : index < front.length
    · rw [getElem_append_left early]
      exact first index early
    · rw [getElem_append_right (by omega)]
      have found := second (index - front.length) (by simp at bound; omega)
      rw [← found]
      congr 1
      omega

theorem HoldsAt.congr {other : Bytes} (holds : HoldsAt memory address data)
    (same : ∀ index, address ≤ index → index < address + data.length →
      other index = memory index) : HoldsAt other address data := by
  intro index bound
  rw [same (address + index) (by omega) (by omega)]
  exact holds index bound

theorem store_outside {index : Nat} (outside : index < address ∨ address + data.length ≤ index) :
    store memory address data index = memory index := by
  unfold store
  rw [if_neg]
  omega

theorem store_inside {index : Nat}
    (bound : index < data.length) : store memory address data (address + index) = data[index] := by
  unfold store
  rw [if_pos (by omega)]
  simp [getD_eq_getElem?_getD, bound]

theorem holdsAt_store (memory : Bytes) (address : Nat) (data : List UInt8) :
    HoldsAt (store memory address data) address data :=
  fun _ bound => store_inside bound

theorem HoldsAt.store_disjoint {place : Nat} {other : List UInt8} (holds : HoldsAt memory address data)
    (apart : address + data.length ≤ place ∨ place + other.length ≤ address) :
    HoldsAt (store memory place other) address data := by
  apply holds.congr
  intro index lower upper
  apply store_outside
  omega

theorem store_mem_or {memory : Bytes} {address index : Nat} {data : List UInt8} :
    store memory address data index ∈ data ∨ store memory address data index = memory index := by
  by_cases inside : address ≤ index ∧ index < address + data.length
  · left
    have position : index = address + (index - address) := by omega
    rw [position, store_inside (by omega)]
    exact getElem_mem _
  · right
    apply store_outside
    omega

def le16 (value : UInt16) : List UInt8 :=
  [UInt8.ofNat value.toNat, UInt8.ofNat (value.toNat / 256)]

def le32 (value : UInt32) : List UInt8 :=
  [UInt8.ofNat value.toNat, UInt8.ofNat (value.toNat / 256), UInt8.ofNat (value.toNat / 65536),
    UInt8.ofNat (value.toNat / 16777216)]

def read16 (memory : Bytes) (address : Nat) : UInt16 :=
  UInt16.ofNat ((memory address).toNat + 256 * (memory (address + 1)).toNat)

def read32 (memory : Bytes) (address : Nat) : UInt32 :=
  UInt32.ofNat ((memory address).toNat + 256 * (memory (address + 1)).toNat +
    65536 * (memory (address + 2)).toNat + 16777216 * (memory (address + 3)).toNat)

@[simp] theorem le16_length (value : UInt16) : (le16 value).length = 2 := rfl

@[simp] theorem le32_length (value : UInt32) : (le32 value).length = 4 := rfl

theorem read16_le16 {value : UInt16}
    (holds : HoldsAt memory address (le16 value)) : read16 memory address = value := by
  have low : memory address = UInt8.ofNat value.toNat := by
    simpa [le16] using holds 0 (by simp)
  have high : memory (address + 1) = UInt8.ofNat (value.toNat / 256) := by
    simpa [le16] using holds 1 (by simp)
  have bound := value.toNat_lt
  apply UInt16.toNat_inj.mp
  simp only [read16, low, high, UInt16.toNat_ofNat', UInt8.toNat_ofNat']
  omega

theorem read32_le32 {value : UInt32}
    (holds : HoldsAt memory address (le32 value)) : read32 memory address = value := by
  have first : memory address = UInt8.ofNat value.toNat := by
    simpa [le32] using holds 0 (by simp)
  have second : memory (address + 1) = UInt8.ofNat (value.toNat / 256) := by
    simpa [le32] using holds 1 (by simp)
  have third : memory (address + 2) = UInt8.ofNat (value.toNat / 65536) := by
    simpa [le32] using holds 2 (by simp)
  have fourth : memory (address + 3) = UInt8.ofNat (value.toNat / 16777216) := by
    simpa [le32] using holds 3 (by simp)
  have bound := value.toNat_lt
  apply UInt32.toNat_inj.mp
  simp only [read32, first, second, third, fourth, UInt32.toNat_ofNat', UInt8.toNat_ofNat']
  omega

end Memory
