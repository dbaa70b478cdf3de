import Mathlib.Data.List.Basic
import Mathlib.Tactic.Ring
import Mathlib.Tactic.Linarith

/-! Zero-padded decimal text: its value and its order. -/

namespace Decimal

open List

def fixedDigits : Nat → Nat → List UInt8
  | 0, _ => []
  | width + 1, value => UInt8.ofNat (48 + value / 10 ^ width % 10) :: fixedDigits width value

def digitCount : Nat → Nat → Nat
  | 0, _ => 1
  | fuel + 1, value => if value < 10 then 1 else digitCount fuel (value / 10) + 1

/-- What `%0<width>u` prints for a 64-bit number. -/
def padded (width value : Nat) : List UInt8 := fixedDigits (max width (digitCount 20 value)) value

def numeral (value : Nat) : List UInt8 := fixedDigits (digitCount value value) value

def valueFrom (accumulator : Nat) (digits : List UInt8) : Nat :=
  digits.foldl (fun total digit => total * 10 + (digit.toNat - 48)) accumulator

@[simp] theorem fixedDigits_length (width value : Nat) : (fixedDigits width value).length = width := by
  induction width with
  | zero => rfl
  | succ width ih => simp [fixedDigits, ih]

theorem digit_toNat (value : Nat) : (UInt8.ofNat (48 + value % 10)).toNat = 48 + value % 10 := by
  simp only [UInt8.toNat_ofNat']
  omega

theorem fixedDigits_digit {width value : Nat} {digit : UInt8}
    (member : digit ∈ fixedDigits width value) : 48 ≤ digit.toNat ∧ digit.toNat ≤ 57 := by
  induction width with
  | zero => simp [fixedDigits] at member
  | succ width ih =>
    simp only [fixedDigits, mem_cons] at member
    rcases member with rfl | later
    · rw [digit_toNat]
      omega
    · exact ih later

theorem valueFrom_fixedDigits (accumulator width value : Nat) : valueFrom accumulator (fixedDigits width value) =
      accumulator * 10 ^ width + value % 10 ^ width := by
  induction width generalizing accumulator with
  | zero => simp [fixedDigits, valueFrom, Nat.mod_one]
  | succ width ih =>
    have tail := ih (accumulator * 10 + value / 10 ^ width % 10)
    simp only [valueFrom] at tail
    simp only [fixedDigits, valueFrom, foldl_cons, digit_toNat, Nat.add_sub_cancel_left]
    rw [tail, Nat.mod_pow_succ]
    ring

theorem valueFrom_zeros (count : Nat) (text : List UInt8) :
    valueFrom 0 (List.replicate count 48 ++ text) = valueFrom 0 text := by
  induction count with
  | zero => rfl
  | succ count ih => rw [replicate_succ, cons_append, valueFrom, foldl_cons]; exact ih

theorem valueFrom_replicate (count : Nat) : valueFrom 0 (List.replicate count 48) = 0 := by
  have zeros := valueFrom_zeros count []
  rwa [append_nil] at zeros

theorem valueFrom_lt {accumulator : Nat} {text : List UInt8} (digit : ∀ char ∈ text, char.toNat ≤ 57) :
    valueFrom accumulator text < (accumulator + 1) * 10 ^ text.length := by
  induction text generalizing accumulator with
  | nil => simp [valueFrom]
  | cons char text ih =>
    obtain ⟨first, rest⟩ := forall_mem_cons.mp digit
    have tail := @ih (accumulator * 10 + (char.toNat - 48)) rest
    calc valueFrom accumulator (char :: text)
        = valueFrom (accumulator * 10 + (char.toNat - 48)) text := rfl
      _ < (accumulator * 10 + (char.toNat - 48) + 1) * 10 ^ text.length := tail
      _ ≤ (accumulator + 1) * 10 * 10 ^ text.length := Nat.mul_le_mul_right _ (by omega)
      _ = (accumulator + 1) * 10 ^ (char :: text).length := by rw [length_cons, Nat.pow_succ]; ring

theorem le_valueFrom (total : Nat) (digits : List UInt8) : total ≤ valueFrom total digits := by
  induction digits generalizing total with
  | nil => exact Nat.le_refl _
  | cons digit digits ih =>
    have := ih (total * 10 + (digit.toNat - 48))
    simp only [valueFrom, foldl_cons] at this ⊢
    omega

theorem lead_digit_lt {low high place left right : Nat} (leftBound : left < place) (rightBound : right < place) :
    left + place * low < right + place * high ↔ low < high ∨ low = high ∧ left < right := by
  constructor
  · intro less
    rcases Nat.lt_trichotomy low high with smaller | same | larger
    · exact Or.inl smaller
    · subst same
      exact Or.inr ⟨rfl, by omega⟩
    · have jump : place * high + place ≤ place * low := by
        calc place * high + place = place * (high + 1) := by ring
          _ ≤ place * low := Nat.mul_le_mul_left place larger
      omega
  · rintro (smaller | ⟨rfl, less⟩)
    · have jump : place * low + place ≤ place * high := by
        calc place * low + place = place * (low + 1) := by ring
          _ ≤ place * high := Nat.mul_le_mul_left place smaller
      omega
    · omega

theorem fixedDigits_lt (width left right : Nat) : fixedDigits width left < fixedDigits width right ↔
      left % 10 ^ width < right % 10 ^ width := by
  induction width with
  | zero => simp [fixedDigits, Nat.mod_one]
  | succ width ih =>
    have place : 0 < 10 ^ width := Nat.pow_pos (by omega)
    rw [Nat.mod_pow_succ, Nat.mod_pow_succ,
      lead_digit_lt (Nat.mod_lt _ place) (Nat.mod_lt _ place)]
    simp only [fixedDigits, cons_lt_cons_iff, ih, UInt8.lt_iff_toNat_lt,
      ← UInt8.toNat_inj, digit_toNat]
    omega

theorem fixedDigits_injective {width left right : Nat} (leftBound : left < 10 ^ width)
    (rightBound : right < 10 ^ width) (same : fixedDigits width left = fixedDigits width right) : left = right := by
  have leftValue := valueFrom_fixedDigits 0 width left
  have rightValue := valueFrom_fixedDigits 0 width right
  rw [same, rightValue, Nat.mod_eq_of_lt leftBound, Nat.mod_eq_of_lt rightBound] at leftValue
  omega

theorem digitCount_bound {fuel value : Nat} (bound : value < 10 ^ (fuel + 1)) :
    value < 10 ^ digitCount fuel value := by
  induction fuel generalizing value with
  | zero => simpa [digitCount] using bound
  | succ fuel ih =>
    rw [digitCount]
    split
    · simpa using ‹value < 10›
    · have shorter := @ih (value / 10) (by rw [Nat.pow_succ] at bound; omega)
      rw [Nat.pow_succ]
      omega

theorem digitCount_le {fuel width value : Nat} (positive : 0 < width)
    (bound : value < 10 ^ width) : digitCount fuel value ≤ width := by
  induction fuel generalizing width value with
  | zero => exact positive
  | succ fuel ih =>
    rw [digitCount]
    split
    · exact positive
    · cases width with
      | zero => omega
      | succ width =>
        rw [Nat.pow_succ] at bound
        have wide : 0 < width := by
          rcases Nat.eq_zero_or_pos width with zero | positive
          · subst zero
            omega
          · exact positive
        have shorter := @ih _ (value / 10) wide (by omega)
        omega

theorem padded_of_fits {width value : Nat} (positive : 0 < width) (fits : value < 10 ^ width) :
    padded width value = fixedDigits width value := by
  rw [padded, Nat.max_eq_left (digitCount_le positive fits)]

theorem digitCount_pos (fuel value : Nat) : 0 < digitCount fuel value := by
  cases fuel with
  | zero => exact Nat.one_pos
  | succ fuel =>
    rw [digitCount]
    split <;> omega

theorem digitCount_eq_one_iff (value : Nat) : digitCount value value = 1 ↔ value < 10 := by
  cases value with
  | zero => simp [digitCount]
  | succ less =>
    have positive := digitCount_pos less ((less + 1) / 10)
    rw [digitCount]
    split <;> omega

theorem numeral_digit {value : Nat} {digit : UInt8} (member : digit ∈ numeral value) :
    48 ≤ digit.toNat ∧ digit.toNat ≤ 57 := fixedDigits_digit member

@[simp] theorem valueFrom_numeral (value : Nat) : valueFrom 0 (numeral value) = value := by
  have bound : value < 10 ^ digitCount value value :=
    digitCount_bound (lt_trans (Nat.lt_pow_self (by omega)) (Nat.pow_lt_pow_right (by omega) (Nat.lt_succ_self value)))
  rw [numeral, valueFrom_fixedDigits, Nat.mod_eq_of_lt bound]
  simp

theorem numeral_length_pos (value : Nat) : 0 < (numeral value).length := by
  rw [numeral, fixedDigits_length]
  exact digitCount_pos value value

theorem numeral_length_le {width value : Nat} (positive : 0 < width) (bound : value < 10 ^ width) :
    (numeral value).length ≤ width := by
  rw [numeral, fixedDigits_length]
  exact digitCount_le positive bound

theorem numeral_length_eq_one_iff (value : Nat) : (numeral value).length = 1 ↔ value < 10 := by
  rw [numeral, fixedDigits_length, digitCount_eq_one_iff]

end Decimal
