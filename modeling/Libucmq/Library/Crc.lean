import Mathlib.Algebra.Polynomial.Div
import Mathlib.Algebra.CharP.Two
import Mathlib.RingTheory.Coprime.Lemmas
import Mathlib.Tactic.LinearCombination

/-! Cyclic redundancy checks by a reflected shift register. -/

namespace Crc

open List Function

variable {width : Nat}

def advance (generator register : BitVec width) : BitVec width :=
  if register.getLsbD 0 then (register >>> 1) ^^^ generator else register >>> 1

def feed (generator register : BitVec width) (bit : Bool) : BitVec width :=
  advance generator (register ^^^ (BitVec.ofBool bit).setWidth width)

def remainder (generator register : BitVec width) (bits : List Bool) : BitVec width :=
  bits.foldl (feed generator) register

def ofBits (width : Nat) : List Bool → BitVec width
  | [] => 0
  | bit :: rest => (BitVec.ofBool bit).setWidth width ^^^ ofBits width rest <<< 1

theorem remainder_append (generator register : BitVec width) (front back : List Bool) :
    remainder generator register (front ++ back) =
      remainder generator (remainder generator register front) back := foldl_append

theorem advance_xor (generator left right : BitVec width) :
    advance generator (left ^^^ right) = advance generator left ^^^ advance generator right := by
  simp only [advance, BitVec.getLsbD_xor, BitVec.ushiftRight_xor_distrib]
  cases left.getLsbD 0 <;> cases right.getLsbD 0 <;> simp only [Bool.xor_false, Bool.xor_true,
    Bool.not_false, Bool.not_true, Bool.false_eq_true, ↓reduceIte]
  · rw [BitVec.xor_assoc]
  · rw [BitVec.xor_assoc, BitVec.xor_comm (right >>> 1), ← BitVec.xor_assoc]
  · rw [BitVec.xor_assoc, BitVec.xor_comm generator, BitVec.xor_assoc, BitVec.xor_self, BitVec.xor_zero]

theorem advance_iterate_xor (generator left right : BitVec width) (count : Nat) :
    (advance generator)^[count] (left ^^^ right) =
      (advance generator)^[count] left ^^^ (advance generator)^[count] right := by
  induction count generalizing left right with
  | zero => rfl
  | succ count ih => rw [iterate_succ_apply, iterate_succ_apply,
      iterate_succ_apply, advance_xor, ih]

theorem advance_shiftLeft (generator register : BitVec width) (clear : register.getLsbD (width - 1) = false) :
    advance generator (register <<< 1) = register := by
  have low : (register <<< 1).getLsbD 0 = false := by simp
  rw [advance, low, if_neg Bool.false_ne_true]
  apply BitVec.eq_of_getLsbD_eq
  intro place inside
  rw [BitVec.getLsbD_ushiftRight, BitVec.getLsbD_shiftLeft]
  by_cases top : place = width - 1
  · subst top
    simp [clear]
  · simp [show 1 + place < width by omega]

theorem advance_iterate_shiftLeft (generator register : BitVec width) (count : Nat)
    (clear : ∀ place, width - count ≤ place → register.getLsbD place = false) :
    (advance generator)^[count] (register <<< count) = register := by
  induction count generalizing register with
  | zero => simp
  | succ count ih =>
    rw [iterate_succ_apply', Nat.add_comm, BitVec.shiftLeft_add, ih]
    · exact advance_shiftLeft generator register (clear _ (by omega))
    · intro place late
      rw [BitVec.getLsbD_shiftLeft]
      by_cases zero : place < 1
      · simp [zero]
      · simp [clear (place - 1) (by omega)]

theorem ofBits_getLsbD (bits : List Bool) (place : Nat) :
    (ofBits width bits).getLsbD place = (decide (place < width) && bits.getD place false) := by
  induction bits generalizing place with
  | nil => simp [ofBits]
  | cons bit rest ih =>
    rw [ofBits, BitVec.getLsbD_xor, BitVec.getLsbD_shiftLeft, ih]
    cases place with
    | zero => simp
    | succ place =>
      by_cases inside : place + 1 < width
      · simp [inside, show place < width by omega]
      · simp [inside]

theorem remainder_eq_advance (generator register : BitVec width) {bits : List Bool} (fits : bits.length ≤ width) :
    remainder generator register bits = (advance generator)^[bits.length] (register ^^^ ofBits width bits) := by
  induction bits generalizing register with
  | nil => simp [remainder, ofBits]
  | cons bit rest ih =>
    have short : rest.length + 1 ≤ width := fits
    -- the highest place is free, so that no bit is lost when the rest moves up
    have clear : (ofBits width rest).getLsbD (width - 1) = false := by
      rw [ofBits_getLsbD, List.getD, List.getElem?_eq_none (by omega), Option.getD_none, Bool.and_false]
    have moved := ih (feed generator register bit) (by omega)
    calc remainder generator register (bit :: rest)
      _ = remainder generator (feed generator register bit) rest := rfl
      _ = (advance generator)^[rest.length] (feed generator register bit ^^^ ofBits width rest) := moved
      _ = (advance generator)^[rest.length] (advance generator (register ^^^ ofBits width (bit :: rest))) := by
          rw [ofBits, ← BitVec.xor_assoc, advance_xor, advance_shiftLeft _ _ clear, feed]
      _ = (advance generator)^[rest.length + 1] (register ^^^ ofBits width (bit :: rest)) :=
          (iterate_succ_apply _ _ _).symm

variable {generator : BitVec width} {left right : List Bool}

section

variable (constant : generator.getLsbD (width - 1) = true)

include constant

theorem advance_injective : Function.Injective (advance generator) := by
  intro left right same
  have zero : advance generator (left ^^^ right) = BitVec.ofNat width 0 := by
    rw [advance_xor, same, BitVec.xor_self]
  rw [← BitVec.xor_eq_zero_iff]
  generalize left ^^^ right = register at zero
  have low : register.getLsbD 0 = false := by
    by_contra one
    rw [Bool.not_eq_false] at one
    rw [advance, if_pos one] at zero
    have top := congrArg (BitVec.getLsbD · (width - 1)) zero
    have positive : 0 < width := by
      by_contra absent
      obtain rfl : width = 0 := by omega
      simp at constant
    rw [BitVec.getLsbD_xor, BitVec.getLsbD_ushiftRight, BitVec.getLsbD_of_ge _ _ (by omega), constant] at top
    simp at top
  rw [advance, low, if_neg Bool.false_ne_true] at zero
  apply BitVec.eq_of_getLsbD_eq
  intro place inside
  cases place with
  | zero => simpa using low
  | succ place =>
    have bit := congrArg (BitVec.getLsbD · place) zero
    simpa [Nat.add_comm] using bit

theorem advance_iterate_injective (count : Nat) : Function.Injective (advance generator)^[count] :=
  (advance_injective constant).iterate count

theorem remainder_injective (bits : List Bool) :
    Function.Injective fun register => remainder generator register bits := by
  induction bits with
  | nil => exact Function.injective_id
  | cons bit rest ih =>
    intro left right same
    have fed := advance_injective constant (ih same)
    exact (BitVec.xor_left_inj _).mp fed

theorem remainder_piece_ne (register : BitVec width) (front back : List Bool)
    (length : left.length = right.length) (fits : left.length ≤ width) (differ : left ≠ right) :
    remainder generator register (front ++ left ++ back) ≠ remainder generator register (front ++ right ++ back) := by
  intro same
  rw [remainder_append, remainder_append, remainder_append, remainder_append] at same
  have pieces := remainder_injective constant back same
  generalize remainder generator register front = start at pieces
  rw [remainder_eq_advance _ _ fits, remainder_eq_advance _ _ (length ▸ fits), length] at pieces
  have words := (BitVec.xor_right_inj _).mp (advance_iterate_injective constant _ pieces)
  apply differ
  apply ext_getElem length
  intro place insideLeft insideRight
  have bit : (ofBits width left).getLsbD place = (ofBits width right).getLsbD place := by rw [words]
  rw [ofBits_getLsbD, ofBits_getLsbD, decide_eq_true (by omega), Bool.true_and, Bool.true_and] at bit
  simpa [insideLeft, insideRight] using bit

end

/-- The bits that differ are among the `count` bits from `start` on. -/
def Within (count start : Nat) (left right : List Bool) : Prop :=
  ∀ place, left[place]? ≠ right[place]? → start ≤ place ∧ place < start + count

theorem remainder_burst_ne (constant : generator.getLsbD (width - 1) = true)
    (register : BitVec width) (length : left.length = right.length)
    (differ : left ≠ right) {start : Nat} (within : Within width start left right) :
    remainder generator register left ≠ remainder generator register right := by
  have front : left.take start = right.take start := by
    apply ext_getElem?
    intro place
    rw [List.getElem?_take, List.getElem?_take]
    split
    · by_contra other
      have := within place other
      omega
    · rfl
  have back : left.drop (start + width) = right.drop (start + width) := by
    apply ext_getElem?
    intro place
    rw [List.getElem?_drop, List.getElem?_drop]
    by_contra other
    have := within _ other
    omega
  have split : ∀ bits : List Bool,
      bits = bits.take start ++ (bits.drop start).take width ++ bits.drop (start + width) := by
    intro bits
    rw [append_assoc, ← drop_drop, take_append_drop, take_append_drop]
  rw [split left, split right, front, back]
  refine remainder_piece_ne constant register _ _ ?_ ?_ ?_
  · simp [length]
  · simp
  · intro same
    apply differ
    rw [split left, split right, front, back, same]

def byteBits (byte : UInt8) : List Bool := (List.range 8).map byte.toBitVec.getLsbD

def bitsOf (data : List UInt8) : List Bool := data.flatMap byteBits

@[simp] theorem byteBits_length (byte : UInt8) : (byteBits byte).length = 8 := by simp [byteBits]

@[simp] theorem bitsOf_length (data : List UInt8) : (bitsOf data).length = data.length * 8 := by
  simp [bitsOf, length_flatMap]

theorem byteBits_injective : Function.Injective byteBits := by
  intro left right same
  apply UInt8.toBitVec_inj.mp
  apply BitVec.eq_of_getLsbD_eq
  intro place inside
  exact (map_inj_left.mp same) place (mem_range.mpr inside)

theorem bitsOf_injective : Function.Injective bitsOf := by
  intro left right same
  induction left generalizing right with
  | nil =>
    have length := congrArg List.length same
    rw [bitsOf_length, bitsOf_length, length_nil] at length
    exact (eq_nil_of_length_eq_zero (by omega)).symm
  | cons byte rest ih =>
    cases right with
    | nil =>
      have length := congrArg List.length same
      simp at length
    | cons other more =>
      rw [bitsOf, bitsOf, flatMap_cons, flatMap_cons] at same
      obtain ⟨first, later⟩ := append_inj same (by simp)
      rw [byteBits_injective first, ih later]

theorem remainder_byte (generator register : BitVec width) (fits : 8 ≤ width) (byte : UInt8) :
    remainder generator register (byteBits byte) =
      (advance generator)^[8] (register ^^^ byte.toBitVec.setWidth width) := by
  have word : ofBits width (byteBits byte) = byte.toBitVec.setWidth width := by
    apply BitVec.eq_of_getLsbD_eq
    intro place inside
    rw [ofBits_getLsbD, BitVec.getLsbD_setWidth]
    by_cases low : place < 8
    · simp [byteBits, inside, low]
    · simp [byteBits, low, BitVec.getLsbD_of_ge _ _ (Nat.le_of_not_lt low)]
  rw [remainder_eq_advance _ _ (by simpa using fits), byteBits_length, word]

/-- The number of places in which two messages differ. -/
def flips (left right : List Bool) : Nat := (left.zip right).countP fun bits => bits.1 != bits.2

theorem count_flips (length : left.length = right.length) :
    (left.count true + right.count true) % 2 = flips left right % 2 := by
  induction left generalizing right with
  | nil =>
    obtain rfl := eq_nil_of_length_eq_zero length.symm
    rfl
  | cons bit rest ih =>
    obtain _ | ⟨other, more⟩ := right
    · cases length
    · have later := ih (Nat.succ.inj length)
      have split : flips (bit :: rest) (other :: more) = flips rest more + if bit != other then 1 else 0 := countP_cons
      rw [split, count_cons, count_cons]
      cases bit <;> cases other <;> simp <;> omega

section

open Polynomial

variable (R : Type*) [CommRing R]

/-- The polynomial of a register, the highest power in the lowest place. -/
noncomputable def polynomial (register : BitVec width) : R[X] :=
  ∑ place ∈ Finset.range width, if register.getLsbD place then X ^ (width - 1 - place) else 0

noncomputable def divisor (generator : BitVec width) : R[X] := X ^ width + polynomial R generator

/-- The polynomial of a message, the highest power first. -/
noncomputable def message : List Bool → R[X]
  | [] => 0
  | bit :: rest => (if bit then X ^ rest.length else 0) + message rest

theorem polynomial_degree_lt (register : BitVec width) : (polynomial R register).degree < width := by
  refine (degree_sum_le _ _).trans_lt ((Finset.sup_lt_iff (WithBot.bot_lt_coe width)).mpr fun place member => ?_)
  have inside := Finset.mem_range.mp member
  have below : width - 1 - place < width := by omega
  split
  · exact (degree_X_pow_le _).trans_lt (WithBot.coe_lt_coe.mpr below)
  · rw [degree_zero]
    exact WithBot.bot_lt_coe width

theorem divisor_monic (generator : BitVec width) : (divisor R generator).Monic :=
  monic_X_pow_add (polynomial_degree_lt R generator)

theorem polynomial_bit (bit : Bool) (positive : 0 < width) :
    polynomial R ((BitVec.ofBool bit).setWidth width) = if bit then X ^ (width - 1) else 0 := by
  rw [polynomial, Finset.sum_eq_single_of_mem 0 (Finset.mem_range.mpr positive)]
  · cases bit <;> simp [positive]
  · intro place member other
    simp [BitVec.getLsbD_ofBool, other]

theorem polynomial_shiftRight (register : BitVec width) : X * polynomial R register =
      polynomial R (register >>> 1) + if register.getLsbD 0 then X ^ width else 0 := by
  cases width with
  | zero => simp [polynomial]
  | succ last =>
    rw [polynomial, polynomial, Finset.sum_range_succ', Finset.sum_range_succ, mul_add, Finset.mul_sum]
    have outside : (register >>> 1).getLsbD last = false := by
      rw [BitVec.getLsbD_ushiftRight, BitVec.getLsbD_of_ge _ _ (by omega)]
    have first : (X : R[X]) * (if register.getLsbD 0 then X ^ (last + 1 - 1 - 0) else 0) =
        if register.getLsbD 0 then X ^ (last + 1) else 0 := by
      rw [mul_ite, mul_zero, ← pow_succ', Nat.add_sub_cancel, Nat.sub_zero]
    rw [outside, if_neg Bool.false_ne_true, add_zero, first]
    congr 1
    refine Finset.sum_congr rfl fun place member => ?_
    have inside := Finset.mem_range.mp member
    rw [BitVec.getLsbD_ushiftRight, Nat.add_comm 1 place, mul_ite, mul_zero, ← pow_succ']
    rw [show last + 1 - 1 - (place + 1) + 1 = last + 1 - 1 - place by omega]

theorem polynomial_coeff (register : BitVec width) {place : Nat} (inside : place < width) :
    (polynomial R register).coeff (width - 1 - place) = if register.getLsbD place then 1 else 0 := by
  rw [polynomial, finsetSum_coeff, Finset.sum_eq_single_of_mem place (Finset.mem_range.mpr inside)]
  · split <;> simp
  · intro other member different
    have bound := Finset.mem_range.mp member
    have apart : width - 1 - place ≠ width - 1 - other := by omega
    split
    · rw [coeff_X_pow, if_neg apart]
    · rfl

theorem message_eval_one (bits : List Bool) : (message R bits).eval 1 = bits.count true := by
  induction bits with
  | nil => simp [message]
  | cons bit rest ih => cases bit <;> simp [message, ih, add_comm]

variable [CharP R 2]

theorem polynomial_xor (left right : BitVec width) :
    polynomial R (left ^^^ right) = polynomial R left + polynomial R right := by
  rw [polynomial, polynomial, polynomial, ← Finset.sum_add_distrib]
  refine Finset.sum_congr rfl fun place _ => ?_
  rw [BitVec.getLsbD_xor]
  cases left.getLsbD place <;> cases right.getLsbD place <;> simp [CharTwo.add_self_eq_zero]

theorem polynomial_advance (generator register : BitVec width) : X * polynomial R register =
      polynomial R (advance generator register) + if register.getLsbD 0 then divisor R generator else 0 := by
  rw [polynomial_shiftRight, advance]
  split
  · rw [polynomial_xor, divisor, add_assoc, add_left_comm (polynomial R generator),
      CharTwo.add_self_eq_zero, add_zero]
  · rfl

theorem divisor_dvd_feed (generator register : BitVec width) (bit : Bool) : divisor R generator ∣
      X * polynomial R register + (if bit then X ^ width else 0) + polynomial R (feed generator register bit) := by
  cases width with
  | zero => simp [divisor, polynomial]
  | succ last =>
    have entered : X * polynomial R register + (if bit then X ^ (last + 1) else 0) =
        X * polynomial R (register ^^^ (BitVec.ofBool bit).setWidth (last + 1)) := by
      rw [polynomial_xor, polynomial_bit R bit (by omega), mul_add, mul_ite, mul_zero, ← pow_succ',
        Nat.add_sub_cancel]
    rw [entered, polynomial_advance R generator, ← feed, add_right_comm, CharTwo.add_self_eq_zero, zero_add]
    split
    · exact dvd_rfl
    · exact dvd_zero _

theorem divisor_dvd_remainder (generator register : BitVec width) (bits : List Bool) : divisor R generator ∣
      polynomial R register * X ^ bits.length + message R bits * X ^ width +
        polynomial R (remainder generator register bits) := by
  induction bits generalizing register with
  | nil => simp [message, remainder, CharTwo.add_self_eq_zero]
  | cons bit rest ih =>
    have fed := (divisor_dvd_feed R generator register bit).mul_right (X ^ rest.length)
    have later := dvd_add fed (ih (feed generator register bit))
    have lined : (X * polynomial R register + (if bit then X ^ width else 0) +
          polynomial R (feed generator register bit)) * X ^ rest.length +
        (polynomial R (feed generator register bit) * X ^ rest.length + message R rest * X ^ width +
          polynomial R (remainder generator (feed generator register bit) rest)) =
        polynomial R register * X ^ (rest.length + 1) +
          ((if bit then X ^ rest.length else 0) + message R rest) * X ^ width +
          polynomial R (remainder generator (feed generator register bit) rest) := by
      have twice := CharTwo.add_self_eq_zero (polynomial R (feed generator register bit) * X ^ rest.length)
      split <;> linear_combination twice
    rwa [lined] at later

theorem polynomial_remainder [Nontrivial R] (generator : BitVec width) (bits : List Bool) :
    polynomial R (remainder generator 0 bits) = (message R bits * X ^ width) %ₘ divisor R generator := by
  have empty : polynomial R (0 : BitVec width) = 0 := by simp [polynomial]
  obtain ⟨quotient, dvd⟩ := divisor_dvd_remainder R generator 0 bits
  rw [empty, zero_mul, zero_add] at dvd
  refine (div_modByMonic_unique quotient _ (divisor_monic R generator) ⟨?_, ?_⟩).2.symm
  · rw [← dvd, add_comm, add_assoc, CharTwo.add_self_eq_zero, add_zero]
  · have leading : (divisor R generator).degree = width := by
      rw [divisor, degree_add_eq_left_of_degree_lt, degree_X_pow]
      rw [degree_X_pow]
      exact polynomial_degree_lt R generator
    rw [leading]
    exact polynomial_degree_lt R _

/-- The register is clear behind the multiples of the divisor. -/
theorem remainder_eq_zero_iff [Nontrivial R] {generator : BitVec width}
    (apart : IsCoprime (divisor R generator) (X ^ width)) (bits : List Bool) :
    remainder generator 0 bits = 0 ↔ divisor R generator ∣ message R bits := by
  have shifted : divisor R generator ∣ message R bits ↔ divisor R generator ∣ message R bits * X ^ width :=
    ⟨fun divides => divides.mul_right _, apart.dvd_of_dvd_mul_right⟩
  rw [shifted, ← modByMonic_eq_zero_iff_dvd (divisor_monic R generator), ← polynomial_remainder]
  constructor
  · intro clear
    rw [clear]
    simp [polynomial]
  · intro zero
    apply BitVec.eq_of_getLsbD_eq
    intro place inside
    have bit := polynomial_coeff R (remainder generator 0 bits) inside
    rw [zero, coeff_zero] at bit
    by_contra one
    simp_all

/-- A divisor with the root one keeps the parity of the message. -/
theorem remainder_eval_one (root : (divisor R generator).eval 1 = 0) (bits : List Bool) :
    (polynomial R (remainder generator 0 bits)).eval 1 = bits.count true := by
  obtain ⟨quotient, dvd⟩ := divisor_dvd_remainder R generator 0 bits
  have here := congrArg (Polynomial.eval 1) dvd
  rw [eval_mul, root, zero_mul, eval_add, eval_add, eval_mul, eval_mul, eval_pow, eval_pow, eval_X, one_pow,
    one_pow, mul_one, mul_one, message_eval_one, show polynomial R (0 : BitVec width) = 0 by simp [polynomial],
    eval_zero, zero_add] at here
  exact (CharTwo.add_eq_zero.mp here).symm

end

end Crc
