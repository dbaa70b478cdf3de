import Mathlib.Algebra.Field.ZMod
import Libucmq.Library.Crc
import Libucmq.Store.Check

/-! The check sum of `crc16.c`, a reflected CRC-16. -/

namespace Libucmq

open Crc Memory

def crc16Poly : BitVec 16 := 0xA001#16

theorem crc16Poly_constant : crc16Poly.getLsbD (16 - 1) = true := rfl

theorem crc16tab_eq : ∀ index < 256,
    (crc16tab.getD index 0).toBitVec = (advance crc16Poly)^[8] (BitVec.ofNat 16 index) := by
  decide +kernel

theorem crc16_split (register : BitVec 16) : register = (register &&& 0xff#16) ^^^ (register >>> 8) <<< 8 := by
  have mask : ∀ place < 16, (0xff#16).getLsbD place = decide (place < 8) := by decide
  apply BitVec.eq_of_getLsbD_eq
  intro place inside
  rw [BitVec.getLsbD_xor, BitVec.getLsbD_and, mask place inside, BitVec.getLsbD_shiftLeft,
    BitVec.getLsbD_ushiftRight]
  by_cases low : place < 8
  · simp [low]
  · simp [low, inside, show 8 + (place - 8) = place by omega]

theorem crc16_eight (register : BitVec 16) : (advance crc16Poly)^[8] register =
      register >>> 8 ^^^ (crc16tab.getD (register &&& 0xff#16).toNat 0).toBitVec := by
  have low : (register &&& 0xff#16).toNat < 256 := by
    rw [BitVec.toNat_and]
    exact Nat.lt_succ_of_le Nat.and_le_right
  have high : (advance crc16Poly)^[8] ((register >>> 8) <<< 8) = register >>> 8 := by
    apply advance_iterate_shiftLeft
    intro place late
    rw [BitVec.getLsbD_ushiftRight, BitVec.getLsbD_of_ge _ _ (by omega)]
  rw [crc16tab_eq _ low, BitVec.ofNat_toNat, BitVec.setWidth_eq]
  conv_lhs => rw [crc16_split register, advance_iterate_xor, high, BitVec.xor_comm]

theorem crc16Step_eq (c16 : UInt16) (byte : UInt8) :
    (crc16Step c16 byte).toBitVec = remainder crc16Poly c16.toBitVec (byteBits byte) := by
  have small : byte.toBitVec.setWidth 16 >>> 8 = 0#16 := by
    apply BitVec.eq_of_getLsbD_eq
    intro place inside
    rw [BitVec.getLsbD_ushiftRight, BitVec.getLsbD_setWidth, BitVec.getLsbD_of_ge _ _ (by omega)]
    simp
  rw [remainder_byte _ _ (by decide), crc16_eight, BitVec.ushiftRight_xor_distrib, small, BitVec.xor_zero]
  rfl

theorem crc16Fold_eq (c16 : UInt16) (data : List UInt8) :
    (data.foldl crc16Step c16).toBitVec = remainder crc16Poly c16.toBitVec (bitsOf data) := by
  induction data generalizing c16 with
  | nil => rfl
  | cons byte rest ih =>
    rw [List.foldl_cons, ih, crc16Step_eq, bitsOf, bitsOf, List.flatMap_cons, remainder_append]

theorem crc16Append_eq (crc16 : UInt16) (data : List UInt8) :
    (crc16Append crc16 data).toBitVec = remainder crc16Poly 0 (bitsOf data) := crc16Fold_eq 0 data

section

open Polynomial

theorem crc16_divisor : divisor (ZMod 2) crc16Poly = X ^ 16 + X ^ 15 + X ^ 2 + 1 := by
  simp [divisor, polynomial, crc16Poly, Finset.sum_range_succ, add_assoc]

/-- The reflected CRC-16, bit by bit and as a remainder of polynomials. -/
theorem crc16Append_standard (crc16 : UInt16) (data : List UInt8) :
    (crc16Append crc16 data).toBitVec = remainder 0xA001#16 0 (bitsOf data) ∧
      polynomial (ZMod 2) (crc16Append crc16 data).toBitVec =
        (message (ZMod 2) (bitsOf data) * X ^ 16) %ₘ (X ^ 16 + X ^ 15 + X ^ 2 + 1) := by
  refine ⟨crc16Append_eq crc16 data, ?_⟩
  rw [crc16Append_eq, polynomial_remainder, crc16_divisor]

theorem crc16_coprime : IsCoprime (divisor (ZMod 2) crc16Poly) (X ^ 16) := by
  rw [crc16_divisor]
  exact .pow_right ⟨1, -(X ^ 15 + X ^ 14 + X), by ring⟩

/-- The value accumulated before is kept exactly when the generator divides the first part. -/
theorem crc16Append_append_iff (front back : List UInt8) :
    crc16Append (crc16Append 0 front) back = crc16Append 0 (front ++ back) ↔
      (X ^ 16 + X ^ 15 + X ^ 2 + 1 : (ZMod 2)[X]) ∣ message (ZMod 2) (bitsOf front) := by
  rw [← crc16_divisor, ← remainder_eq_zero_iff _ crc16_coprime, ← UInt16.toBitVec_inj, crc16Append_eq,
    crc16Append_eq, bitsOf, bitsOf, bitsOf, List.flatMap_append, remainder_append]
  constructor
  · intro same
    exact (remainder_injective crc16Poly_constant _ same).symm
  · intro zero
    rw [zero]

end

theorem crc16Append_forgets : crc16Append (crc16Append 0 [49]) [50] = 0xD581 ∧ crc16Append 0 ([49] ++ [50]) = 0x4594 ∧
      crc16Append (crc16Append 0 [49]) [50] ≠ crc16Append 0 ([49] ++ [50]) := by
  decide +kernel

/-- One length, and all differing bits among sixteen consecutive ones. -/
structure Burst (sent received : List UInt8) : Prop where
  length : sent.length = received.length
  differ : sent ≠ received
  within : ∃ start, Within 16 start (bitsOf sent) (bitsOf received)

variable {sent received : List UInt8}

theorem Burst.crc_ne (burst : Burst sent received) (left right : UInt16) :
    crc16Append left sent ≠ crc16Append right received := by
  obtain ⟨start, within⟩ := burst.within
  rw [ne_eq, ← UInt16.toBitVec_inj, crc16Append_eq, crc16Append_eq]
  refine remainder_burst_ne crc16Poly_constant 0 ?_ ?_ within
  · rw [bitsOf_length, bitsOf_length, burst.length]
  · exact fun same => burst.differ (bitsOf_injective same)

theorem parseMsg_other_body {memory : Bytes} {pos : UInt32} {item : MsgItem} {received : List UInt8}
    (stack : MsgItem) (isSealed : Sealed item) (length : item.msg.length = received.length)
    (other : item.crc16 ≠ crc16Append 0 received) (fits : pos.toNat + 12 + received.length ≤ 67108864)
    (stored : HoldsAt memory pos.toNat (itemBytes { item with msg := received })) :
    (mqSmDbParseMsg (some memory) pos stack).1 = .crcErr := by
  have nonempty := isSealed.nonempty
  have len := isSealed.len
  have first : memory pos.toNat = msgHeadOfFirstMagicNum := by
    rw [← isSealed.first]
    exact stored 0 (by simp [itemBytes])
  have second : memory (pos.toNat + 1) = msgHeadOfSecondMagicNum := by
    rw [← isSealed.second]
    exact stored 1 (by simp [itemBytes])
  have total : (pos + item.len + 12).toNat = pos.toNat + 12 + received.length := by
    rw [UInt32.toNat_add, UInt32.toNat_add, len]
    simp only [UInt32.reduceToNat]
    omega
  have inside : ¬ pos + item.len + 12 > maxDbFilePos := by
    rw [gt_iff_lt, UInt32.lt_iff_toNat_lt, total, maxDbFilePos_toNat]
    omega
  have body : load memory (pos.toNat + msgHeadLen) received.length = received := stored_msg stored
  rw [mqSmDbParseMsg, if_neg (head_fits (by omega)), if_neg (by simp [first, second])]
  simp only [parseMsgHead_item stack stored]
  rw [if_neg inside, len, length, body, mqSmDbBuildMsgCrc16, if_neg (by omega)]
  simp only [if_neg other]

theorem holdsAt_other_body {memory : Bytes} {pos : Nat} {item : MsgItem} {received : List UInt8}
    (stored : HoldsAt memory pos (itemBytes item)) :
    HoldsAt (store memory (pos + msgHeadLen) received) pos (itemBytes { item with msg := received }) := by
  rw [itemBytes, holdsAt_append] at stored ⊢
  refine ⟨stored.1.store_disjoint (Or.inl ?_), ?_⟩
  · simp [msgHeadLen]
  · simpa [msgHeadLen] using holdsAt_store memory (pos + 12) received

/-- A record damaged by a burst of sixteen bits is refused for its check sum. -/
theorem burst_detected {sent received : List UInt8} (burst : Burst sent received) :
    crc16Append 0 sent ≠ crc16Append 0 received ∧ ∀ (memory : Bytes) (pos delay : UInt32) (stack : MsgItem),
        HoldsAt memory pos.toNat (itemBytes (sealItem delay sent)) → pos.toNat + 12 + sent.length ≤ maxDbFileSize →
        (mqSmDbParseMsg (some (store memory (pos.toNat + msgHeadLen) received)) pos stack).1 = .crcErr := by
  have other := burst.crc_ne 0 0
  refine ⟨other, fun memory pos delay stack stored fits => ?_⟩
  have length := burst.length
  rw [maxDbFileSize_eq] at fits
  have nonempty : 0 < sent.length := by
    by_contra empty
    have both : sent = [] ∧ received = [] := by
      constructor <;> apply List.eq_nil_of_length_eq_zero <;> omega
    exact burst.differ (both.1.trans both.2.symm)
  exact parseMsg_other_body stack (sealItem_sealed delay nonempty (by omega)) length other (by omega)
    (holdsAt_other_body stored)

theorem burst_detected_two : crc16Append 0 [0x41, 0x42, 0x43] ≠ crc16Append 0 [0x41, 0xC2, 0x42] ∧
    (mqSmDbParseMsg (some (store (store (fun _ => 0) 128 (itemBytes (sealItem 0 [0x41, 0x42, 0x43])))
      (128 + msgHeadLen) [0x41, 0xC2, 0x42])) 128 {}).1 = .crcErr := by
  have burst : Burst [0x41, 0x42, 0x43] [0x41, 0xC2, 0x42] := by
    have same : ∀ place < 24, ¬ (15 ≤ place ∧ place < 15 + 16) →
        (bitsOf [0x41, 0x42, 0x43])[place]? = (bitsOf [0x41, 0xC2, 0x42])[place]? := by decide
    refine ⟨rfl, by decide, 15, fun place differ => ?_⟩
    by_contra outside
    by_cases inside : place < 24
    · exact differ (same place inside outside)
    · rw [List.getElem?_eq_none, List.getElem?_eq_none] at differ
      · exact differ rfl
      · simpa using inside
      · simpa using inside
  obtain ⟨crc, refused⟩ := burst_detected burst
  exact ⟨crc, refused _ 128 0 {} (holdsAt_store _ _ _) (by decide)⟩

theorem crc16Append_odd (length : sent.length = received.length)
    (odd : Odd (flips (bitsOf sent) (bitsOf received))) (left right : UInt16) :
    crc16Append left sent ≠ crc16Append right received := by
  intro same
  have root : (divisor (ZMod 2) crc16Poly).eval 1 = 0 := by
    rw [crc16_divisor]
    simp
    decide
  have sentParity := remainder_eval_one (ZMod 2) root (bitsOf sent)
  have receivedParity := remainder_eval_one (ZMod 2) root (bitsOf received)
  rw [← crc16Append_eq left, same, crc16Append_eq right, receivedParity, ZMod.natCast_eq_natCast_iff'] at sentParity
  have parity := @count_flips (bitsOf sent) (bitsOf received) (by rw [bitsOf_length, bitsOf_length, length])
  rw [Nat.odd_iff] at odd
  omega

/-- A record with an odd number of flipped bits is refused for its check sum. -/
theorem odd_flips_detected (length : sent.length = received.length)
    (odd : Odd (flips (bitsOf sent) (bitsOf received))) :
    crc16Append 0 sent ≠ crc16Append 0 received ∧ ∀ (memory : Bytes) (pos delay : UInt32) (stack : MsgItem),
        HoldsAt memory pos.toNat (itemBytes (sealItem delay sent)) → pos.toNat + 12 + sent.length ≤ maxDbFileSize →
        (mqSmDbParseMsg (some (store memory (pos.toNat + msgHeadLen) received)) pos stack).1 = .crcErr := by
  have other := crc16Append_odd length odd 0 0
  refine ⟨other, fun memory pos delay stack stored fits => ?_⟩
  rw [maxDbFileSize_eq] at fits
  have nonempty : 0 < sent.length := by
    rw [List.length_pos_iff]
    rintro rfl
    cases odd.pos
  exact parseMsg_other_body stack (sealItem_sealed delay nonempty (by omega)) length other (by omega)
    (holdsAt_other_body stored)

theorem odd_flips_far : crc16Append 0 [0x41, 0x42, 0x43, 0x44] ≠ crc16Append 0 [0xC1, 0x42, 0x42, 0x4C] ∧
    (mqSmDbParseMsg (some (store (store (fun _ => 0) 128 (itemBytes (sealItem 0 [0x41, 0x42, 0x43, 0x44])))
      (128 + msgHeadLen) [0xC1, 0x42, 0x42, 0x4C])) 128 {}).1 = .crcErr := by
  obtain ⟨crc, refused⟩ := @odd_flips_detected [0x41, 0x42, 0x43, 0x44] [0xC1, 0x42, 0x42, 0x4C] rfl
    (by decide +kernel)
  exact ⟨crc, refused _ 128 0 {} (holdsAt_store _ _ _) (by decide)⟩

end Libucmq
