import Mathlib.Data.Nat.Bitwise
import Libucmq.Library.Outcome
import Libucmq.Library.CString

/-! The conversion of `\u` escapes to UTF-8 in `conv.c`. -/

namespace Libucmq.Conv

open List CString Outcome

inductive Fault
  | outside
deriving DecidableEq, Repr

abbrev Units := Nat → UInt16

def convStepCount : Nat := 1024

def signedChar (char : UInt8) : Int := (char.toNat : Int).bmod 256

def charToNumber (str : UInt8) : Int :=
  if str = 97 then 10
  else if str = 98 then 11
  else if str = 99 then 12
  else if str = 100 then 13
  else if str = 101 then 14
  else if str = 102 then 15
  else signedChar str - 48

def toUnit (value : Int) : UInt16 := UInt16.ofNat (value % 65536).toNat

/-- The loop over the text; an escape cut off leads behind the terminator. -/
def scan : Nat → List UInt8 → Except Fault (List UInt16)
  | 0, _ => .ok []
  | _ + 1, [] => .ok []
  | count + 1, char :: rest =>
    if char = 92 ∧ rest.headD 0 = 117 then do
      let nb1 ← charAt Fault.outside rest 1
      let nb2 ← charAt Fault.outside rest 2
      let nb3 ← charAt Fault.outside rest 3
      let nb4 ← charAt Fault.outside rest 4
      let unit := toUnit (charToNumber nb1 * 16 * 16 * 16 + charToNumber nb2 * 16 * 16 + charToNumber nb3 * 16 +
        charToNumber nb4)
      if rest.length < 5 then if count = 0 then .ok [unit] else .error .outside
      else do
        let later ← scan count (rest.drop 5)
        .ok (unit :: later)
    else do
      let later ← scan count rest
      .ok (toUnit (signedChar char) :: later)

def cleared (convCount : Nat) (units : Units) : Units := fun i =>
  if convStepCount < convCount ∨ i < 512 then 0 else if i = 512 then units i &&& 0xFF00 else units i

def stored (values : List UInt16) (units : Units) : Units := fun i => values.getD i (units i)

def swap (word : UInt16) : UInt16 := (word >>> 8) + (word <<< 8)

/-- The last branch of the source is for words above 16 bits. -/
def wordBytes (word : Nat) : List UInt8 :=
  if word < 0x80 then [UInt8.ofNat ((word &&& 0x7F) ||| 0x00)]
  else if word < 0x0800 then
    [UInt8.ofNat (((word >>> 6) &&& 0x1F) ||| 0xC0), UInt8.ofNat ((word &&& 0x3F) ||| 0x80)]
  else
    [UInt8.ofNat (((word >>> 12) &&& 0x0F) ||| 0xE0), UInt8.ofNat (((word >>> 6) &&& 0x3F) ||| 0x80),
      UInt8.ofNat ((word &&& 0x3F) ||| 0x80)]

def unicodeToUtf8 (endian : Int) (units : Units) : Nat → Nat → List UInt8
  | 0, _ => []
  | count + 1, ind =>
    if units ind = 0 then []
    else wordBytes (if endian = 1 then swap (units ind) else units ind).toNat ++
      unicodeToUtf8 endian units count (ind + 1)

def unc16ToUtf8 (units : Units) (unicodeBuf : List UInt8) (convCount : Nat) (endian : Int) :
    Except Fault (List UInt8 × Units) := do
  let values ← scan convCount unicodeBuf
  let buffer := stored values (cleared convCount units)
  let result := unicodeToUtf8 endian buffer convCount 0
  .ok (result.takeWhile (· ≠ 0), if convStepCount < convCount then units else buffer)

inductive Piece
  | plain (char : UInt8)
  | escape (d1 d2 d3 d4 : UInt8)

def Piece.text : Piece → List UInt8
  | .plain char => [char]
  | .escape d1 d2 d3 d4 => [92, 117, d1, d2, d3, d4]

def hexNumber (digit : UInt8) : Nat := ((hexValue digit).getD 0).toNat

def Piece.unit : Piece → Nat
  | .plain char => char.toNat
  | .escape d1 d2 d3 d4 => hexNumber d1 * 4096 + hexNumber d2 * 256 + hexNumber d3 * 16 + hexNumber d4

def utf8 (unit : Nat) : List UInt8 :=
  if unit < 128 then [UInt8.ofNat unit]
  else if unit < 2048 then [UInt8.ofNat (192 + unit / 64), UInt8.ofNat (128 + unit % 64)]
  else [UInt8.ofNat (224 + unit / 4096), UInt8.ofNat (128 + unit / 64 % 64), UInt8.ofNat (128 + unit % 64)]

def isLowerHex (digit : UInt8) : Bool := (48 ≤ digit && digit ≤ 57) || (97 ≤ digit && digit ≤ 102)

def isHex (digit : UInt8) : Bool := (hexValue digit).isSome

def Piece.Good (piece : Piece) : Prop :=
  match piece with
  | .plain char => 0 < char ∧ char < 128
  | .escape d1 d2 d3 d4 => (∀ digit ∈ [d1, d2, d3, d4], isHex digit = true) ∧ piece.unit ≠ 0

def Piece.Lower : Piece → Prop
  | .plain _ => True
  | .escape d1 d2 d3 d4 => ∀ digit ∈ [d1, d2, d3, d4], isLowerHex digit = true

/-- No backslash followed by a `u` but that of an escape. -/
def Unmixed : List Piece → Prop
  | .plain left :: .plain right :: rest => ¬ (left = 92 ∧ right = 117) ∧ Unmixed (.plain right :: rest)
  | _ :: rest => Unmixed rest
  | [] => True

theorem wordBytes_eq {word : Nat} (bound : word < 65536) : wordBytes word = utf8 word := by
  have mask6 (value : Nat) : value &&& 0x3F = value % 64 := Nat.and_two_pow_sub_one_eq_mod value 6
  have mask5 (value : Nat) : value &&& 0x1F = value % 32 := Nat.and_two_pow_sub_one_eq_mod value 5
  have mask4 (value : Nat) : value &&& 0x0F = value % 16 := Nat.and_two_pow_sub_one_eq_mod value 4
  have mask7 (value : Nat) : value &&& 0x7F = value % 128 := Nat.and_two_pow_sub_one_eq_mod value 7
  have tail : ∀ value < 64, value ||| 0x80 = 128 + value := by decide
  have two : ∀ value < 32, value ||| 0xC0 = 192 + value := by decide
  have three : ∀ value < 16, value ||| 0xE0 = 224 + value := by decide
  simp only [wordBytes, utf8, mask4, mask5, mask6, mask7, Nat.shiftRight_eq_div_pow, Nat.or_zero, Nat.reducePow]
  rw [tail _ (Nat.mod_lt _ (by decide)), tail _ (Nat.mod_lt _ (by decide)), two _ (Nat.mod_lt _ (by decide)),
    three _ (Nat.mod_lt _ (by decide))]
  split
  · rw [Nat.mod_eq_of_lt (by omega)]
  · split
    · rw [Nat.mod_eq_of_lt (show word / 64 < 32 by omega)]
    · rw [Nat.mod_eq_of_lt (show word / 4096 < 16 by omega)]

theorem charToNumber_hex {digit : UInt8} (hex : isHex digit = true) : hexNumber digit < 16 ∧
    (isLowerHex digit = true ∧ charToNumber digit = hexNumber digit ∨
      isLowerHex digit = false ∧ charToNumber digit = hexNumber digit + 7) := by
  refine forall_byte (P := fun digit => isHex digit = true → hexNumber digit < 16 ∧
    (isLowerHex digit = true ∧ charToNumber digit = hexNumber digit ∨
      isLowerHex digit = false ∧ charToNumber digit = hexNumber digit + 7)) ?_ digit hex
  decide +kernel

theorem signedChar_eq {char : UInt8} (ascii : char < 128) : signedChar char = char.toNat := by
  refine forall_byte (P := fun char => char < 128 → signedChar char = char.toNat) ?_ char ascii
  decide +kernel

def Piece.read : Piece → UInt16
  | .plain char => toUnit (signedChar char)
  | .escape d1 d2 d3 d4 => toUnit (charToNumber d1 * 16 * 16 * 16 + charToNumber d2 * 16 * 16 + charToNumber d3 * 16 +
      charToNumber d4)

theorem toUnit_toNat (value : Int) : ((toUnit value).toNat : Int) = value % 65536 := by
  simp only [toUnit, UInt16.toNat_ofNat']
  omega

theorem Piece.Good.unit_bound {piece : Piece} (good : piece.Good) : 0 < piece.unit ∧ piece.unit < 65536 := by
  cases piece with
  | plain char =>
      have low : 0 < char.toNat := good.1
      have high : char.toNat < 128 := good.2
      exact ⟨low, Nat.lt_trans high (by decide)⟩
  | escape d1 d2 d3 d4 =>
      obtain ⟨hex, nonzero⟩ := good
      have b1 := (charToNumber_hex (hex d1 (by simp))).1
      have b2 := (charToNumber_hex (hex d2 (by simp))).1
      have b3 := (charToNumber_hex (hex d3 (by simp))).1
      have b4 := (charToNumber_hex (hex d4 (by simp))).1
      refine ⟨Nat.pos_of_ne_zero nonzero, ?_⟩
      simp only [unit]
      omega

/-- Each digit in upper case adds seven times its weight, which never makes up a multiple of 65536. -/
theorem Piece.Good.read_eq_iff {piece : Piece} (good : piece.Good) : piece.read.toNat = piece.unit ↔ piece.Lower := by
  have bound := good.unit_bound
  cases piece with
  | plain char =>
      have number := toUnit_toNat (signedChar char)
      rw [signedChar_eq good.2] at number
      simp only [read, unit, Lower, iff_true, signedChar_eq good.2] at bound ⊢
      omega
  | escape d1 d2 d3 d4 =>
      obtain ⟨hex, -⟩ := good
      have number := toUnit_toNat (charToNumber d1 * 16 * 16 * 16 + charToNumber d2 * 16 * 16 + charToNumber d3 * 16 +
        charToNumber d4)
      simp only [read, unit, Lower, forall_mem_cons, not_mem_nil, false_implies, implies_true, and_true] at bound hex ⊢
      obtain ⟨h1, h2, h3, h4⟩ := hex
      obtain ⟨-, ⟨l1, n1⟩ | ⟨l1, n1⟩⟩ := charToNumber_hex h1 <;>
      obtain ⟨-, ⟨l2, n2⟩ | ⟨l2, n2⟩⟩ := charToNumber_hex h2 <;>
      obtain ⟨-, ⟨l3, n3⟩ | ⟨l3, n3⟩⟩ := charToNumber_hex h3 <;>
      obtain ⟨-, ⟨l4, n4⟩ | ⟨l4, n4⟩⟩ := charToNumber_hex h4 <;>
      simp only [l1, l2, l3, l4, and_true, and_self, and_false, Bool.false_eq_true, iff_true, iff_false] <;>
      rw [n1, n2, n3, n4] at number ⊢ <;>
      omega

theorem scan_pieces {pieces : List Piece} (unmixed : Unmixed pieces) {count : Nat} (room : pieces.length ≤ count) :
    scan count (pieces.flatMap Piece.text) = .ok (pieces.map Piece.read) := by
  induction pieces generalizing count with
  | nil => cases count <;> rfl
  | cons piece pieces ih =>
      obtain ⟨count, rfl⟩ : ∃ less, count = less + 1 := ⟨count - 1, by simp at room; omega⟩
      have later := fun unmixed => @ih unmixed count (by simpa using room)
      cases piece with
      | plain char =>
          have unlike : ¬ (char = 92 ∧ (pieces.flatMap Piece.text).headD 0 = 117) := by
            cases pieces with
            | nil => simp
            | cons next rest =>
                cases next with
                | plain next => exact unmixed.1
                | escape => simp [Piece.text]
          have rest : Unmixed pieces := by
            cases pieces with
            | nil => trivial
            | cons next rest =>
                cases next with
                | plain next => exact unmixed.2
                | escape => exact unmixed
          rw [flatMap_cons, Piece.text, singleton_append, scan, if_neg unlike, later rest, ok_bind]
          rfl
      | escape d1 d2 d3 d4 =>
          rw [flatMap_cons, Piece.text]
          simp only [cons_append, nil_append, scan, headD_cons, and_self, if_true, charAt,
            List.getElem?_cons_succ, List.getElem?_cons_zero, ok_bind, length_cons, drop_succ_cons,
            drop_zero, later unmixed]
          rw [if_neg (by omega)]
          rfl

theorem utf8_ne_nil (unit : Nat) : utf8 unit ≠ [] := by
  simp only [utf8]
  split
  · simp
  · split <;> simp

theorem utf8_append_inj {left right : Nat} (leftBound : left < 65536) (rightBound : right < 65536)
    {more others : List UInt8} : utf8 left ++ more = utf8 right ++ others ↔ left = right ∧ more = others := by
  refine ⟨fun same => ?_, fun both => by rw [both.1, both.2]⟩
  simp only [utf8] at same
  split at same <;> split at same <;> try split at same
  all_goals try split at same
  all_goals
    simp only [cons_append, nil_append, List.cons.injEq, ← UInt8.toNat_inj, UInt8.toNat_ofNat'] at same
    first
      | exact ⟨by omega, same.2⟩
      | exact ⟨by omega, same.2.2⟩
      | exact ⟨by omega, same.2.2.2⟩
      | omega

/-- The loop writes given units exactly if these stand first and are followed by its count or by a zero. -/
theorem unicodeToUtf8_eq_iff {units : Units} {values : List Nat} (bound : ∀ value ∈ values, 0 < value ∧ value < 65536) :
    ∀ {count ind : Nat}, values.length ≤ count →
      (unicodeToUtf8 0 units count ind = values.flatMap utf8 ↔
        (∀ i < values.length, (units (ind + i)).toNat = values.getD i 0) ∧
        (values.length = count ∨ units (ind + values.length) = 0)) := by
  induction values with
  | nil =>
      intro count ind _
      cases count with
      | zero => simp [unicodeToUtf8]
      | succ count =>
          rw [unicodeToUtf8]
          split
          · simp [*]
          · simp_all [wordBytes_eq (UInt16.toNat_lt _), utf8_ne_nil]
  | cons value values ih =>
      intro count ind room
      obtain ⟨count, rfl⟩ : ∃ less, count = less + 1 := ⟨count - 1, by simp at room; omega⟩
      obtain ⟨positive, small⟩ := bound value mem_cons_self
      have later := @ih (fun other member => bound other (mem_cons_of_mem _ member)) count (ind + 1) (by simpa using room)
      rw [unicodeToUtf8, flatMap_cons, length_cons, Nat.forall_lt_succ_left]
      split
      · next zero =>
          refine ⟨fun same => ?_, fun both => ?_⟩
          · exact absurd (append_eq_nil_iff.mp same.symm).1 (utf8_ne_nil _)
          · have := both.1.1
            rw [Nat.add_zero, zero] at this
            simp at this
            omega
      · rw [if_neg (by decide), wordBytes_eq (UInt16.toNat_lt _), utf8_append_inj (UInt16.toNat_lt _) small, later]
        simp only [Nat.add_zero, getD_cons_zero, getD_cons_succ, Nat.add_assoc, Nat.add_comm 1, and_assoc,
          Nat.add_right_cancel_iff]

theorem utf8_nonzero {unit : Nat} (positive : 0 < unit) (bound : unit < 65536) : 0 ∉ utf8 unit := by
  have nonzero {value : Nat} (low : 0 < value) (high : value < 256) : (0 : UInt8) ≠ UInt8.ofNat value := by
    intro zero
    have := congrArg UInt8.toNat zero
    simp at this
    omega
  simp only [utf8]
  split
  · simp only [mem_singleton]
    exact nonzero positive (by omega)
  · split <;> simp only [mem_cons, not_mem_nil, or_false, not_or]
    · exact ⟨nonzero (by omega) (by omega), nonzero (by omega) (by omega)⟩
    · exact ⟨nonzero (by omega) (by omega), nonzero (by omega) (by omega), nonzero (by omega) (by omega)⟩

theorem unicodeToUtf8_nonzero (units : Units) (count ind : Nat) : 0 ∉ unicodeToUtf8 0 units count ind := by
  induction count generalizing ind with
  | zero => simp [unicodeToUtf8]
  | succ count ih =>
      rw [unicodeToUtf8]
      split
      · simp
      · next nonzero =>
          have positive : 0 < (units ind).toNat := Nat.pos_of_ne_zero fun zero => nonzero (UInt16.toNat_inj.mp zero)
          rw [if_neg (by decide), wordBytes_eq (UInt16.toNat_lt _), mem_append, not_or]
          exact ⟨utf8_nonzero positive (UInt16.toNat_lt _), ih _⟩

/-- The buffers that calls leave. -/
inductive Left : Units → Prop
  | start : Left fun _ => 0
  | call {units after : Units} {text result : List UInt8} {convCount : Nat} {endian : Int} (left : Left units)
      (called : unc16ToUtf8 units text convCount endian = .ok (result, after)) : Left after

section

variable {pieces : List Piece} {convCount : Nat} (good : ∀ piece ∈ pieces, piece.Good) (unmixed : Unmixed pieces)
  (room : pieces.length ≤ convCount) (small : convCount ≤ convStepCount)

include unmixed room small in
theorem unc16ToUtf8_eq (units : Units) : unc16ToUtf8 units (pieces.flatMap Piece.text) convCount 0 =
    .ok (unicodeToUtf8 0 (stored (pieces.map Piece.read) (cleared convCount units)) convCount 0,
      stored (pieces.map Piece.read) (cleared convCount units)) := by
  rw [unc16ToUtf8, scan_pieces unmixed room, ok_bind]
  simp only [if_neg (Nat.not_lt.mpr small)]
  rw [takeWhile_eq_self_iff.mpr]
  intro byte member
  simpa using fun zero : byte = 0 => unicodeToUtf8_nonzero _ _ _ (zero ▸ member)

include good unmixed room small in
theorem unc16ToUtf8_eq_iff (units : Units) :
    (∃ after, unc16ToUtf8 units (pieces.flatMap Piece.text) convCount 0 =
      .ok (pieces.flatMap fun piece => utf8 piece.unit, after)) ↔
    (∀ piece ∈ pieces, piece.Lower) ∧ (pieces.length = convCount ∨ cleared convCount units pieces.length = 0) := by
  have bound : ∀ value ∈ pieces.map Piece.unit, 0 < value ∧ value < 65536 := by
    intro value member
    obtain ⟨piece, inside, rfl⟩ := mem_map.mp member
    exact (good piece inside).unit_bound
  have loop := @unicodeToUtf8_eq_iff (stored (pieces.map Piece.read) (cleared convCount units)) _ bound convCount 0
    (by simpa using room)
  rw [flatMap_map, length_map] at loop
  simp only [unc16ToUtf8_eq unmixed room small, Except.ok.injEq, Prod.mk.injEq, exists_and_left, exists_eq', and_true,
    loop, Nat.zero_add]
  refine and_congr ⟨fun same piece member => ?_, fun lower i inside => ?_⟩ (by simp [stored])
  · obtain ⟨i, inside, rfl⟩ := getElem_of_mem member
    have here := same i inside
    simp only [stored, getD_eq_getElem?_getD, getElem?_map, getElem?_eq_getElem inside, Option.map_some,
      Option.getD_some] at here
    exact (good _ member).read_eq_iff.mp here
  · simp only [stored, getD_eq_getElem?_getD, getElem?_map, getElem?_eq_getElem inside, Option.map_some, Option.getD_some]
    exact (good _ (getElem_mem inside)).read_eq_iff.mpr (lower _ (getElem_mem inside))

end

/-- A call on `\u0101` again and again leaves words that the next one does not clear. -/
theorem left_full {count : Nat} (small : count ≤ convStepCount) :
    ∃ units, Left units ∧ ∀ i < count, units i = 257 := by
  have unmixed : Unmixed (List.replicate count (.escape 48 49 48 49)) := by
    clear small
    induction count with
    | zero => trivial
    | succ count ih => exact ih
  have called := unc16ToUtf8_eq unmixed (Nat.le_of_eq length_replicate) small fun _ => 0
  refine ⟨_, .call .start called, fun i inside => ?_⟩
  rw [stored, map_replicate, getD_eq_getElem?_getD, getElem?_replicate, if_pos inside, Option.getD_some]
  decide

/-- Right whatever the calls before have left exactly if the digits are in lower case, and the text ends by the count or
in the half of the buffer that is cleared. -/
theorem unc16ToUtf8_encodes_iff (pieces : List Piece) (convCount : Nat) (good : ∀ piece ∈ pieces, piece.Good)
    (unmixed : Unmixed pieces) (room : pieces.length ≤ convCount) (small : convCount ≤ convStepCount) :
    (∀ units, Left units → ∃ after, unc16ToUtf8 units (pieces.flatMap Piece.text) convCount 0 =
      .ok (pieces.flatMap fun piece => utf8 piece.unit, after)) ↔
    (∀ piece ∈ pieces, piece.Lower) ∧ (pieces.length = convCount ∨ pieces.length < 512) := by
  simp only [unc16ToUtf8_eq_iff good unmixed room small]
  have few : ¬ convStepCount < convCount := Nat.not_lt.mpr small
  constructor
  · intro right
    obtain ⟨units, left, full⟩ := left_full small
    obtain ⟨lower, ends⟩ := right units left
    refine ⟨lower, ends.elim .inl fun zero => ?_⟩
    by_contra neither
    rw [cleared, if_neg (by omega), full _ (by omega)] at zero
    split at zero <;> exact absurd zero (by decide)
  · rintro ⟨lower, ends⟩ units -
    exact ⟨lower, ends.imp_right fun inside => by simp [cleared, inside]⟩

theorem unc16ToUtf8_encodes_euro :
    utf8 (Piece.escape 50 48 97 99).unit = [226, 130, 172] ∧
      ∀ units, Left units → ∃ after,
        unc16ToUtf8 units [92, 117, 50, 48, 97, 99, 98] 3 0 = .ok ([226, 130, 172, 98], after) := by
  have good : ∀ piece ∈ [Piece.escape 50 48 97 99, .plain 98], piece.Good := by
    intro piece member
    rcases mem_pair.mp member with rfl | rfl <;> refine ⟨?_, ?_⟩ <;> decide +kernel
  refine ⟨by decide +kernel, (unc16ToUtf8_encodes_iff [.escape 50 48 97 99, .plain 98] 3 good trivial (by decide)
    (by decide)).mpr ⟨?_, .inr (by decide)⟩⟩
  intro piece member
  rcases mem_pair.mp member with rfl | rfl
  · change ∀ digit ∈ _, _
    decide +kernel
  · trivial

/-- The last text is right only since its `\u003\` is read as a backslash. -/
theorem unc16ToUtf8_encodes_fails :
    (unc16ToUtf8 (fun _ => 0) [92, 117, 48, 48, 69, 57] 1 0).map Prod.fst = .ok [197, 153] ∧
      utf8 (Piece.escape 48 48 69 57).unit = [195, 169] ∧
      (unc16ToUtf8 (fun _ => 0) (List.replicate 514 98) 514 0 >>= fun earlier =>
        (unc16ToUtf8 earlier.2 (List.replicate 513 97) 514 0).map Prod.fst) =
          .ok (List.replicate 513 97 ++ [98]) ∧
      (unc16ToUtf8 (fun _ => 0) [92, 117, 122, 122, 122, 122] 6 0).map Prod.fst ≠ .ok [92, 117, 122, 122, 122, 122] ∧
      (unc16ToUtf8 (fun _ => 0) [92, 117, 48, 48, 51, 92, 117, 48, 48, 51, 48] 6 0).map Prod.fst =
        .ok [92, 117, 48, 48, 51, 48] := by
  decide +kernel

end Libucmq.Conv
