import Libucmq.Library.Outcome
import Libucmq.Library.Heap
import Libucmq.Library.CString

/-! `url_encode` and `url_decode` of `cutils.c`. -/

namespace Libucmq.Cutils

open List CString Outcome

open Heap (Fault patch padded)

variable {size : Nat} {data text rest : List UInt8}

def strlen : List UInt8 → Except Fault Nat
  | [] => .error .outside
  | char :: rest => if char = 0 then .ok 0 else (strlen rest).map (· + 1)

def strcat (out : List UInt8) (p : Nat) (text : List UInt8) : Except Fault (List UInt8) := do
  let used ← strlen (out.drop p)
  patch out (p + used) (text ++ [0])

def toupper (char : UInt8) : UInt8 := if 97 ≤ char ∧ char ≤ 122 then char - 32 else char

def charToNum (char : UInt8) : UInt8 := if 48 ≤ char ∧ char ≤ 57 then char - 48 else toupper char - 65 + 10

def hexDigit (value : Nat) : UInt8 := UInt8.ofNat (if value < 10 then 48 + value else 55 + value)

def hexNumeral (byte : UInt8) : List UInt8 :=
  if byte < 16 then [hexDigit byte.toNat] else [hexDigit (byte.toNat / 16), hexDigit (byte.toNat % 16)]

def hexPadded (byte : UInt8) : List UInt8 := List.replicate (2 - (hexNumeral byte).length) 48 ++ hexNumeral byte

def percent : UInt8 := 37

def reserved : List UInt8 := ascii "@#$%^&+|\x7d\x7b\":?><[]\\';/, `\r\n"

def encodeFrom : List UInt8 → Nat → List UInt8 → Except Fault (List UInt8)
  | [], _, _ => .error .outside
  | q :: rest, p, out =>
    if q = 0 then .ok out
    else if q ∈ reserved then do
      let out ← strcat out p (percent :: hexPadded q)
      encodeFrom rest (p + 3) out
    else if 0x7f < q then do
      let out ← strcat out p (percent :: hexNumeral q)
      encodeFrom rest (p + 3) out
    else do
      let out ← patch out p [q]
      encodeFrom rest (p + 1) out

def urlEncode (src : List UInt8) : Except Fault (List UInt8) := do
  let length ← strlen src
  encodeFrom src 0 (List.replicate (length * 3 + 1) 0)

structure Decoded where
  p : Nat
  out : List UInt8
deriving DecidableEq, Repr

def decodeFrom : List UInt8 → Nat → Nat → List UInt8 → Except Fault Decoded
  | [], _, _, _ => .error .outside
  | char :: rest, p, q, out =>
    if char = 0 then .ok ⟨p, out⟩
    else if char = percent then
      match rest with
      | first :: second :: rest => do
        let out ← patch out q [charToNum first <<< 4 ||| charToNum second]
        decodeFrom rest (p + 3) (q + 1) out
      | _ => .error .outside
    else do
      let out ← patch out q [char]
      decodeFrom rest (p + 1) (q + 1) out

def urlDecode (src : List UInt8) : Except Fault Decoded := do
  let length ← strlen src
  decodeFrom src 0 0 (List.replicate (length + 1) 0)

def escape (char : UInt8) : List UInt8 :=
  if char ∈ reserved ∨ 0x7f < char then [percent, hexDigit (char.toNat / 16), hexDigit (char.toNat % 16)] else [char]

def Whole : List UInt8 → Prop
  | [] => True
  | char :: rest =>
    if char = percent then
      match rest with
      | _ :: _ :: rest => Whole rest
      | _ => False
    else Whole rest

def unescape : List UInt8 → List UInt8
  | [] => []
  | char :: rest =>
    if char = percent then
      match rest with
      | first :: second :: rest => (charToNum first <<< 4 ||| charToNum second) :: unescape rest
      | _ => []
    else char :: unescape rest

theorem strlen_terminated {text : List UInt8} (nonzero : 0 ∉ text) (tail : List UInt8) :
    strlen (text ++ 0 :: tail) = .ok text.length := by
  induction text with
  | nil => simp [strlen]
  | cons char text ih =>
    obtain ⟨here, nonzero⟩ : char ≠ 0 ∧ 0 ∉ text := by simpa [eq_comm] using nonzero
    rw [cons_append, strlen, if_neg here, ih nonzero]
    rfl

theorem padded_terminated (room : data.length < size) :
    padded 0 size data = data ++ 0 :: List.replicate (size - data.length - 1) 0 := by
  rw [padded, ← replicate_succ]
  congr 2
  omega

theorem padded_concat_zero (room : data.length < size) : padded 0 size (data ++ [0]) = padded 0 size data := by
  rw [padded_terminated room, padded, append_assoc, length_append, length_singleton, Nat.sub_add_eq]
  rfl

theorem strcat_padded (room : data.length + text.length < size) :
    strcat (padded 0 size data) data.length text = .ok (padded 0 size (data ++ text)) := by
  have empty : strlen ((padded 0 size data).drop data.length) = .ok 0 := by
    rw [padded_terminated (by omega), drop_left]
    exact @strlen_terminated [] (by simp) _
  rw [strcat, empty, ok_bind, Nat.add_zero, Heap.patch_padded (by simp; omega),
    ← append_assoc, padded_concat_zero (by simpa using room)]

theorem hexNumeral_wide {byte : UInt8} (wide : 16 ≤ byte) :
    hexNumeral byte = [hexDigit (byte.toNat / 16), hexDigit (byte.toNat % 16)] := by
  rw [hexNumeral, if_neg (by simpa using wide)]

theorem hexPadded_eq (byte : UInt8) : hexPadded byte = [hexDigit (byte.toNat / 16), hexDigit (byte.toNat % 16)] := by
  by_cases narrow : byte < 16
  · have small : byte.toNat < 16 := UInt8.lt_iff_toNat_lt.mp narrow
    rw [hexPadded, hexNumeral, if_pos narrow, Nat.div_eq_of_lt small, Nat.mod_eq_of_lt small]
    rfl
  · rw [hexPadded, hexNumeral_wide (by simpa using narrow)]
    rfl

theorem charToNum_hexDigit {value : Nat} (digit : value < 16) : charToNum (hexDigit value) = UInt8.ofNat value := by
  have digits : ∀ value < 16, charToNum (hexDigit value) = UInt8.ofNat value := by decide
  exact digits value digit

theorem charToNum_digits (byte : UInt8) :
    charToNum (hexDigit (byte.toNat / 16)) <<< 4 ||| charToNum (hexDigit (byte.toNat % 16)) = byte := by
  have bound : byte.toNat < 256 := byte.toNat_lt
  rw [charToNum_hexDigit (by omega), charToNum_hexDigit (by omega)]
  have join : (byte.toNat / 16) <<< 4 ||| byte.toNat % 16 = byte.toNat := by
    rw [← Nat.shiftLeft_add_eq_or_of_lt (show byte.toNat % 16 < 2 ^ 4 by omega), Nat.shiftLeft_eq]
    omega
  apply UInt8.toNat_inj.mp
  simp only [UInt8.toNat_or, UInt8.toNat_shiftLeft, UInt8.toNat_ofNat']
  rw [Nat.mod_eq_of_lt (show byte.toNat / 16 < 2 ^ 8 by omega),
    Nat.mod_eq_of_lt (show byte.toNat % 16 < 2 ^ 8 by omega)]
  rw [show (UInt8.toNat 4) % 8 = 4 from rfl, Nat.mod_eq_of_lt, join]
  rw [Nat.shiftLeft_eq]
  omega

theorem encodeFrom_padded {char : UInt8} (nonzero : char ≠ 0) (room : data.length + 3 < size) :
    encodeFrom (char :: rest) data.length (padded 0 size data) =
      encodeFrom rest (data ++ escape char).length (padded 0 size (data ++ escape char)) := by
  rw [encodeFrom, if_neg nonzero, escape]
  by_cases listed : char ∈ reserved
  · rw [if_pos listed, if_pos (Or.inl listed), hexPadded_eq, strcat_padded (by simpa using room), ok_bind]
    simp
  · rw [if_neg listed]
    by_cases high : 0x7f < char
    · have wide : 16 ≤ char := UInt8.le_of_lt (UInt8.lt_trans (by decide) high)
      rw [if_pos high, if_pos (Or.inr high), hexNumeral_wide wide, strcat_padded (by simpa using room), ok_bind]
      simp
    · rw [if_neg high, if_neg (by simp [listed, high]), Heap.patch_padded (by simp; omega), ok_bind]
      simp

theorem escape_cases (char : UInt8) :
    escape char = [percent, hexDigit (char.toNat / 16), hexDigit (char.toNat % 16)] ∨
      char ≠ percent ∧ escape char = [char] := by
  by_cases listed : char ∈ reserved ∨ 0x7f < char
  · exact Or.inl (if_pos listed)
  · refine Or.inr ⟨?_, if_neg listed⟩
    rintro rfl
    exact listed (Or.inl (by decide))

theorem escape_length (char : UInt8) : 1 ≤ (escape char).length ∧ (escape char).length ≤ 3 := by
  obtain escaped | ⟨_, plain⟩ := escape_cases char
  · simp [escaped]
  · simp [plain]

theorem encodeFrom_terminated {size : Nat} {data text : List UInt8} (nonzero : 0 ∉ text)
    (room : data.length + 3 * text.length < size) (tail : List UInt8) :
    encodeFrom (text ++ 0 :: tail) data.length (padded 0 size data) =
      .ok (padded 0 size (data ++ text.flatMap escape)) := by
  induction text generalizing data with
  | nil => simp [encodeFrom]
  | cons char text ih =>
    obtain ⟨here, nonzero⟩ : char ≠ 0 ∧ 0 ∉ text := by simpa [eq_comm] using nonzero
    have short := (escape_length char).2
    rw [length_cons] at room
    rw [cons_append, encodeFrom_padded here (by omega), ih nonzero (by rw [length_append]; omega),
      flatMap_cons, append_assoc]

theorem urlEncode_terminated (nonzero : 0 ∉ text) (tail : List UInt8) :
    urlEncode (text ++ 0 :: tail) = .ok (padded 0 (text.length * 3 + 1) (text.flatMap escape)) := by
  rw [urlEncode, strlen_terminated nonzero, ok_bind]
  exact @encodeFrom_terminated (text.length * 3 + 1) [] text nonzero (by simp; omega) tail

section decodeFrom

variable {p q : Nat} {out rest : List UInt8} {char first second : UInt8}

theorem decodeFrom_zero : decodeFrom (0 :: rest) p q out = .ok ⟨p, out⟩ := by
  unfold decodeFrom
  exact if_pos rfl

theorem decodeFrom_escape : decodeFrom (percent :: first :: second :: rest) p q out =
      patch out q [charToNum first <<< 4 ||| charToNum second] >>= decodeFrom rest (p + 3) (q + 1) := by
  rw [decodeFrom]
  rfl

theorem decodeFrom_plain (nonzero : char ≠ 0) (other : char ≠ percent) :
    decodeFrom (char :: rest) p q out = patch out q [char] >>= decodeFrom rest (p + 1) (q + 1) := by
  rw [decodeFrom.eq_def]
  simp only [if_neg nonzero, if_neg other]

theorem decodeFrom_stop {object : List UInt8} {final : Decoded} (returned : decodeFrom object p q out = .ok final) :
    p ≤ final.p ∧ final.p < p + object.length := by
  fun_induction decodeFrom object p q out with
  | case1 => cases returned
  | case2 =>
    cases returned
    simp
  | case3 p q out _ first second rest ih =>
    obtain ⟨out, _, returned⟩ := bind_ok_iff.mp returned
    have later := ih out returned
    simp only [length_cons]
    omega
  | case4 => cases returned
  | case5 p q out char rest _ _ ih =>
    obtain ⟨out, _, returned⟩ := bind_ok_iff.mp returned
    have later := ih out returned
    simp only [length_cons]
    omega

end decodeFrom

theorem whole_escape {first second : UInt8} : Whole (percent :: first :: second :: rest) ↔ Whole rest := by
  rw [Whole]
  rfl

theorem whole_plain {char : UInt8} (other : char ≠ percent) : Whole (char :: rest) ↔ Whole rest := by
  rw [Whole.eq_def]
  simp only [if_neg other]

theorem not_whole_short (short : ∀ first second more, rest = first :: second :: more → False) :
    ¬ Whole (percent :: rest) := by
  match rest with
  | [] => exact id
  | [_] => exact id
  | first :: second :: more => exact absurd rfl (short first second more)

theorem decodeFrom_whole {size p : Nat} {data text : List UInt8} (nonzero : 0 ∉ text) (whole : Whole text)
    (room : data.length + text.length ≤ size) (tail : List UInt8) :
    decodeFrom (text ++ 0 :: tail) p data.length (padded 0 size data) =
      .ok ⟨p + text.length, padded 0 size (data ++ unescape text)⟩ := by
  fun_induction unescape text generalizing data p with
  | case1 => simp [decodeFrom_zero]
  | case2 first second rest ih =>
    simp only [mem_cons, not_or] at nonzero
    simp only [length_cons] at room
    have more := @ih (p + 3) (data ++ [charToNum first <<< 4 ||| charToNum second]) nonzero.2.2.2
      (whole_escape.mp whole) (by simp; omega)
    rw [length_append, length_singleton] at more
    rw [cons_append, cons_append, cons_append, decodeFrom_escape, Heap.patch_padded (by simp; omega),
      ok_bind, more, append_assoc, singleton_append]
    simp only [length_cons]
    congr 2
    omega
  | case3 rest short => exact absurd whole (not_whole_short short)
  | case4 char rest other ih =>
    simp only [mem_cons, not_or] at nonzero
    simp only [length_cons] at room
    have more := @ih (p + 1) (data ++ [char]) nonzero.2 ((whole_plain other).mp whole) (by simp; omega)
    rw [length_append, length_singleton] at more
    rw [cons_append, decodeFrom_plain (Ne.symm nonzero.1) other, Heap.patch_padded (by simp; omega),
      ok_bind, more, append_assoc, singleton_append]
    simp only [length_cons]
    congr 2
    omega

theorem decodeFrom_not_whole {p q : Nat} {out tail : List UInt8} {final : Decoded} (nonzero : 0 ∉ text)
    (short : ¬ Whole text) (returned : decodeFrom (text ++ 0 :: tail) p q out = .ok final) :
    p + text.length < final.p := by
  fun_induction Whole text generalizing p q out with
  | case1 => exact absurd trivial short
  | case2 first second rest ih =>
    simp only [mem_cons, not_or] at nonzero
    simp only [cons_append, decodeFrom_escape] at returned
    obtain ⟨out, _, returned⟩ := bind_ok_iff.mp returned
    have later := ih nonzero.2.2.2 short returned
    simp only [length_cons]
    omega
  | case3 rest cut =>
    match rest, tail with
    | [], [] => cases returned
    | [], next :: tail =>
      simp only [cons_append, nil_append, decodeFrom_escape] at returned
      obtain ⟨out, _, returned⟩ := bind_ok_iff.mp returned
      have later := (decodeFrom_stop returned).1
      simp only [length_cons, length_nil]
      omega
    | [digit], tail =>
      simp only [cons_append, nil_append, decodeFrom_escape] at returned
      obtain ⟨out, _, returned⟩ := bind_ok_iff.mp returned
      have later := (decodeFrom_stop returned).1
      simp only [length_cons, length_nil]
      omega
    | first :: second :: more, _ => exact (cut first second more rfl).elim
  | case4 char rest other ih =>
    simp only [mem_cons, not_or] at nonzero
    rw [cons_append, decodeFrom_plain (Ne.symm nonzero.1) other] at returned
    obtain ⟨out, _, returned⟩ := bind_ok_iff.mp returned
    have later := ih nonzero.2 short returned
    rw [length_cons]
    omega

theorem urlDecode_terminated (nonzero : 0 ∉ text) (tail : List UInt8) :
    urlDecode (text ++ 0 :: tail) = decodeFrom (text ++ 0 :: tail) 0 0 (List.replicate (text.length + 1) 0) := by
  rw [urlDecode, strlen_terminated nonzero, ok_bind]

theorem urlDecode_whole (nonzero : 0 ∉ text) (whole : Whole text) (tail : List UInt8) :
    urlDecode (text ++ 0 :: tail) = .ok ⟨text.length, padded 0 (text.length + 1) (unescape text)⟩ := by
  have decoded := @decodeFrom_whole (text.length + 1) 0 [] text nonzero whole (by simp) tail
  rw [Nat.zero_add] at decoded
  rw [urlDecode_terminated nonzero]
  exact decoded

theorem urlDecode_not_whole (nonzero : 0 ∉ text) (short : ¬ Whole text) :
    ¬ ∃ final, urlDecode (text ++ [0]) = .ok final := by
  rintro ⟨final, returned⟩
  rw [urlDecode_terminated nonzero] at returned
  have beyond := decodeFrom_not_whole nonzero short returned
  have inside := (decodeFrom_stop returned).2
  rw [length_append, length_singleton] at inside
  omega

/-- `url_decode` stops at the terminator exactly when every escape has both digits. -/
theorem urlDecode_inside_iff {text : List UInt8} (terminated : 0 ∉ text) :
    ((∃ out, ∀ tail, urlDecode (text ++ 0 :: tail) = .ok ⟨text.length, out⟩) ↔ Whole text) ∧
      (¬ Whole text → ¬ ∃ final, urlDecode (text ++ [0]) = .ok final) := by
  refine ⟨⟨?_, ?_⟩, urlDecode_not_whole terminated⟩
  · rintro ⟨out, decoded⟩
    by_contra short
    exact urlDecode_not_whole terminated short ⟨_, decoded []⟩
  · intro whole
    exact ⟨_, urlDecode_whole terminated whole⟩

theorem urlDecode_inside_plus : 0 ∉ ascii "a%2B" ∧ Whole (ascii "a%2B") ∧
      ∃ out, ∀ tail, urlDecode (ascii "a%2B" ++ 0 :: tail) = .ok ⟨4, out⟩ := by
  have whole : Whole (ascii "a%2B") := by simp [ascii, Whole, percent]
  exact ⟨by decide, whole, (urlDecode_inside_iff (by decide)).1.mpr whole⟩

theorem urlDecode_cut_escape :
    urlDecode (ascii "%" ++ [0]) = .error .outside ∧ urlDecode (ascii "%4" ++ [0]) = .error .outside ∧
      urlDecode (ascii "%" ++ 0 :: ascii "AB" ++ [0]) = .ok ⟨4, [0x9a, 66]⟩ := by
  decide

theorem whole_encoded (text : List UInt8) : Whole (text.flatMap escape) := by
  induction text with
  | nil => trivial
  | cons char text ih =>
    rw [flatMap_cons]
    obtain escaped | ⟨other, plain⟩ := escape_cases char
    · rw [escaped]
      exact whole_escape.mpr ih
    · rw [plain]
      exact (whole_plain other).mpr ih

theorem unescape_encoded (text : List UInt8) : unescape (text.flatMap escape) = text := by
  induction text with
  | nil => rfl
  | cons char text ih =>
    rw [flatMap_cons]
    obtain escaped | ⟨other, plain⟩ := escape_cases char
    · rw [escaped]
      simp only [cons_append, nil_append, unescape, if_true, charToNum_digits, ih]
    · rw [plain, singleton_append, unescape.eq_def]
      simp only [if_neg other, ih]

theorem hexDigit_ne_zero {value : Nat} (digit : value < 16) : hexDigit value ≠ 0 := by
  have digits : ∀ value < 16, hexDigit value ≠ 0 := by decide
  exact digits value digit

theorem encoded_nonzero (nonzero : 0 ∉ text) : 0 ∉ text.flatMap escape := by
  rw [mem_flatMap]
  rintro ⟨char, member, zero⟩
  have bound : char.toNat < 256 := char.toNat_lt
  obtain escaped | ⟨_, plain⟩ := escape_cases char
  · simp only [escaped, mem_cons, not_mem_nil, or_false] at zero
    obtain zero | zero | zero := zero
    · exact absurd zero (by decide)
    · exact hexDigit_ne_zero (by omega) zero.symm
    · exact hexDigit_ne_zero (by omega) zero.symm
  · rw [plain, mem_singleton] at zero
    exact nonzero (zero ▸ member)

theorem encoded_length (text : List UInt8) :
    text.length ≤ (text.flatMap escape).length ∧ (text.flatMap escape).length ≤ text.length * 3 := by
  induction text with
  | nil => simp
  | cons char text ih =>
    have bounds := escape_length char
    rw [flatMap_cons, length_append, length_cons]
    omega

/-- Decoding gives back what was encoded. -/
theorem urlDecode_urlEncode {text : List UInt8} (nonzero : 0 ∉ text) (tail : List UInt8) :
    ∃ encoded decoded, urlEncode (text ++ 0 :: tail) = .ok encoded ∧ urlDecode encoded = .ok decoded ∧
      ∃ behind, decoded.out = text ++ 0 :: behind := by
  obtain ⟨atLeast, atMost⟩ := encoded_length text
  refine ⟨_, ⟨(text.flatMap escape).length, padded 0 ((text.flatMap escape).length + 1) text⟩,
    urlEncode_terminated nonzero tail, ?_, _, padded_terminated (by omega)⟩
  have decoded := urlDecode_whole (encoded_nonzero nonzero) (whole_encoded text)
  rw [unescape_encoded] at decoded
  rw [padded_terminated (by omega)]
  exact decoded _

theorem urlDecode_urlEncode_example : 0 ∉ ascii "50% + ~" ++ [200] ∧
      ∃ encoded decoded, urlEncode (ascii "50% + ~" ++ [200] ++ [0]) = .ok encoded ∧
        urlDecode encoded = .ok decoded ∧ ∃ behind, decoded.out = ascii "50% + ~" ++ [200] ++ 0 :: behind :=
  ⟨by decide, urlDecode_urlEncode (by decide) []⟩

end Libucmq.Cutils
