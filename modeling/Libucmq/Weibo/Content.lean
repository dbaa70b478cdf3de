import Libucmq.Library.CString

/-! The decoding of the content of a message, `content_decode` of `check_parments.c`. -/

namespace Libucmq.Request

open CString

inductive State
  | usual
  | quoted
  | quotedSecond (decoded first : UInt8)
deriving DecidableEq, Repr

def ngxUnescapeUri : Nat := 1
def ngxUnescapeRedirect : Nat := 2
def ngxUnescapeUriComponent : Nat := 0

def contentUnescapeUri (type : Nat) : State → List UInt8 → List UInt8
  | _, [] => []
  | .usual, ch :: s =>
    if ch = 63 ∧ type &&& (ngxUnescapeUri ||| ngxUnescapeRedirect) ≠ 0 then [ch]
    else if ch = 37 then contentUnescapeUri type .quoted s
    else ch :: contentUnescapeUri type .usual s
  | .quoted, ch :: s =>
    if 48 ≤ ch ∧ ch ≤ 57 then contentUnescapeUri type (.quotedSecond (ch - 48) ch) s
    else if 97 ≤ ch ||| 32 ∧ ch ||| 32 ≤ 102 then
      contentUnescapeUri type (.quotedSecond ((ch ||| 32) - 97 + 10) ch) s
    else ch :: contentUnescapeUri type .usual s
  | .quotedSecond decoded first, ch :: s =>
    if 48 ≤ ch ∧ ch ≤ 57 then
      let byte := (decoded <<< 4) + ch - 48
      if type &&& ngxUnescapeRedirect ≠ 0 then
        if 37 < byte ∧ byte < 127 then byte :: contentUnescapeUri type .usual s
        else 37 :: first :: ch :: contentUnescapeUri type .usual s
      else byte :: contentUnescapeUri type .usual s
    else if 97 ≤ ch ||| 32 ∧ ch ||| 32 ≤ 102 then
      let byte := (decoded <<< 4) + (ch ||| 32) - 97 + 10
      if type &&& ngxUnescapeUri ≠ 0 then
        if byte = 63 then [byte] else byte :: contentUnescapeUri type .usual s
      else if type &&& ngxUnescapeRedirect ≠ 0 then
        if byte = 63 then [byte]
        else if 37 < byte ∧ byte < 127 then byte :: contentUnescapeUri type .usual s
        else 37 :: first :: ch :: contentUnescapeUri type .usual s
      else byte :: contentUnescapeUri type .usual s
    else contentUnescapeUri type .usual s

inductive Decoded
  | failed
  | overflow
  | done (dst : List UInt8)
deriving DecidableEq, Repr

def contentDecode (dst : List UInt8) (src : Option (List UInt8)) : Decoded :=
  match src with
  | none => .failed
  | some src =>
    let written := contentUnescapeUri ngxUnescapeUriComponent .usual src
    if written.length ≤ dst.length then .done (written ++ dst.drop written.length) else .overflow

def contentBuffer : List UInt8 := List.replicate 256 0

def percentDecode : List UInt8 → Option (List UInt8)
  | [] => some []
  | ch :: text =>
    if ch ≠ 37 then (percentDecode text).map (ch :: ·)
    else
      match text with
      | high :: low :: rest =>
        match hexValue high, hexValue low with
        | some first, some second => (percentDecode rest).map ((first * 16 + second) :: ·)
        | _, _ => none
      | _ => none

theorem hexValue_cases {ch value : UInt8} (found : hexValue ch = some value) : (48 ≤ ch ∧ ch ≤ 57 ∧ value = ch - 48) ∨
      (¬ (48 ≤ ch ∧ ch ≤ 57) ∧ (97 ≤ ch ||| 32 ∧ ch ||| 32 ≤ 102) ∧ value = (ch ||| 32) - 97 + 10) := by
  refine forall_byte (P := fun ch => ∀ value ∈ hexValue ch, (48 ≤ ch ∧ ch ≤ 57 ∧ value = ch - 48) ∨
    (¬ (48 ≤ ch ∧ ch ≤ 57) ∧ (97 ≤ ch ||| 32 ∧ ch ||| 32 ≤ 102) ∧ value = (ch ||| 32) - 97 + 10)) ?_ ch value found
  decide +kernel

theorem shift_four (value : UInt8) : value <<< 4 = value * 16 := by
  refine forall_byte (P := fun value => value <<< 4 = value * 16) ?_ value
  decide +kernel

theorem unescape_quoted {ch value : UInt8} (found : hexValue ch = some value) (s : List UInt8) :
    contentUnescapeUri ngxUnescapeUriComponent .quoted (ch :: s) =
      contentUnescapeUri ngxUnescapeUriComponent (.quotedSecond value ch) s := by
  rw [contentUnescapeUri]
  rcases hexValue_cases found with ⟨low, high, rfl⟩ | ⟨other, letter, rfl⟩
  · rw [if_pos ⟨low, high⟩]
  · rw [if_neg other, if_pos letter]

theorem unescape_quotedSecond {ch value : UInt8} (found : hexValue ch = some value) (decoded first : UInt8)
    (s : List UInt8) : contentUnescapeUri ngxUnescapeUriComponent (.quotedSecond decoded first) (ch :: s) =
      (decoded * 16 + value) :: contentUnescapeUri ngxUnescapeUriComponent .usual s := by
  have plain (flag : Nat) : ¬ ngxUnescapeUriComponent &&& flag ≠ 0 := by simp [ngxUnescapeUriComponent]
  rw [contentUnescapeUri]
  simp only [if_neg (plain _), shift_four]
  rcases hexValue_cases found with ⟨low, high, rfl⟩ | ⟨other, letter, rfl⟩
  · rw [if_pos ⟨low, high⟩]
    simp only [UInt8.sub_eq_add_neg, UInt8.add_assoc]
  · rw [if_neg other, if_pos letter]
    simp only [UInt8.sub_eq_add_neg, UInt8.add_assoc]

theorem contentUnescapeUri_eq {text decoded : List UInt8} (found : percentDecode text = some decoded) :
    contentUnescapeUri ngxUnescapeUriComponent .usual text = decoded := by
  fun_induction percentDecode text generalizing decoded with
  | case1 => simpa [contentUnescapeUri] using found
  | case2 ch text other ih =>
    obtain ⟨later, rest, rfl⟩ := Option.map_eq_some_iff.mp found
    simp [contentUnescapeUri, ngxUnescapeUriComponent, other, ← ih rest]
  | case3 ch percent high low rest first second lowValue highValue ih =>
    obtain ⟨later, decodedRest, rfl⟩ := Option.map_eq_some_iff.mp found
    obtain rfl : ch = 37 := by simpa using percent
    rw [contentUnescapeUri, if_neg (by simp), if_pos rfl, unescape_quoted highValue, unescape_quotedSecond lowValue,
      ih decodedRest]
  | case4 => cases found
  | case5 => cases found

def written (field : List UInt8) : List UInt8 := contentUnescapeUri ngxUnescapeUriComponent .usual field

/-- The text stands in the array with a zero byte behind it. -/
def Stored (field text : List UInt8) : Prop :=
  ∃ content, contentDecode contentBuffer (some field) = .done content ∧
    content.length = 256 ∧
    content.take text.length = text ∧
    content[text.length]? = some 0

theorem stored_iff (field : List UInt8) : Stored field (written field) ↔ (written field).length ≤ 255 := by
  simp only [Stored, contentDecode, written, contentBuffer, List.length_replicate, List.drop_replicate]
  constructor
  · rintro ⟨content, done, length, -, terminated⟩
    have := (List.getElem?_eq_some_iff.mp terminated).1
    omega
  · intro short
    refine ⟨_, if_pos (by omega), ?_, by simp, ?_⟩
    · simp
      omega
    · rw [List.getElem?_append_right (Nat.le_refl _), List.getElem?_replicate, if_pos (by omega)]

theorem contentUnescapeUri_length_le (state : State) (s : List UInt8) :
    (contentUnescapeUri ngxUnescapeUriComponent state s).length ≤ s.length := by
  induction s generalizing state with
  | nil => cases state <;> simp [contentUnescapeUri]
  | cons ch s ih =>
      -- one byte is read and at most one is written
      have usual := ih .usual
      cases state with
      | usual =>
          have quoted := ih .quoted
          grind [contentUnescapeUri, ngxUnescapeUriComponent]
      | quoted =>
          have digit := ih (.quotedSecond (ch - 48) ch)
          have letter := ih (.quotedSecond ((ch ||| 32) - 97 + 10) ch)
          grind [contentUnescapeUri]
      | quotedSecond decoded first => grind [contentUnescapeUri, ngxUnescapeUriComponent]

/-- Of a field with whole escapes the decoded text is stored exactly up to 255 bytes, and of any field what is written. -/
theorem contentDecode_fits_iff (field : List UInt8) :
    ((∃ decoded, percentDecode field = some decoded ∧ Stored field decoded) ↔
      ∃ decoded, percentDecode field = some decoded ∧ decoded.length ≤ 255) ∧
    (Stored field (written field) ↔ (written field).length ≤ 255) ∧
    (written field).length ≤ field.length := by
  refine ⟨exists_congr fun decoded => and_congr_right fun found => ?_, stored_iff field,
    contentUnescapeUri_length_le .usual field⟩
  rw [← contentUnescapeUri_eq found]
  exact stored_iff field

theorem contentDecode_fits_long :
    contentDecode contentBuffer (some (List.replicate 256 97)) = .done (List.replicate 256 97) ∧
      contentDecode contentBuffer (some (List.replicate 257 97)) = .overflow := by
  decide +kernel

end Libucmq.Request
