import Mathlib.Data.List.TakeWhile
import Libucmq.Library.Decimal

/-! C strings as lists of bytes: splitting, reading numbers and comparing. -/

namespace CString

open List Decimal

/-- One more than the greatest `int` and `long long`. -/
def intLimit : Nat := 2147483648

def longLongLimit : Nat := 9223372036854775808

def ascii (text : String) : List UInt8 := text.toList.map fun char => UInt8.ofNat char.toNat

theorem forall_byte {P : UInt8 → Prop} (all : ∀ n < 256, P (UInt8.ofNat n)) (byte : UInt8) : P byte := by
  have here := all byte.toNat byte.toNat_lt
  rwa [UInt8.ofNat_toNat] at here

/-- The nonempty runs other than `delim`; `current` is the token being read. -/
def tokensFrom (delim : UInt8) : List UInt8 → List UInt8 → List (List UInt8)
  | current, [] => if current = [] then [] else [current]
  | current, char :: rest =>
    if char = 0 then (if current = [] then [] else [current])
    else if char = delim then
      (if current = [] then tokensFrom delim [] rest else current :: tokensFrom delim [] rest)
    else tokensFrom delim (current ++ [char]) rest

def tokens (delim : UInt8) (text : List UInt8) : List (List UInt8) := tokensFrom delim [] text

def isDigit (char : UInt8) : Bool := 48 ≤ char && char ≤ 57

def hexValue (ch : UInt8) : Option UInt8 :=
  if 48 ≤ ch ∧ ch ≤ 57 then some (ch - 48)
  else if 65 ≤ ch ∧ ch ≤ 70 then some (ch - 55)
  else if 97 ≤ ch ∧ ch ≤ 102 then some (ch - 87)
  else none

/-- A read of a terminated text; `outside` is the fault of one behind the terminator. -/
def charAt {ε : Type} (outside : ε) (text : List UInt8) (index : Nat) : Except ε UInt8 :=
  match text[index]? with
  | some char => .ok char
  | none => if index = text.length then .ok 0 else .error outside

def isSpace (char : UInt8) : Bool := char = 32 || (9 ≤ char && char ≤ 13)

def leadingValue (text : List UInt8) : Nat := valueFrom 0 (text.takeWhile isDigit)

def atoll (text : List UInt8) : Int :=
  match text.dropWhile isSpace with
  | 45 :: rest => max (-9223372036854775808) (-(leadingValue rest : Int))
  | 43 :: rest => min 9223372036854775807 (leadingValue rest : Int)
  | rest => min 9223372036854775807 (leadingValue rest : Int)

def atoi (text : List UInt8) : Int := (atoll text).bmod 4294967296

/-- `strstr` for a nonempty needle, before the first zero byte. -/
def strstr (needle : List UInt8) : List UInt8 → Option (List UInt8)
  | [] => none
  | char :: rest =>
    if needle.isPrefixOf (char :: rest) then some (char :: rest)
    else if char = 0 then none
    else strstr needle rest

def sameUpTo : Nat → List UInt8 → List UInt8 → Bool
  | 0, _, _ => true
  | count + 1, left, right =>
    left.headD 0 = right.headD 0 && (left.headD 0 = 0 || sameUpTo count left.tail right.tail)

theorem sameUpTo_iff {count : Nat} {left right : List UInt8} (text : 0 ∉ left) (long : left.length ≤ count) :
    sameUpTo count left right = true ↔
      left <+: right ∧ (left.length < count → (right.drop left.length).headD 0 = 0) := by
  induction left generalizing count right with
  | nil =>
    cases count with
    | zero => simp [sameUpTo]
    | succ count => simp [sameUpTo, eq_comm]
  | cons char left ih =>
    obtain ⟨nonzero, text⟩ : char ≠ 0 ∧ 0 ∉ left := by simpa [eq_comm] using text
    cases count with
    | zero => simp at long
    | succ count =>
      simp only [length_cons, Nat.add_le_add_iff_right] at long
      cases right with
      | nil => simp [sameUpTo, nonzero]
      | cons other right =>
        simp [sameUpTo, nonzero, ih text long, cons_prefix_cons, and_assoc]

theorem takeWhile_append_stop {test : UInt8 → Bool} {stop : UInt8} (fails : test stop = false)
    (front back : List UInt8) : (front ++ stop :: back).takeWhile test = front.takeWhile test := by
  induction front with
  | nil => simp [fails]
  | cons byte front ih => simp only [cons_append, takeWhile_cons, ih]

theorem dropWhile_append_stop {test : UInt8 → Bool} {stop : UInt8} (fails : test stop = false)
    (front back : List UInt8) : (front ++ stop :: back).dropWhile test = front.dropWhile test ++ stop :: back := by
  induction front with
  | nil => simp [fails]
  | cons byte front ih =>
    simp only [cons_append, dropWhile_cons, ih]
    split <;> rfl

def Stops (stop : UInt8) : Prop := isSpace stop = false ∧ isDigit stop = false ∧ stop ≠ 45 ∧ stop ≠ 43

instance (stop : UInt8) : Decidable (Stops stop) := inferInstanceAs (Decidable (_ ∧ _ ∧ _ ∧ _))

theorem leadingValue_stop {stop : UInt8} (stops : Stops stop) (front back : List UInt8) :
    leadingValue (front ++ stop :: back) = leadingValue front := by
  simp only [leadingValue]
  rw [takeWhile_append_stop stops.2.1]

theorem tokensFrom_run {delim : UInt8} {run : List UInt8} (current rest : List UInt8)
    (clear : ∀ char ∈ run, char ≠ 0 ∧ char ≠ delim) :
    tokensFrom delim current (run ++ rest) = tokensFrom delim (current ++ run) rest := by
  induction run generalizing current with
  | nil => simp
  | cons char run ih =>
    obtain ⟨nonzero, other⟩ := clear char mem_cons_self
    rw [cons_append, tokensFrom, if_neg nonzero, if_neg other,
      ih _ fun later member => clear later (mem_cons_of_mem _ member)]
    simp

theorem digits_clear {width value : Nat} {delim : UInt8} (outside : delim.toNat < 48 ∨ 57 < delim.toNat) :
    ∀ char ∈ fixedDigits width value, char ≠ 0 ∧ char ≠ delim := by
  intro char member
  have digit := fixedDigits_digit member
  constructor
  · rintro rfl
    simp at digit
  · rintro rfl
    omega

theorem fixedDigits_ne_nil {width value : Nat} (positive : 0 < width) : fixedDigits width value ≠ [] := by
  intro empty
  have length := fixedDigits_length width value
  simp [empty] at length
  omega

theorem atoll_digits {width value : Nat} (positive : 0 < width) (bound : value < 10 ^ width)
    (small : value ≤ 9223372036854775807) : atoll (fixedDigits width value) = value := by
  have digit : ∀ char ∈ fixedDigits width value, isDigit char = true := by
    intro char member
    have range := fixedDigits_digit member
    simp [isDigit, UInt8.le_iff_toNat_le, range]
  have whole : leadingValue (fixedDigits width value) = value := by
    rw [leadingValue, takeWhile_eq_self_iff.mpr digit, valueFrom_fixedDigits,
      Nat.mod_eq_of_lt bound]
    simp
  cases width with
  | zero => omega
  | succ width =>
    have lead := fixedDigits_digit
      (show UInt8.ofNat (48 + value / 10 ^ width % 10) ∈ fixedDigits (width + 1) value by
        simp [fixedDigits])
    have space : (fixedDigits (width + 1) value).dropWhile isSpace =
        fixedDigits (width + 1) value := by
      rw [fixedDigits, dropWhile_cons_of_neg]
      simp only [isSpace, Bool.or_eq_true, decide_eq_true_eq, Bool.and_eq_true,
        UInt8.le_iff_toNat_le, ← UInt8.toNat_inj, UInt8.reduceToNat]
      omega
    rw [atoll, space]
    split
    · rename_i rest same
      have minus : (45 : UInt8) = UInt8.ofNat (48 + value / 10 ^ width % 10) := by
        rw [fixedDigits] at same
        exact (List.cons.inj same).1.symm
      rw [← minus] at lead
      simp at lead
    · rename_i rest same
      have plus : (43 : UInt8) = UInt8.ofNat (48 + value / 10 ^ width % 10) := by
        rw [fixedDigits] at same
        exact (List.cons.inj same).1.symm
      rw [← plus] at lead
      simp at lead
    · rw [whole]
      omega

theorem atoi_blank {digits : List UInt8} (present : digits ≠ []) (all : ∀ char ∈ digits, isDigit char = true)
    {stop : UInt8} (ends : isDigit stop = false) (rest : List UInt8) : atoi (32 :: (digits ++ stop :: rest)) =
      (min 9223372036854775807 (valueFrom 0 digits : Int)).bmod 4294967296 := by
  obtain ⟨lead, digits, rfl⟩ := exists_cons_of_ne_nil present
  have digit := all lead mem_cons_self
  have trimmed : (32 :: (lead :: digits ++ stop :: rest)).dropWhile isSpace = lead :: (digits ++ stop :: rest) := by
    rw [dropWhile_cons_of_pos (by decide), cons_append, dropWhile_cons_of_neg]
    intro space
    simp only [isDigit, isSpace, Bool.and_eq_true, Bool.or_eq_true, decide_eq_true_eq, UInt8.le_iff_toNat_le,
      ← UInt8.toNat_inj, UInt8.reduceToNat] at digit space
    omega
  have value : leadingValue (lead :: (digits ++ stop :: rest)) = valueFrom 0 (lead :: digits) := by
    rw [leadingValue, ← cons_append, takeWhile_append_stop ends, takeWhile_eq_self_iff.mpr all]
  rw [atoi, atoll, trimmed]
  split
  · rename_i other same
    obtain ⟨rfl, -⟩ := List.cons.inj same
    exact absurd digit (by decide)
  · rename_i other same
    obtain ⟨rfl, -⟩ := List.cons.inj same
    exact absurd digit (by decide)
  · rw [value]

end CString
