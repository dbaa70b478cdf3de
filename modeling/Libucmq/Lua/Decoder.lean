import Libucmq.Library.Outcome
import Libucmq.Library.CString

/-! The decoder of tables in `decode_impl.c`. -/

namespace Libucmq.Decoder

open List Decimal CString Outcome

open CString (isDigit)

inductive Fault
  | outside
  | null
  | overflow
deriving DecidableEq, Repr

structure Property where
  data : Nat
  len : Nat
deriving DecidableEq, Repr

structure Table where
  x : Nat
  y : Nat
  entries : List Property
deriving DecidableEq, Repr

def strchr (text : List UInt8) (char : UInt8) (start : Nat) : Except Fault (Option Nat) :=
  if start ≤ text.length then .ok (((text.drop start).findIdx? (· = char)).map (start + ·)) else .error .outside

def found (text : List UInt8) (char : UInt8) : Except Fault Nat := do
  match ← strchr text char 0 with
  | some place => .ok place
  | none => .error .null

def digitValue (char : UInt8) : Nat :=
  if isDigit char then char.toNat - 48
  else if 97 ≤ char ∧ char ≤ 122 then char.toNat - 87
  else if 65 ≤ char ∧ char ≤ 90 then char.toNat - 55
  else 36

def valueIn (base : Nat) (text : List UInt8) : Nat :=
  (text.takeWhile fun char => decide (digitValue char < base)).foldl
      (fun total char => total * base + digitValue char) 0

def magnitude (text : List UInt8) : Nat :=
  if text.head? = some 48 then
    if (text[1]? = some 120 ∨ text[1]? = some 88) ∧ digitValue (text.getD 2 0) < 16 then valueIn 16 (text.drop 2)
    else valueIn 8 text
  else valueIn 10 text

/-- `(int)strtol(text, NULL, 0)`. -/
def strtolInt (text : List UInt8) : Int :=
  let rest := text.dropWhile isSpace
  let value : Int :=
    if rest.head? = some 45 then max (-9223372036854775808) (-magnitude rest.tail)
    else min 9223372036854775807 (magnitude (if rest.head? = some 43 then rest.tail else rest))
  value.bmod 4294967296

def overwrite (buffer : List UInt8) (start : Nat) (bytes : List UInt8) : Except Fault (List UInt8) :=
  if start + bytes.length ≤ buffer.length then
    .ok (buffer.take start ++ bytes ++ buffer.drop (start + bytes.length))
  else .error .overflow

/-- The two arrays of `str_xy` are adjacent; the second keeps its terminator. -/
def parseHeader (text : List UInt8) : Except Fault (Int × Int) := do
  let star ← found text 42
  let buffer ← overwrite (List.replicate 20 0) 0 (text.take star)
  let sign ← found text 64
  if sign < star + 1 then .error .overflow
  else do
    let buffer ← overwrite buffer 10 ((text.drop (star + 1)).take (sign - star - 1))
    if 0 ∈ buffer.drop 10 then .ok (strtolInt buffer, strtolInt (buffer.drop 10)) else .error .outside

def parseBody (text : List UInt8) : Nat → Nat → Except Fault (List Property)
  | 0, _ => .ok []
  | count + 1, tmp => do
    let ptr ← strchr text 124 tmp
    let len := match ptr with
      | none => text.length - tmp
      | some ptr => ptr - tmp
    let later ← parseBody text count (tmp + len + 1)
    .ok (⟨tmp, len⟩ :: later)

/-- `none` is the result 1. -/
def decodeImpl (text : List UInt8) : Except Fault (Option Table) := do
  let (x, y) ← parseHeader text
  if x ≤ 0 ∨ y ≤ 0 then .ok none
  else if 2147483647 < x * y then .error .overflow
  else do
    let sign ← found text 64
    let entries ← parseBody text (x * y).toNat (sign + 1)
    .ok (some ⟨x.toNat, y.toNat, entries⟩)

def slice (text : List UInt8) (property : Property) : List UInt8 := (text.drop property.data).take property.len

def joined : List (List UInt8) → List UInt8
  | [] => []
  | [field] => field
  | field :: more :: rest => field ++ 124 :: joined (more :: rest)

variable {text before : List UInt8} {char : UInt8} {field : List UInt8}

theorem strchr_append (absent : char ∉ field) (rest : List UInt8) :
    strchr (before ++ field ++ char :: rest) char before.length = .ok (some (before.length + field.length)) := by
  have place : (field ++ char :: rest).findIdx? (· = char) = some field.length := by
    rw [List.findIdx?_eq_some_iff_getElem]
    refine ⟨by simp, by simp, fun j earlier => ?_⟩
    rw [getElem_append_left earlier]
    simp only [decide_eq_true_eq]
    rintro rfl
    exact absent (getElem_mem earlier)
  rw [strchr, if_pos (by simp), append_assoc, drop_left, place]
  rfl

theorem strchr_last (absent : char ∉ field) : strchr (before ++ field) char before.length = .ok none := by
  have place : field.findIdx? (· = char) = none := by
    rw [List.findIdx?_eq_none_iff]
    intro other member
    simp only [decide_eq_false_iff_not]
    rintro rfl
    exact absent member
  rw [strchr, if_pos (by simp), drop_left, place]
  rfl

theorem slice_here (before field rest : List UInt8) :
    slice (before ++ field ++ rest) ⟨before.length, field.length⟩ = field := by
  rw [slice, append_assoc, drop_left, take_left]

/-- The first fields; a search behind the last one leaves the text. -/
theorem parseBody_eq {fields : List (List UInt8)} (present : fields ≠ []) (clear : ∀ field ∈ fields, 124 ∉ field)
    (count : Nat) (before : List UInt8) :
    if count ≤ fields.length then
      ∃ entries, parseBody (before ++ joined fields) count before.length = .ok entries ∧
        entries.map (slice (before ++ joined fields)) = fields.take count
    else parseBody (before ++ joined fields) count before.length = .error .outside := by
  induction fields generalizing count before with
  | nil => exact absurd rfl present
  | cons field rest ih =>
    cases count with
    | zero => simp [parseBody]
    | succ count =>
      have absent := clear field mem_cons_self
      cases rest with
      | nil =>
        have behind : parseBody (before ++ field) (count + 1) before.length =
            (parseBody (before ++ field) count ((before ++ field).length + 1) >>= fun later =>
              .ok (⟨before.length, field.length⟩ :: later)) := by
          simp only [parseBody, strchr_last absent, ok_bind, length_append, Nat.add_sub_cancel_left]
        cases count with
        | zero =>
          rw [if_pos (by simp), joined, behind]
          exact ⟨[⟨before.length, field.length⟩], rfl, by simpa using slice_here before field []⟩
        | succ count =>
          have stop : parseBody (before ++ field) (count + 1) ((before ++ field).length + 1) = .error .outside := by
            rw [parseBody, strchr, if_neg (by omega)]
            rfl
          rw [if_neg (by simp), joined, behind, stop]
          rfl
      | cons more rest =>
        have whole : before ++ joined (field :: more :: rest) =
            before ++ field ++ 124 :: joined (more :: rest) := by simp [joined]
        have behind : parseBody (before ++ joined (field :: more :: rest)) (count + 1) before.length =
            (parseBody ((before ++ field ++ [124]) ++ joined (more :: rest)) count
              (before ++ field ++ [124]).length >>= fun later =>
              .ok (⟨before.length, field.length⟩ :: later)) := by
          rw [whole, parseBody, strchr_append absent, ok_bind]
          simp only [Nat.add_sub_cancel_left]
          simp [Nat.add_assoc]
        have later := ih (by simp) (fun other member => clear other (mem_cons_of_mem _ member)) count
          (before ++ field ++ [124])
        rw [behind]
        by_cases enough : count ≤ (more :: rest).length
        · rw [if_pos enough] at later
          obtain ⟨entries, done, slices⟩ := later
          rw [if_pos (by simpa using enough)]
          refine ⟨⟨before.length, field.length⟩ :: entries, by rw [done]; rfl, ?_⟩
          rw [map_cons, whole, slice_here, take_succ_cons, ← slices]
          simp
        · rw [if_neg enough] at later
          rw [if_neg (by simpa using enough), later]
          rfl

theorem found_append (absent : char ∉ field) (rest : List UInt8) :
    found (field ++ char :: rest) char = .ok field.length := by
  have search := @strchr_append [] char field absent rest
  simp only [nil_append, length_nil, Nat.zero_add] at search
  rw [found, search]
  rfl

def encoded (xs ys : List UInt8) (fields : List (List UInt8)) : List UInt8 := xs ++ 42 :: (ys ++ 64 :: joined fields)

/-- An input with a star before its at sign, cut at these and at the bars behind them. -/
structure Form (text xs ys : List UInt8) (fields : List (List UInt8)) : Prop where
  text : text = encoded xs ys fields
  star : 42 ∉ xs
  first : 64 ∉ xs
  second : 64 ∉ ys
  nonempty : fields ≠ []
  clear : ∀ field ∈ fields, 124 ∉ field

/-- The twenty bytes of `str_xy` once both texts are copied. -/
def header (xs ys : List UInt8) : List UInt8 :=
  (xs ++ List.replicate (20 - xs.length) 0).take 10 ++ ys ++
    (xs ++ List.replicate (20 - xs.length) 0).drop (10 + ys.length)

def readX (xs ys : List UInt8) : Int := strtolInt (header xs ys)

def readY (xs ys : List UInt8) : Int := strtolInt ((header xs ys).drop 10)

/-- Both texts stay inside the arrays, and the second one is terminated there. -/
structure Fits (xs ys : List UInt8) : Prop where
  first : xs.length ≤ 20
  second : ys.length ≤ 10
  ended : 0 ∈ (header xs ys).drop 10

/-- At least as many fields as entries, whose number is an `int`. -/
def Enough (xs ys : List UInt8) (fields : List (List UInt8)) : Prop :=
  readX xs ys * readY xs ys ≤ 2147483647 ∧ readX xs ys * readY xs ys ≤ fields.length

theorem found_split {place : Nat} (search : found text char = .ok place) :
    text = text.take place ++ char :: text.drop (place + 1) ∧ char ∉ text.take place := by
  rw [found, strchr, if_pos (Nat.zero_le _), drop_zero] at search
  cases here : text.findIdx? (· = char) with
  | none => simp [here, bind, Except.bind] at search
  | some index =>
      simp only [here, Option.map_some, Nat.zero_add, ok_bind, Except.ok.injEq] at search
      subst search
      obtain ⟨inside, same, earlier⟩ := List.findIdx?_eq_some_iff_getElem.mp here
      simp only [decide_eq_true_eq] at same
      refine ⟨?_, fun member => ?_⟩
      · rw [← same, ← List.drop_eq_getElem_cons inside, take_append_drop]
      · obtain ⟨j, bound, byte⟩ := List.getElem_of_mem member
        rw [length_take] at bound
        rw [getElem_take] at byte
        exact earlier j (by omega) (by simpa using byte)

theorem joined_exists (rest : List UInt8) :
    ∃ fields, fields ≠ [] ∧ (∀ field ∈ fields, 124 ∉ field) ∧ joined fields = rest := by
  induction rest with
  | nil => exact ⟨[[]], by simp, by simp, rfl⟩
  | cons byte rest ih =>
      obtain ⟨fields, nonempty, clear, same⟩ := ih
      obtain ⟨field, more, rfl⟩ := exists_cons_of_ne_nil nonempty
      by_cases bar : byte = 124
      · exact ⟨[] :: field :: more, by simp, forall_mem_cons.mpr ⟨by simp, clear⟩, by simp [joined, bar, ← same]⟩
      · obtain ⟨here, later⟩ := forall_mem_cons.mp clear
        refine ⟨(byte :: field) :: more, by simp, forall_mem_cons.mpr ⟨by simp [here, Ne.symm bar], later⟩, ?_⟩
        cases more <;> simp [joined, ← same]

theorem parseHeader_form {numbers : Int × Int} (parsed : parseHeader text = .ok numbers) :
    ∃ xs ys fields, Form text xs ys fields := by
  rw [parseHeader] at parsed
  obtain ⟨star, starEq, later⟩ := bind_ok_iff.mp parsed
  obtain ⟨_, -, later⟩ := bind_ok_iff.mp later
  obtain ⟨sign, signEq, later⟩ := bind_ok_iff.mp later
  split at later
  · cases later
  · obtain ⟨whole, absent⟩ := found_split starEq
    obtain ⟨other, missing⟩ := found_split signEq
    obtain ⟨fields, nonempty, clear, same⟩ := joined_exists (text.drop (sign + 1))
    obtain ⟨more, rfl⟩ : ∃ more, sign = star + 1 + more := ⟨sign - star - 1, by omega⟩
    have front : text.take (star + 1 + more) = text.take (star + 1) ++ (text.drop (star + 1)).take more := take_add
    rw [front, mem_append, not_or] at missing
    refine ⟨text.take star, (text.drop (star + 1)).take more, fields, ?_, absent, fun member => missing.1 ?_,
      missing.2, nonempty, clear⟩
    · have behind : text.drop (star + 1) = (text.drop (star + 1)).take more ++ 64 :: text.drop (star + 1 + more + 1) := by
        have dropped := congrArg (List.drop (star + 1)) other
        rw [front, append_assoc, drop_left' (by
          have := congrArg List.length whole
          simp only [length_take, length_append, length_cons, length_drop] at this ⊢
          omega)] at dropped
        exact dropped
      rw [encoded, same, ← behind]
      exact whole
    · exact take_subset_take_left _ (by omega) member

namespace Form

variable {xs ys : List UInt8} {fields : List (List UInt8)} (form : Form text xs ys fields)

include form

theorem found_sign : found text 64 = .ok (xs.length + 1 + ys.length) := by
  have absent : (64 : UInt8) ∉ xs ++ 42 :: ys := by simp [form.first, form.second]
  have search := found_append absent (joined fields)
  rw [form.text, encoded, show xs ++ 42 :: (ys ++ 64 :: joined fields) = xs ++ 42 :: ys ++ 64 :: joined fields by simp,
    search]
  simp
  omega

theorem parseHeader_ok_iff {numbers : Int × Int} :
    parseHeader text = .ok numbers ↔ Fits xs ys ∧ numbers = (readX xs ys, readY xs ys) := by
  have star : found text 42 = .ok xs.length := by
    rw [form.text]
    exact found_append form.star _
  have first : text.take xs.length = xs := by simp [form.text, encoded]
  have second : (text.drop (xs.length + 1)).take ys.length = ys := by
    rw [form.text, encoded, drop_append, drop_of_length_le (by omega)]
    simp
  rw [parseHeader, star, ok_bind, first, form.found_sign]
  by_cases xFits : xs.length ≤ 20
  · have copied : overwrite (List.replicate 20 0) 0 xs = .ok (xs ++ List.replicate (20 - xs.length) 0) := by
      rw [overwrite, if_pos (by simpa using xFits)]
      simp only [take_zero, nil_append, Nat.zero_add, drop_replicate]
    rw [copied, ok_bind, ok_bind, if_neg (by omega), show xs.length + 1 + ys.length - xs.length - 1 = ys.length by omega,
      second]
    by_cases yFits : ys.length ≤ 10
    · rw [overwrite, if_pos (by simp; omega), ok_bind]
      change (if 0 ∈ (header xs ys).drop 10 then _ else _) = _ ↔ _
      split
      · next ended =>
          rw [Except.ok.injEq, eq_comm]
          exact ⟨fun same => ⟨⟨xFits, yFits, ended⟩, same⟩, fun both => both.2⟩
      · next unended => exact ⟨fun stop => (nomatch stop), fun both => absurd both.1.ended unended⟩
    · rw [overwrite, if_neg (by simp; omega)]
      exact ⟨fun stop => (nomatch stop), fun both => absurd both.1.second yFits⟩
  · rw [overwrite, if_neg (by simpa using xFits)]
    exact ⟨fun stop => (nomatch stop), fun both => absurd both.1.first xFits⟩

theorem parseBody_fields (count : Nat) :
    if count ≤ fields.length then
      ∃ entries, parseBody text count (xs.length + 1 + ys.length + 1) = .ok entries ∧
        entries.map (slice text) = fields.take count
    else parseBody text count (xs.length + 1 + ys.length + 1) = .error .outside := by
  have body := parseBody_eq form.nonempty form.clear count (xs ++ 42 :: (ys ++ [64]))
  have whole : xs ++ 42 :: (ys ++ [64]) ++ joined fields = text := by simp [form.text, encoded]
  have start : List.length (xs ++ 42 :: (ys ++ [64])) = xs.length + 1 + ys.length + 1 := by
    simp
    omega
  rwa [whole, start] at body

theorem parseBody_enough (enough : Enough xs ys fields) : ∃ entries,
    parseBody text (readX xs ys * readY xs ys).toNat (xs.length + 1 + ys.length + 1) = .ok entries ∧
      entries.map (slice text) = fields.take (readX xs ys * readY xs ys).toNat := by
  have body := form.parseBody_fields (readX xs ys * readY xs ys).toNat
  have count := enough.2
  rwa [if_pos (by omega)] at body

/-- What is returned, as far as it is. -/
theorem decodeImpl_ok_iff {result : Option Table} :
    decodeImpl text = .ok result ↔ Fits xs ys ∧
      ((readX xs ys ≤ 0 ∨ readY xs ys ≤ 0) ∧ result = none ∨
        ¬ (readX xs ys ≤ 0 ∨ readY xs ys ≤ 0) ∧ Enough xs ys fields ∧ ∃ entries,
          parseBody text (readX xs ys * readY xs ys).toNat (xs.length + 1 + ys.length + 1) = .ok entries ∧
          result = some ⟨(readX xs ys).toNat, (readY xs ys).toNat, entries⟩) := by
  have body := form.parseBody_fields (readX xs ys * readY xs ys).toNat
  rw [decodeImpl, bind_ok_iff]
  simp only [form.parseHeader_ok_iff, Prod.exists, Prod.mk.injEq]
  constructor
  · rintro ⟨_, _, ⟨fits, rfl, rfl⟩, returned⟩
    refine ⟨fits, ?_⟩
    split at returned
    · cases returned
      exact .inl ⟨‹_›, rfl⟩
    · next positive =>
        split at returned
        · cases returned
        · rw [form.found_sign, ok_bind] at returned
          obtain ⟨entries, parsed, last⟩ := bind_ok_iff.mp returned
          cases last
          refine .inr ⟨positive, ⟨by omega, ?_⟩, entries, parsed, rfl⟩
          by_contra few
          rw [if_neg (by omega), parsed] at body
          cases body
  · rintro ⟨fits, ⟨negative, rfl⟩ | ⟨positive, enough, entries, parsed, rfl⟩⟩
    · exact ⟨_, _, ⟨fits, rfl, rfl⟩, if_pos negative⟩
    · refine ⟨_, _, ⟨fits, rfl, rfl⟩, ?_⟩
      have product := enough.1
      rw [if_neg positive, if_neg (by omega), form.found_sign, ok_bind, parsed]
      rfl

end Form

end Libucmq.Decoder
