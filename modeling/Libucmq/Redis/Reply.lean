import Mathlib.Tactic.IntervalCases
import Libucmq.Redis.Prefix

/-! How the client of `redis_parser.c` cuts off the first reply. -/

namespace Libucmq.Redis

open List Decimal CString

variable {byte head : UInt8} {text buf : List UInt8}

inductive ReplyFault
  | nullAddress
deriving DecidableEq, Repr

def replyDigits (value : Nat) : List UInt8 → Option Nat
  | [] => none
  | byte :: rest =>
    if byte = 13 then some value
    else if isDigit byte then replyDigits (value * 10 + (byte.toNat - 48)) rest
    else none

def replySign : List UInt8 → Int × List UInt8
  | 45 :: rest => (-1, rest)
  | 43 :: rest => (1, rest)
  | text => (1, text)

/-- The product and the sums of the loop are taken in the 64 bits of a `long long`. -/
def redisReplyStrToLl (text : List UInt8) : Int :=
  match replyDigits 0 (replySign text).2 with
  | some value => ((replySign text).1 * value).bmod 18446744073709551616
  | none => -1

def crlfFrom (buf : List UInt8) (start : Nat) : Option Nat := (findCrlf (buf.drop start)).map (start + ·)

def replyMembers (buf : List UInt8) : Nat → Nat → Option Nat
  | 0, cur => some cur
  | lines + 1, cur =>
    match crlfFrom buf cur with
    | none => none
    | some line =>
      if buf.getD (line + 2) 0 ≠ 36 then none
      else
        let bytes := redisReplyStrToLl (buf.drop (line + 3))
        if bytes = -1 then none
        else
          match crlfFrom buf (line + 2) with
          | none => none
          | some head =>
            match crlfFrom buf (head + 2) with
            | none => none
            | some second =>
              if (second : Int) - head - 2 ≠ bytes then none else replyMembers buf lines second

def bulkReply (buf : List UInt8) : Except ReplyFault (Option Nat) :=
  if redisReplyStrToLl (buf.drop 1) = -1 then .ok ((crlfFrom buf 0).map fun _ => 5)
  else
    match crlfFrom buf 0 with
    | none => .error .nullAddress
    | some first => .ok ((crlfFrom buf (first + 2)).map (· + 2))

/-- `none` for the return value 0, `some reply_len` for 1; a zero follows. -/
def firstReplyOk (buf : List UInt8) : Except ReplyFault (Option Nat) :=
  if buf.length < 4 then .ok none
  else if buf.headD 0 = 43 ∨ buf.headD 0 = 45 ∨ buf.headD 0 = 58 then .ok ((crlfFrom buf 0).map (· + 2))
  else if buf.headD 0 = 36 then bulkReply buf
  else if buf.headD 0 = 42 then
    let lines := redisReplyStrToLl (buf.drop 1)
    if lines ≤ 0 then .ok ((crlfFrom buf 0).map (· + 2))
    else .ok ((replyMembers buf lines.toNat 0).map (· + 2))
  else .ok none

structure ReplyLine where
  text : List UInt8
  unbroken : 13 ∉ text ∧ 10 ∉ text

inductive Reply
  | status (line : ReplyLine)
  | error (line : ReplyLine)
  | integer (value : Int)
  | bulk (data : List UInt8)
  | nil
  | nilArray
  | array (members : List (List UInt8))

def membersText : List (List UInt8) → List UInt8
  | [] => [13, 10]
  | data :: rest => 13 :: 10 :: 36 :: (numeral data.length ++ 13 :: 10 :: (data ++ membersText rest))

def Reply.encode : Reply → List UInt8
  | .status line => 43 :: (line.text ++ [13, 10])
  | .error line => 45 :: (line.text ++ [13, 10])
  | .integer value => 58 :: ((if value < 0 then [45] else []) ++ numeral value.natAbs ++ [13, 10])
  | .bulk data => 36 :: (numeral data.length ++ 13 :: 10 :: (data ++ [13, 10]))
  | .nil => [36, 45, 49, 13, 10]
  | .nilArray => [42, 45, 49, 13, 10]
  | .array members => 42 :: (numeral members.length ++ membersText members)

def Searchable (text : List UInt8) : Prop := 0 ∉ text ∧ ¬ [13, 10] <:+: text

theorem searchable_cons :
    Searchable (byte :: text) ↔ byte ≠ 0 ∧ ¬(byte = 13 ∧ text.headD 0 = 10) ∧ Searchable text := by
  have head : [13, 10] <+: byte :: text ↔ byte = 13 ∧ text.headD 0 = 10 := by
    cases text with
    | nil => simp
    | cons next text => simp [eq_comm]
  simp only [Searchable, mem_cons, not_or, infix_cons_iff, head]
  tauto

theorem searchable_of_not_mem (unbroken : 13 ∉ text) : Searchable text ↔ 0 ∉ text :=
  and_iff_left fun inside => unbroken (inside.subset mem_cons_self)

theorem findCrlf_line_iff (text rest : List UInt8) :
    findCrlf (text ++ 13 :: 10 :: rest) = some text.length ↔ Searchable text := by
  induction text with
  | nil => simp [findCrlf, Searchable]
  | cons byte text ih =>
    have next : (text ++ 13 :: 10 :: rest).headD 0 = 10 ↔ text.headD 0 = 10 := by cases text <;> simp
    rw [searchable_cons, ← ih, cons_append, findCrlf]
    simp only [next]
    by_cases zero : byte = 0
    · simp [zero]
    · by_cases line : byte = 13 ∧ text.headD 0 = 10
      · rw [if_neg zero, if_pos line]
        constructor
        · intro same
          simp at same
        · rintro ⟨-, other, -⟩
          exact absurd line other
      · rw [if_neg zero, if_neg line]
        simp only [Option.map_eq_some_iff, length_cons, Nat.add_right_cancel_iff, exists_eq_right,
          ne_eq, zero, line, not_false_eq_true, true_and]

theorem findCrlf_line {rest : List UInt8} (searchable : Searchable text) :
    findCrlf (text ++ 13 :: 10 :: rest) = some text.length := (findCrlf_line_iff text rest).mpr searchable

theorem numeral_clear (outside : byte.toNat < 48) {value : Nat} : byte ∉ numeral value := by
  intro member
  have := numeral_digit member
  omega

theorem numeral_searchable (value : Nat) : Searchable (numeral value) :=
  (searchable_of_not_mem (numeral_clear (by decide))).mpr (numeral_clear (by decide))

theorem headed_searchable (nonzero : byte ≠ 0) (other : byte ≠ 13) : Searchable (byte :: text) ↔ Searchable text := by
  rw [searchable_cons]
  tauto

theorem replyDigits_append {digits : List UInt8} (all : ∀ byte ∈ digits, isDigit byte = true)
    (value : Nat) (rest : List UInt8) :
    replyDigits value (digits ++ rest) = replyDigits (valueFrom value digits) rest := by
  induction digits generalizing value with
  | nil => rfl
  | cons byte digits ih =>
    have digit := all byte mem_cons_self
    have other : byte ≠ 13 := by
      rintro rfl
      exact absurd digit (by decide)
    rw [cons_append, replyDigits, if_neg other, if_pos digit,
      ih fun later member => all later (mem_cons_of_mem _ member)]
    rfl

theorem numeral_isDigit (value : Nat) : ∀ byte ∈ numeral value, isDigit byte = true := by
  intro byte member
  have range := numeral_digit member
  simp [isDigit, UInt8.le_iff_toNat_le, range]

theorem replySign_digit (digit : isDigit byte = true) (text : List UInt8) :
    replySign (byte :: text) = (1, byte :: text) := by
  rw [replySign]
  · rintro rest ⟨⟩
    exact absurd digit (by decide)
  · rintro rest ⟨⟩
    exact absurd digit (by decide)

theorem redisReplyStrToLl_numeral {value : Nat} (small : value < longLongLimit) (rest : List UInt8) :
    redisReplyStrToLl (numeral value ++ 13 :: rest) = value := by
  have unsigned : replySign (numeral value ++ 13 :: rest) = (1, numeral value ++ 13 :: rest) := by
    have nonempty := numeral_length_pos value
    have digit := numeral_isDigit value
    cases printed : numeral value with
    | nil => simp [printed] at nonempty
    | cons byte digits => exact replySign_digit (digit byte (printed ▸ mem_cons_self)) _
  rw [redisReplyStrToLl, unsigned]
  simp only [replyDigits_append (numeral_isDigit value), replyDigits, valueFrom_numeral, if_true, Int.one_mul]
  rw [longLongLimit] at small
  exact Int.bmod_eq_of_le (by omega) (by omega)

theorem redisReplyStrToLl_received {value : Nat} (small : value < longLongLimit) (rest : List UInt8) {count : Nat}
    (received : (numeral value).length < count) :
    redisReplyStrToLl ((numeral value ++ 13 :: rest).take count) = value := by
  obtain ⟨more, rfl⟩ : ∃ more, count = (numeral value).length + (more + 1) :=
    ⟨count - (numeral value).length - 1, by omega⟩
  rw [take_length_add_append, take_succ_cons, redisReplyStrToLl_numeral small]

theorem crlfFrom_take {start index : Nat} (found : crlfFrom buf start = some index) (count : Nat) :
    crlfFrom (buf.take count) start = if index + 2 ≤ count then some index else none := by
  simp only [crlfFrom, Option.map_eq_some_iff] at found
  obtain ⟨distance, found, rfl⟩ := found
  rw [crlfFrom, drop_take, findCrlf_take found]
  by_cases reaches : start + distance + 2 ≤ count
  · rw [if_pos reaches, if_pos (by omega)]
    rfl
  · rw [if_neg reaches, if_neg (by omega)]
    rfl

theorem crlfFrom_short {buf : List UInt8} {start index count : Nat} (found : crlfFrom buf start = some index)
    (short : count < index + 2) : crlfFrom (buf.take count) start = none := by
  rw [crlfFrom_take found, if_neg (by omega)]

theorem crlfFrom_taken {start index other count : Nat} (found : crlfFrom buf start = some index)
    (part : crlfFrom (buf.take count) start = some other) : other = index ∧ index + 2 ≤ count := by
  rw [crlfFrom_take found] at part
  split at part
  · exact ⟨(Option.some.inj part).symm, ‹_›⟩
  · simp at part

def MemberAt (buf : List UInt8) (cur second : Nat) : Prop :=
  ∃ line head : Nat, crlfFrom buf cur = some line ∧ buf.getD (line + 2) 0 = 36 ∧
    redisReplyStrToLl (buf.drop (line + 3)) = (second : Int) - head - 2 ∧
    redisReplyStrToLl (buf.drop (line + 3)) ≠ -1 ∧
    crlfFrom buf (line + 2) = some head ∧ crlfFrom buf (head + 2) = some second

theorem replyMembers_succ {lines cur final : Nat} : replyMembers buf (lines + 1) cur = some final ↔
      ∃ second, MemberAt buf cur second ∧ replyMembers buf lines second = some final := by
  constructor
  · intro read
    simp only [replyMembers] at read
    split at read
    · simp at read
    · rename_i line lineEq
      split at read
      · simp at read
      · rename_i dollar
        split at read
        · simp at read
        · rename_i number
          split at read
          · simp at read
          · rename_i head headEq
            split at read
            · simp at read
            · rename_i second secondEq
              split at read
              · simp at read
              · rename_i fits
                exact ⟨second, ⟨line, head, lineEq, not_not.mp dollar, (not_not.mp fits).symm, number, headEq,
                  secondEq⟩, read⟩
  · rintro ⟨second, ⟨line, head, lineEq, dollar, fits, number, headEq, secondEq⟩, read⟩
    simp only [replyMembers, lineEq, headEq, secondEq]
    rw [if_neg (not_not.mpr dollar), if_neg number, if_neg (not_not.mpr fits.symm), read]

theorem MemberAt.taken {cur second other count : Nat} (member : MemberAt buf cur second)
    (part : MemberAt (buf.take count) cur other) : other = second ∧ second + 2 ≤ count := by
  obtain ⟨line, head, lineEq, -, -, -, headEq, secondEq⟩ := member
  obtain ⟨line', head', linePart, -, -, -, headPart, secondPart⟩ := part
  obtain ⟨rfl, -⟩ := crlfFrom_taken lineEq linePart
  obtain ⟨rfl, -⟩ := crlfFrom_taken headEq headPart
  exact crlfFrom_taken secondEq secondPart

theorem replyMembers_short {buf : List UInt8} {lines cur final count : Nat} (nonempty : 0 < lines)
    (read : replyMembers buf lines cur = some final) (short : count < final + 2) :
    replyMembers (buf.take count) lines cur = none := by
  induction lines generalizing cur with
  | zero => omega
  | succ lines ih =>
    obtain ⟨second, member, later⟩ := replyMembers_succ.mp read
    rw [Option.eq_none_iff_forall_ne_some]
    intro other part
    obtain ⟨next, taken, partLater⟩ := replyMembers_succ.mp part
    obtain ⟨rfl, received⟩ := member.taken taken
    by_cases last : lines = 0
    · subst last
      obtain rfl : next = final := Option.some.inj later
      omega
    · rw [ih (by omega) later] at partLater
      simp at partLater

theorem replyMembers_none {lines cur : Nat} (nonempty : 0 < lines) (absent : crlfFrom buf cur = none) :
    replyMembers buf lines cur = none := by
  obtain ⟨less, rfl⟩ : ∃ less, lines = less + 1 := ⟨lines - 1, by omega⟩
  simp only [replyMembers, absent]

theorem membersText_head (members : List (List UInt8)) : ∃ rest, membersText members = 13 :: 10 :: rest := by
  cases members with
  | nil => exact ⟨[], rfl⟩
  | cons data members => exact ⟨_, rfl⟩

theorem crlfFrom_line_iff {buf text rest : List UInt8} {start : Nat}
    (here : buf.drop start = text ++ 13 :: 10 :: rest) :
    crlfFrom buf start = some (start + text.length) ↔ Searchable text := by
  rw [← findCrlf_line_iff text rest, crlfFrom, here, Option.map_eq_some_iff]
  simp

theorem drop_behind {buf front back : List UInt8} {start : Nat} (here : buf.drop start = front ++ back) :
    buf.drop (start + front.length) = back := by
  rw [← drop_drop, here, drop_left]

theorem memberAt_iff {buf data rest : List UInt8} {cur : Nat} (small : data.length < longLongLimit)
    (here : buf.drop cur = 13 :: 10 :: 36 :: (numeral data.length ++ 13 :: 10 :: (data ++ 13 :: 10 :: rest)))
    (second : Nat) : MemberAt buf cur second ↔
      second = cur + 5 + (numeral data.length).length + data.length ∧ Searchable data := by
  have line : crlfFrom buf cur = some cur := by
    have found := (@crlfFrom_line_iff buf [] _ cur here).mpr (by simp [Searchable])
    simpa using found
  have dollar : buf.getD (cur + 2) 0 = 36 := by
    have third : (buf.drop cur).getD 2 0 = 36 := by rw [here]; rfl
    simpa [getD_eq_getElem?_getD, List.getElem?_drop] using third
  have number : redisReplyStrToLl (buf.drop (cur + 3)) = data.length := by
    rw [show buf.drop (cur + 3) = _ from @drop_behind buf [13, 10, 36] _ cur here]
    exact redisReplyStrToLl_numeral small _
  have head : crlfFrom buf (cur + 2) = some (cur + 2 + (36 :: numeral data.length).length) :=
    (crlfFrom_line_iff (@drop_behind buf [13, 10] _ cur here)).mpr
      ((headed_searchable (by decide) (by decide)).mpr (numeral_searchable _))
  have body : buf.drop (cur + 5 + (numeral data.length).length) = data ++ 13 :: 10 :: rest := by
    have behind := @drop_behind buf ([13, 10, 36] ++ numeral data.length ++ [13, 10]) _ cur (by simpa using here)
    rw [← behind]
    congr 1
    simp
    omega
  constructor
  · rintro ⟨line', head', lineEq, -, fits, -, headEq, secondEq⟩
    obtain rfl : cur = line' := Option.some.inj (line.symm.trans lineEq)
    obtain rfl := Option.some.inj (head.symm.trans headEq)
    rw [number] at fits
    simp only [length_cons] at fits secondEq
    have place : second = cur + 5 + (numeral data.length).length + data.length := by omega
    refine ⟨place, (crlfFrom_line_iff body).mp ?_⟩
    rw [← place, ← secondEq]
    congr 1
    omega
  · rintro ⟨rfl, searchable⟩
    refine ⟨cur, _, line, dollar, ?_, by rw [number]; omega, head, ?_⟩
    · rw [number]
      simp only [length_cons]
      omega
    · rw [← (crlfFrom_line_iff body).mpr searchable]
      congr 1
      simp only [length_cons]
      omega

theorem replyMembers_iff {buf tail : List UInt8} {members : List (List UInt8)} {cur : Nat}
    (here : buf.drop cur = membersText members ++ tail) (small : ∀ data ∈ members, data.length < longLongLimit)
    (final : Nat) : replyMembers buf members.length cur = some final ↔
      final + 2 = cur + (membersText members).length ∧ ∀ data ∈ members, Searchable data := by
  induction members generalizing cur with
  | nil =>
    simp [replyMembers, membersText]
    omega
  | cons data members ih =>
    obtain ⟨rest, head⟩ := membersText_head members
    obtain ⟨first, others⟩ := forall_mem_cons.mp small
    have member := @memberAt_iff buf data (rest ++ tail) cur first (by simpa [membersText, head] using here)
    have behind : buf.drop (cur + 5 + (numeral data.length).length + data.length) =
        membersText members ++ tail := by
      have dropped := @drop_behind buf ([13, 10, 36] ++ numeral data.length ++ [13, 10] ++ data) _ cur
        (by simpa [membersText] using here)
      rw [← dropped]
      congr 1
      simp
      omega
    have length : (membersText (data :: members)).length =
        5 + (numeral data.length).length + data.length + (membersText members).length := by
      simp [membersText]
      omega
    simp only [length_cons, replyMembers_succ, member, and_assoc, exists_eq_left, ih behind others, length,
      forall_mem_cons]
    constructor
    · rintro ⟨clean, place, rest⟩
      exact ⟨by omega, clean, rest⟩
    · rintro ⟨place, clean, rest⟩
      exact ⟨clean, by omega, rest⟩

/-- The whole is accepted with its length, of a part nothing. -/
def Framed (reply : List UInt8) : Prop :=
  (∀ tail, firstReplyOk (reply ++ tail) = .ok (some reply.length)) ∧
    ∀ count < reply.length, firstReplyOk (reply.take count) = .ok none

theorem firstReplyOk_short (short : buf.length < 4) : firstReplyOk buf = .ok none := if_pos short

theorem firstReplyOk_line (kind : head = 43 ∨ head = 45 ∨ head = 58) (long : 3 ≤ text.length) :
    firstReplyOk (head :: text) = .ok ((crlfFrom (head :: text) 0).map (· + 2)) := by
  rw [firstReplyOk, if_neg (by simp; omega), if_pos (by simpa using kind)]

theorem firstReplyOk_bulk (long : 3 ≤ text.length) : firstReplyOk (36 :: text) = bulkReply (36 :: text) := by
  rw [firstReplyOk, if_neg (by simp; omega), if_neg (by simp), if_pos (by simp)]

theorem firstReplyOk_array (long : 3 ≤ text.length) : firstReplyOk (42 :: text) =
      if redisReplyStrToLl text ≤ 0 then .ok ((crlfFrom (42 :: text) 0).map (· + 2))
      else .ok ((replyMembers (42 :: text) (redisReplyStrToLl text).toNat 0).map (· + 2)) := by
  rw [firstReplyOk, if_neg (by simp; omega), if_neg (by simp), if_neg (by simp), if_pos (by simp)]
  rfl

theorem take_long {count : Nat} (long : ¬ ((head :: text).take count).length < 4) :
    ∃ less, count = less + 1 ∧ 3 ≤ (text.take less).length ∧ (head :: text).take count = head :: text.take less := by
  cases count with
  | zero => simp at long
  | succ less =>
    rw [take_succ_cons, length_cons] at long
    exact ⟨less, rfl, by omega, take_succ_cons⟩

theorem line_framed_iff (kind : head = 43 ∨ head = 45 ∨ head = 58)
    (unbroken : 13 ∉ text) : Framed (head :: (text ++ [13, 10])) ↔ text ≠ [] ∧ 0 ∉ text := by
  have plain : head ≠ 0 ∧ head ≠ 13 := by rcases kind with rfl | rfl | rfl <;> decide
  have search (tail : List UInt8) :
      crlfFrom (head :: (text ++ [13, 10]) ++ tail) 0 = some (text.length + 1) ↔ 0 ∉ text := by
    have found := @crlfFrom_line_iff (head :: (text ++ [13, 10]) ++ tail) (head :: text) tail 0 (by simp)
    rw [headed_searchable plain.1 plain.2, searchable_of_not_mem unbroken] at found
    simpa using found
  constructor
  · rintro ⟨whole, -⟩
    have accepted := whole []
    rw [append_nil] at accepted
    by_cases empty : text = []
    · subst empty
      rw [firstReplyOk_short (by simp)] at accepted
      simp at accepted
    · have long := length_pos_iff.mpr empty
      rw [firstReplyOk_line kind (by simp; omega)] at accepted
      refine ⟨empty, (search []).mp ?_⟩
      simpa using accepted
  · rintro ⟨nonempty, nonzero⟩
    have long := length_pos_iff.mpr nonempty
    constructor
    · intro tail
      have found := (search tail).mpr nonzero
      rw [cons_append] at found ⊢
      rw [firstReplyOk_line kind (by simp; omega), found]
      simp
    · intro count part
      have found := (search []).mpr nonzero
      rw [append_nil] at found
      by_cases short : ((head :: (text ++ [13, 10])).take count).length < 4
      · exact firstReplyOk_short short
      · obtain ⟨less, rfl, enough, taken⟩ := take_long short
        have absent := @crlfFrom_short _ _ _ (less + 1) found (by simp at part; omega)
        rw [taken] at absent ⊢
        rw [firstReplyOk_line kind enough, absent]
        rfl

theorem nil_framed (kind : head = 36 ∨ head = 42) : Framed [head, 45, 49, 13, 10] := by
  constructor
  · intro tail
    have found : crlfFrom ([head, 45, 49, 13, 10] ++ tail) 0 = some 3 := by
      rcases kind with rfl | rfl <;> rfl
    rcases kind with rfl | rfl
    · rw [cons_append, firstReplyOk_bulk (by simp), bulkReply, if_pos (by rfl)]
      rw [cons_append] at found
      rw [found]
      rfl
    · rw [cons_append, firstReplyOk_array (by simp),
        if_pos (le_of_eq_of_le (show redisReplyStrToLl ([45, 49, 13, 10] ++ tail) = -1 from rfl) (by decide))]
      rw [cons_append] at found
      rw [found]
      rfl
  · intro count part
    simp only [length_cons, length_nil] at part
    rcases kind with rfl | rfl <;> interval_cases count <;> rfl

section

variable (value : Nat) (rest : List UInt8)

theorem header_line {head : UInt8} (nonzero : head ≠ 0) (other : head ≠ 13) :
    crlfFrom (head :: (numeral value ++ 13 :: 10 :: rest)) 0 = some ((numeral value).length + 1) := by
  have found := @crlfFrom_line_iff (head :: (numeral value ++ 13 :: 10 :: rest))
    (head :: numeral value) rest 0 rfl
  rw [headed_searchable nonzero other] at found
  simpa using found.mpr (numeral_searchable value)

theorem header_behind (head : UInt8) :
    (head :: (numeral value ++ 13 :: 10 :: rest)).drop ((numeral value).length + 3) = rest := by
  have dropped := @drop_behind (head :: (numeral value ++ 13 :: 10 :: rest))
    (head :: (numeral value ++ [13, 10])) rest 0 (by simp)
  rw [← dropped]
  simp

variable {value} (small : value < longLongLimit)

include small

theorem firstReplyOk_announced : firstReplyOk (36 :: (numeral value ++ 13 :: 10 :: rest)) =
      .ok ((crlfFrom (36 :: (numeral value ++ 13 :: 10 :: rest))
        ((numeral value).length + 3)).map (· + 2)) := by
  have digits := numeral_length_pos value
  have number : redisReplyStrToLl ((36 :: (numeral value ++ 13 :: 10 :: rest)).drop 1) ≠ -1 := by
    rw [drop_one, tail_cons, redisReplyStrToLl_numeral small]
    omega
  rw [firstReplyOk_bulk (by simp; omega), bulkReply, if_neg number, header_line _ _ (by decide) (by decide)]

theorem firstReplyOk_cut (long : 2 ≤ (numeral value).length) :
    firstReplyOk ((36 :: (numeral value ++ 13 :: 10 :: rest)).take ((numeral value).length + 2)) =
      .error .nullAddress := by
  have absent := @crlfFrom_short _ _ _ ((numeral value).length + 2)
    (@header_line value rest 36 (by decide) (by decide)) (by omega)
  have number := @redisReplyStrToLl_received value small (10 :: rest) ((numeral value).length + 1) (by omega)
  rw [take_succ_cons] at absent ⊢
  rw [firstReplyOk_bulk (by simp; omega), bulkReply, absent, if_neg]
  rw [drop_one, tail_cons, number]
  omega

end

theorem bulk_framed_iff {data : List UInt8} (small : data.length < longLongLimit) :
    Framed (Reply.bulk data).encode ↔ data.length < 10 ∧ Searchable data := by
  have digits := numeral_length_pos data.length
  have second (tail : List UInt8) :=
    @crlfFrom_line_iff (36 :: (numeral data.length ++ 13 :: 10 :: (data ++ 13 :: 10 :: tail))) data tail
      ((numeral data.length).length + 3) (header_behind _ _ _)
  have length : (Reply.bulk data).encode.length = (numeral data.length).length + 3 + data.length + 2 := by
    simp [Reply.encode]
    omega
  rw [← numeral_length_eq_one_iff]
  constructor
  · rintro ⟨whole, part⟩
    constructor
    · by_contra more
      have waited := part ((numeral data.length).length + 2) (by omega)
      rw [Reply.encode, firstReplyOk_cut _ small (by omega)] at waited
      simp at waited
    · have accepted := whole []
      rw [append_nil, length, Reply.encode, firstReplyOk_announced _ small] at accepted
      apply (second []).mp
      simpa using accepted
  · rintro ⟨one, searchable⟩
    constructor
    · intro tail
      have shape : (Reply.bulk data).encode ++ tail =
          36 :: (numeral data.length ++ 13 :: 10 :: (data ++ 13 :: 10 :: tail)) := by
        simp [Reply.encode]
      rw [shape, firstReplyOk_announced _ small, (second tail).mpr searchable, length]
      rfl
    · intro count part
      by_cases short : ((Reply.bulk data).encode.take count).length < 4
      · exact firstReplyOk_short short
      · have four : 4 ≤ count := by
          rw [length_take] at short
          omega
        have absent := @crlfFrom_short _ _ _ count ((second []).mpr searchable) (by omega)
        have line := crlfFrom_take (@header_line data.length (data ++ [13, 10]) 36 (by decide) (by decide)) count
        rw [if_pos (by omega)] at line
        obtain ⟨less, rfl, enough, taken⟩ := take_long short
        have number := @redisReplyStrToLl_received data.length small (10 :: (data ++ [13, 10])) less (by omega)
        rw [Reply.encode, taken, firstReplyOk_bulk enough, bulkReply, ← taken, if_neg, line]
        · exact congrArg (fun second => Except.ok (second.map (· + 2))) absent
        · rw [taken, drop_one, tail_cons, number]
          omega

theorem replyMembers_line {lines start line : Nat} (first : crlfFrom buf start = some line)
    (again : crlfFrom buf line = some line) :
    replyMembers buf (lines + 1) start = replyMembers buf (lines + 1) line := by
  simp only [replyMembers, first, again]

theorem firstReplyOk_members {members : List (List UInt8)} (nonempty : members ≠ [])
    (few : members.length < longLongLimit) (text : List UInt8) :
    firstReplyOk (42 :: (numeral members.length ++ 13 :: 10 :: text)) =
      .ok ((replyMembers (42 :: (numeral members.length ++ 13 :: 10 :: text)) members.length
        ((numeral members.length).length + 1)).map (· + 2)) := by
  have digits := numeral_length_pos members.length
  have count := length_pos_iff.mpr nonempty
  have again : crlfFrom (42 :: (numeral members.length ++ 13 :: 10 :: text))
      ((numeral members.length).length + 1) = some ((numeral members.length).length + 1) :=
    (@crlfFrom_line_iff _ [] text _ (by simp)).mpr (by simp [Searchable])
  rw [firstReplyOk_array (by simp; omega), redisReplyStrToLl_numeral few, if_neg (by omega), Int.toNat_natCast]
  obtain ⟨lines, more⟩ : ∃ lines, members.length = lines + 1 := ⟨members.length - 1, by omega⟩
  rw [more] at again ⊢
  rw [replyMembers_line (header_line _ _ (by decide) (by decide)) again]

theorem emptyArray_framed : Framed (Reply.array []).encode := by
  show Framed [42, 48, 13, 10]
  constructor
  · intro tail
    rw [cons_append, firstReplyOk_array (by simp),
      if_pos (le_of_eq_of_le (show redisReplyStrToLl ([48, 13, 10] ++ tail) = 0 from rfl) (by decide))]
    rfl
  · intro count part
    simp only [length_cons, length_nil] at part
    interval_cases count <;> rfl

theorem array_framed_iff {members : List (List UInt8)} (few : members.length < longLongLimit)
    (small : ∀ data ∈ members, data.length < longLongLimit) :
    Framed (Reply.array members).encode ↔ ∀ data ∈ members, Searchable data := by
  by_cases empty : members = []
  · subst empty
    exact iff_of_true emptyArray_framed (by simp)
  · obtain ⟨rest, head⟩ := membersText_head members
    have shape (tail : List UInt8) : (Reply.array members).encode ++ tail =
        42 :: (numeral members.length ++ 13 :: 10 :: (rest ++ tail)) := by
      simp [Reply.encode, head]
    have read (tail : List UInt8) := @replyMembers_iff
      (42 :: (numeral members.length ++ 13 :: 10 :: (rest ++ tail))) tail members
      ((numeral members.length).length + 1) (by simp [head]) small
    have length : (Reply.array members).encode.length =
        (numeral members.length).length + 1 + (membersText members).length := by
      simp [Reply.encode]
      omega
    have two : 2 ≤ (membersText members).length := by simp [head]
    constructor
    · rintro ⟨whole, -⟩
      have accepted := whole []
      rw [shape, firstReplyOk_members empty few, length] at accepted
      simp only [Except.ok.injEq, Option.map_eq_some_iff] at accepted
      obtain ⟨final, loop, -⟩ := accepted
      exact ((read [] final).mp loop).2
    · intro searchable
      have loop (tail : List UInt8) := (read tail
        ((numeral members.length).length + 1 + (membersText members).length - 2)).mpr ⟨by omega, searchable⟩
      constructor
      · intro tail
        rw [shape, firstReplyOk_members empty few, loop, length, Option.map_some]
        congr 2
        omega
      · intro count part
        have waited := shape []
        rw [append_nil] at waited
        rw [length] at part
        rw [waited]
        by_cases line : (numeral members.length).length + 3 ≤ count
        · have absent := @replyMembers_short _ _ _ _ count (length_pos_iff.mpr empty) (loop []) (by omega)
          obtain ⟨more, rfl⟩ : ∃ more, count = (numeral members.length).length + (more + 1 + 1) + 1 :=
            ⟨count - ((numeral members.length).length + 3), by omega⟩
          simp only [take_succ_cons, take_length_add_append] at absent ⊢
          rw [firstReplyOk_members empty few, absent]
          rfl
        · have absent := @crlfFrom_short _ _ _ count
            (@header_line members.length (rest ++ []) 42 (by decide) (by decide)) (by omega)
          by_cases short : ((42 :: (numeral members.length ++ 13 :: 10 :: (rest ++ []))).take count).length < 4
          · exact firstReplyOk_short short
          · obtain ⟨less, rfl, enough, taken⟩ := take_long short
            rw [taken] at absent ⊢
            rw [firstReplyOk_array enough]
            split
            · rw [absent]
              rfl
            · rw [replyMembers_none (by omega) absent]
              rfl

/-- No zero byte or line end in a string, and a bulk below ten bytes. -/
def Reply.Framable : Reply → Prop
  | .status line => line.text ≠ [] ∧ 0 ∉ line.text
  | .error line => line.text ≠ [] ∧ 0 ∉ line.text
  | .integer _ => True
  | .bulk data => data.length < 10 ∧ Searchable data
  | .nil => True
  | .nilArray => True
  | .array members => ∀ data ∈ members, Searchable data

theorem integer_framed (value : Int) : Framed (Reply.integer value).encode := by
  have digits := numeral_length_pos value.natAbs
  have clear {byte : UInt8} (below : byte.toNat < 45) :
      byte ∉ (if value < 0 then [45] else []) ++ numeral value.natAbs := by
    rw [mem_append, not_or]
    constructor
    · split
      · simp only [mem_singleton]
        rintro rfl
        simp at below
      · simp
    · intro member
      have := numeral_digit member
      omega
  refine (line_framed_iff (.inr (.inr rfl)) (clear (by decide))).mpr ⟨?_, clear (by decide)⟩
  rw [← length_pos_iff, length_append]
  omega

theorem membersText_length_le (members : List (List UInt8)) :
    members.length ≤ (membersText members).length ∧
      ∀ data ∈ members, data.length ≤ (membersText members).length := by
  induction members with
  | nil => simp
  | cons data rest ih =>
      simp only [membersText, length_cons, length_append, forall_mem_cons]
      refine ⟨by omega, by omega, fun other member => ?_⟩
      have := ih.2 other member
      omega

/-- A reply that an address space can hold is framed exactly if it is framable. -/
theorem reply_framed_iff (reply : Reply) (short : reply.encode.length < longLongLimit) :
    Framed reply.encode ↔ reply.Framable := by
  cases reply with
  | status line => exact line_framed_iff (.inl rfl) line.unbroken.1
  | error line => exact line_framed_iff (.inr (.inl rfl)) line.unbroken.1
  | integer value => exact iff_of_true (integer_framed value) trivial
  | bulk data =>
      refine bulk_framed_iff (Nat.lt_of_le_of_lt ?_ short)
      simp [Reply.encode]
      omega
  | nil => exact iff_of_true (nil_framed (.inl rfl)) trivial
  | nilArray => exact iff_of_true (nil_framed (.inr rfl)) trivial
  | array members =>
      obtain ⟨few, small⟩ := membersText_length_le members
      simp only [Reply.encode, length_cons, length_append] at short
      refine array_framed_iff (by omega) fun data member => ?_
      have := small data member
      omega

theorem reply_framed_array : Framed (Reply.array [[97, 98], [], [36]]).encode :=
  (reply_framed_iff (.array [[97, 98], [], [36]]) (by decide)).mpr (by simp [Reply.Framable, Searchable]; decide)

theorem replies_misframed : firstReplyOk ((Reply.bulk (List.replicate 10 97)).encode.take 4) = .error .nullAddress ∧
      firstReplyOk (Reply.bulk [97, 13, 10, 98]).encode = .ok (some 7) ∧
      (Reply.bulk [97, 13, 10, 98]).encode.length = 10 ∧
      firstReplyOk (Reply.array [[97, 13, 10, 98]]).encode = .ok none := by
  refine ⟨?_, ?_, ?_, ?_⟩ <;> rfl

end Libucmq.Redis
