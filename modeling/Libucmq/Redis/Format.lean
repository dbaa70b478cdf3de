import Libucmq.Library.Loop
import Libucmq.Redis.Reply

/-! The request encoder `cmd_to_proto` and the strings of `sstr.c`. -/

namespace Libucmq.Redis

open List Decimal CString

def sstrMaxPrealloc : Nat := 1048576

structure Sstr where
  len : Nat
  free : Nat
  buf : List UInt8
  size : buf.length = len + free + 1

def Sstr.text (s : Sstr) : List UInt8 := s.buf.take s.len

@[simp] theorem Sstr.text_length (s : Sstr) : s.text.length = s.len := by
  have := s.size
  rw [Sstr.text, length_take]
  omega

def sstrEmpty (grants : Nat → Bool) : Option Sstr :=
  if grants 17 then some { len := 0, free := 0, buf := [0], size := rfl } else none

def sstrMakeRoomFor (grants : Nat → Bool) (s : Sstr) (addlen : Nat) : Option { room : Sstr // addlen ≤ room.free } :=
  if enough : addlen ≤ s.free then some ⟨s, enough⟩
  else
    let newlen := s.len + addlen
    let extra := if newlen < sstrMaxPrealloc then newlen else sstrMaxPrealloc
    if grants (16 + (newlen + extra) + 1) then
      some ⟨{ len := s.len, free := addlen + extra, buf := s.buf ++ List.replicate (addlen + extra - s.free) 0,
              size := by rw [length_append, s.size, length_replicate]; omega },
        Nat.le_add_right _ _⟩
    else none

def sstrCatlen (grants : Nat → Bool) (s : Sstr) (t : List UInt8) : Option Sstr :=
  (sstrMakeRoomFor grants s t.length).map fun room =>
    { len := room.val.len + t.length, free := room.val.free - t.length
      buf := room.val.text ++ t ++ 0 :: room.val.buf.drop (room.val.len + t.length + 1)
      size := by
        have size := room.val.size
        have enough := room.property
        simp only [length_append, length_cons, length_drop, Sstr.text_length]
        omega }

def vprintfRoom (grants : Nat → Bool) (printed : Nat) : Nat → Nat → Bool
  | 0, _ => false
  | fuel + 1, buflen =>
    if printed + 1 < buflen then true else grants (buflen * 2) && vprintfRoom grants printed fuel (buflen * 2)

def sstrCatvprintf (grants : Nat → Bool) (s : Sstr) (printed : List UInt8) : Option Sstr :=
  if vprintfRoom grants printed.length (printed.length + 1) 1024 then sstrCatlen grants s printed else none

/-- A block with a zero behind it, a size, or a number only printed. -/
inductive VarArg
  | block (bytes : List UInt8)
  | size (count : Nat)
  | number (value : Int)
  | real (bits : UInt64)
deriving DecidableEq, Repr

inductive FormatEnd
  | fault
  | failed
deriving DecidableEq, Repr

inductive NumberKind
  | number | real
deriving DecidableEq, Repr

def isIntFmt (byte : UInt8) : Bool := byte = 0 || (ascii "diouxX").contains byte

def isDoubleFmt (byte : UInt8) : Bool := byte = 0 || (ascii "eEfFgGaA").contains byte

def skipFlag (flag : UInt8) (text : List UInt8) : List UInt8 := if text.headD 0 = flag then text.drop 1 else text

def sizedFmt (text : List UInt8) : Option (List UInt8 × NumberKind) :=
  if text.headD 0 ≠ 0 ∧ isIntFmt (text.headD 0) then some (text, .number) else none

def skipWidth (text : List UInt8) : List UInt8 :=
  let flagged := skipFlag 43 (skipFlag 32 (skipFlag 45 (skipFlag 48 (skipFlag 35 text))))
  let width := flagged.dropWhile isDigit
  if width.headD 0 = 46 then (width.drop 1).dropWhile isDigit else width

def printfFmt (text : List UInt8) : Option (List UInt8 × NumberKind) :=
  let p := skipWidth text
  if isIntFmt (p.headD 0) then some (p, .number)
  else if isDoubleFmt (p.headD 0) then some (p, .real)
  else if p.headD 0 = 104 ∧ (p.drop 1).headD 0 = 104 then sizedFmt (p.drop 2)
  else if p.headD 0 = 104 then sizedFmt (p.drop 1)
  else if p.headD 0 = 108 ∧ (p.drop 1).headD 0 = 108 then sizedFmt (p.drop 2)
  else if p.headD 0 = 108 then sizedFmt (p.drop 1)
  else none

def takeNumber (kind : NumberKind) : List VarArg → Option (List VarArg)
  | .number _ :: args => if kind = .number then some args else none
  | .real _ :: args => if kind = .real then some args else none
  | _ => none

structure Formatter where
  rest : List UInt8
  args : List VarArg
  curarg : Sstr
  touched : Bool := false
  curargv : List Sstr := []
  totlen : Int := 0

def intlen (i : Int) : Nat := (if i < 0 then 1 else 0) + digitCount i.natAbs i.natAbs

def bulklen (len : Nat) : Nat := 1 + intlen ((len : Int).bmod 4294967296) + 2 + len + 2

def storeArg (grants : Nat → Bool) (state : Formatter) : Option Formatter :=
  if grants (8 * (state.curargv.length + 1)) then
    some { state with
      curargv := state.curargv ++ [state.curarg]
      totlen := (state.totlen + bulklen state.curarg.len).bmod 4294967296 }
  else none

section

variable (grants : Nat → Bool) (vsnprintf : List UInt8 → List VarArg → List UInt8)

def plainByte (byte : UInt8) (state : Formatter) : Except FormatEnd Formatter :=
  if byte = 32 then
    if state.touched then
      match storeArg grants state with
      | none => .error .failed
      | some stored =>
        match sstrEmpty grants with
        | none => .error .failed
        | some curarg => .ok { stored with curarg, touched := false }
    else .ok state
  else
    match sstrCatlen grants state.curarg [byte] with
    | none => .error .failed
    | some newarg => .ok { state with curarg := newarg, touched := true }

def takeArg (newarg : Option Sstr) (state : Formatter) : Except FormatEnd Formatter :=
  match newarg with
  | none => .error .failed
  | some curarg => .ok { state with curarg, touched := true }

/-- Of a conversion of 14 bytes or more only two bytes are passed on. -/
def printfArg (text : List UInt8) (state : Formatter) : Except FormatEnd Formatter :=
  match printfFmt text with
  | none => .error .failed
  | some (p, kind) =>
    match takeNumber kind state.args with
    | none => .error .fault
    | some args =>
      let length := text.length - p.length + 2
      if length < 14 then
        let printed := vsnprintf (37 :: text.take (length - 1)) state.args
        match takeArg (sstrCatvprintf grants state.curarg printed) { state with args, rest := p.drop 1 } with
        | .error stop => .error stop
        | .ok next => if p = [] then .error .fault else .ok next
      else takeArg (some state.curarg) { state with args, rest := text.drop 1 }

def bytesArg (bytes : List UInt8) (state : Formatter) : Except FormatEnd Formatter :=
  takeArg (if bytes.length > 0 then sstrCatlen grants state.curarg bytes else some state.curarg) state

def conversion (text : List UInt8) (state : Formatter) : Except FormatEnd Formatter :=
  if text.headD 0 = 115 then
    match state.args with
    | .block bytes :: args => bytesArg grants (bytes.takeWhile (· ≠ 0)) { state with args, rest := text.drop 1 }
    | _ => .error .fault
  else if text.headD 0 = 98 then
    match state.args with
    | .block bytes :: .size count :: args =>
      if bytes.length < count then .error .fault
      else bytesArg grants (bytes.take count) { state with args, rest := text.drop 1 }
    | _ => .error .fault
  else if text.headD 0 = 37 then
    takeArg (sstrCatlen grants state.curarg [37]) { state with rest := text.drop 1 }
  else printfArg grants vsnprintf text state

def formatTurn (state : Formatter) : Formatter ⊕ Except FormatEnd Formatter :=
  match state.rest with
  | [] => .inr (.ok state)
  | byte :: rest =>
    match if byte ≠ 37 ∨ rest = [] then plainByte grants byte { state with rest }
      else conversion grants vsnprintf rest state with
    | .error stop => .inr (.error stop)
    | .ok next => .inl next

def bulkText (arg : Sstr) : List UInt8 := 36 :: (numeral arg.len ++ 13 :: 10 :: (arg.text ++ [13, 10]))

/-- Behind the loop: the `assert` fails where the text is not as counted. -/
def buildProto (state : Formatter) : Except FormatEnd (List UInt8) :=
  match if state.touched then storeArg grants state else some state with
  | none => .error .failed
  | some state =>
    let totlen := (state.totlen + (1 + intlen state.curargv.length + 2 : Nat)).bmod 4294967296
    if grants ((totlen + 1) % 18446744073709551616).toNat then
      let text := 42 :: (numeral state.curargv.length ++ 13 :: 10 :: state.curargv.flatMap bulkText)
      if (text.length : Int) = totlen then .ok text else .error .fault
    else .error .failed

def cmdToProto (format : List UInt8) (args : List VarArg) : Except FormatEnd (List UInt8) :=
  match sstrEmpty grants with
  | none => .error .failed
  | some curarg =>
    match Loop.run (formatTurn grants vsnprintf) (format.length + 1) { rest := format, args, curarg } with
    | none => .error .fault
    | some (.error stop) => .error stop
    | some (.ok state) => buildProto grants state

end

variable {grants : Nat → Bool} {vsnprintf : List UInt8 → List VarArg → List UInt8}

def bulkSize (words : List (List UInt8)) : Nat := (words.map fun word => bulklen word.length).sum

structure Collected (words : List (List UInt8)) (current : List UInt8) (touched : Bool) (state : Formatter) : Prop where
  argv : state.curargv.map Sstr.text = words
  curarg : state.curarg.text = current
  touched : state.touched = touched
  totlen : state.totlen = (bulkSize words : Int).bmod 4294967296

variable {words : List (List UInt8)}

section

variable (plenty : ∀ size, grants size = true)
include plenty

theorem sstrMakeRoomFor_text (s : Sstr) (addlen : Nat) :
    ∃ room, sstrMakeRoomFor grants s addlen = some room ∧ room.val.text = s.text := by
  by_cases enough : addlen ≤ s.free
  · exact ⟨⟨s, enough⟩, by rw [sstrMakeRoomFor, dif_pos enough], rfl⟩
  · simp only [sstrMakeRoomFor, dif_neg enough, plenty, if_true]
    refine ⟨_, rfl, ?_⟩
    have short : s.len ≤ s.buf.length := by
      have := s.size
      omega
    exact take_append_of_le_length short

theorem sstrCatlen_text (s : Sstr) (t : List UInt8) :
    ∃ next, sstrCatlen grants s t = some next ∧ next.text = s.text ++ t := by
  obtain ⟨room, made, same⟩ := sstrMakeRoomFor_text plenty s t.length
  refine ⟨_, by rw [sstrCatlen, made]; rfl, ?_⟩
  rw [Sstr.text, ← same]
  exact take_left' (by simp)

theorem sstrEmpty_text : ∃ curarg, sstrEmpty grants = some curarg ∧ curarg.text = [] :=
  ⟨_, if_pos (plenty 17), rfl⟩

theorem storeArg_collected {current : List UInt8} {touched : Bool} {state : Formatter}
    (collected : Collected words current touched state) :
    ∃ stored, storeArg grants state = some stored ∧ stored.rest = state.rest ∧ stored.args = state.args ∧
      stored.curargv.map Sstr.text = words ++ [current] ∧
      stored.totlen = (bulkSize (words ++ [current]) : Int).bmod 4294967296 := by
  refine ⟨_, if_pos (plenty _), rfl, rfl, ?_, ?_⟩
  · simp [collected.argv, collected.curarg]
  · have len : state.curarg.len = current.length := by rw [← collected.curarg, Sstr.text_length]
    simp only [collected.totlen, len, Int.bmod_add_bmod, bulkSize, map_append, map_cons, map_nil,
      sum_append, sum_singleton, Nat.cast_add]

variable {words : List (List UInt8)} {current rest : List UInt8} {touched : Bool} {state : Formatter}

theorem plain_turn {byte : UInt8} (collected : Collected words current touched state)
    (restEq : state.rest = byte :: rest) (visible : byte ≠ 32) (other : byte ≠ 37) :
    ∃ next, formatTurn grants vsnprintf state = .inl next ∧ next.rest = rest ∧ next.args = state.args ∧
      Collected words (current ++ [byte]) true next := by
  obtain ⟨newarg, grown, text⟩ := sstrCatlen_text plenty state.curarg [byte]
  refine ⟨{ state with rest, curarg := newarg, touched := true }, ?_, rfl, rfl,
    collected.argv, by rw [text, collected.curarg], rfl, collected.totlen⟩
  simp only [formatTurn, restEq, ne_eq, other, not_false_eq_true, true_or, if_true, plainByte, visible, if_false, grown]

theorem blank_turn (collected : Collected words current true state) (restEq : state.rest = 32 :: rest) :
    ∃ next, formatTurn grants vsnprintf state = .inl next ∧ next.rest = rest ∧ next.args = state.args ∧
      Collected (words ++ [current]) [] false next := by
  obtain ⟨empty, made, text⟩ := sstrEmpty_text plenty
  have moved : Collected words current true { state with rest } :=
    ⟨collected.argv, collected.curarg, collected.touched, collected.totlen⟩
  obtain ⟨stored, storedEq, sameRest, sameArgs, argv, totlen⟩ := storeArg_collected plenty moved
  refine ⟨{ stored with curarg := empty, touched := false }, ?_, sameRest, sameArgs, argv, text, rfl, totlen⟩
  have blank : (32 : UInt8) ≠ 37 := by decide
  simp only [collected.touched] at storedEq
  simp only [formatTurn, restEq, ne_eq, blank, not_false_eq_true, true_or, if_true, plainByte, collected.touched,
    storedEq, made]

theorem bytes_turn {data : List UInt8} {args : List VarArg} (collected : Collected words current touched state)
    (restEq : state.rest = 37 :: 98 :: rest) (argsEq : state.args = .block data :: .size data.length :: args) :
    ∃ next, formatTurn grants vsnprintf state = .inl next ∧ next.rest = rest ∧ next.args = args ∧
      Collected words (current ++ data) true next := by
  obtain ⟨newarg, grown, text⟩ : ∃ newarg,
      (if data.length > 0 then sstrCatlen grants state.curarg data else some state.curarg) = some newarg ∧
        newarg.text = current ++ data := by
    by_cases nonempty : data.length > 0
    · obtain ⟨newarg, grown, text⟩ := sstrCatlen_text plenty state.curarg data
      exact ⟨newarg, by rw [if_pos nonempty, grown], by rw [text, collected.curarg]⟩
    · have empty : data = [] := length_eq_zero_iff.mp (by omega)
      exact ⟨state.curarg, if_neg nonempty, by rw [collected.curarg, empty, append_nil]⟩
  refine ⟨{ state with args, rest, curarg := newarg, touched := true }, ?_, rfl, rfl, collected.argv, text, rfl,
    collected.totlen⟩
  have literal : (98 : UInt8) ≠ 115 := by decide
  simp only [formatTurn, restEq, ne_eq, not_true_eq_false, reduceCtorEq, or_self, if_false, conversion, headD_cons,
    literal, if_true, argsEq, Nat.lt_irrefl, take_length, bytesArg, grown, takeArg, drop_one, tail_cons]

theorem name_steps {name : List UInt8} (clear : ∀ byte ∈ name, byte ≠ 32 ∧ byte ≠ 37)
    (collected : Collected words current touched state) (restEq : state.rest = name ++ rest) :
    ∃ final, Loop.Steps (formatTurn grants vsnprintf) name.length state final ∧ final.rest = rest ∧
      final.args = state.args ∧ Collected words (current ++ name) (touched || name ≠ []) final := by
  induction name generalizing state current touched with
  | nil => exact ⟨state, .refl state, restEq, rfl, by simpa using collected⟩
  | cons byte name ih =>
    obtain ⟨visible, other⟩ := clear byte mem_cons_self
    obtain ⟨next, turn, nextRest, nextArgs, collected⟩ := plain_turn plenty collected restEq visible other
    obtain ⟨final, steps, finalRest, finalArgs, collected⟩ :=
      ih (fun later member => clear later (mem_cons_of_mem _ member)) collected nextRest
    refine ⟨final, .next turn steps, finalRest, finalArgs.trans nextArgs, ?_⟩
    simpa using collected

def bytesArgs (datas : List (List UInt8)) : List VarArg := datas.flatMap fun data => [.block data, .size data.length]

theorem bytes_steps {datas : List (List UInt8)} (collected : Collected words current true state)
    (restEq : state.rest = datas.flatMap fun _ => ascii " %b") (argsEq : state.args = bytesArgs datas) :
    ∃ final words' current', Loop.Steps (formatTurn grants vsnprintf) (2 * datas.length) state final ∧
      final.rest = [] ∧ words' ++ [current'] = words ++ current :: datas ∧ Collected words' current' true final := by
  induction datas generalizing state words current with
  | nil => exact ⟨state, words, current, .refl state, restEq, rfl, collected⟩
  | cons data datas ih =>
    obtain ⟨blank, first, blankRest, blankArgs, collected⟩ := blank_turn plenty collected restEq
    obtain ⟨next, second, nextRest, nextArgs, collected⟩ :=
      bytes_turn plenty collected blankRest (blankArgs.trans argsEq)
    obtain ⟨final, words', current', steps, finalRest, same, collected⟩ := ih collected nextRest nextArgs
    refine ⟨final, words', current', ?_, finalRest, by simpa using same, collected⟩
    exact .next first (.next second steps)

end

theorem bulkTexts_members (argv : List Sstr) :
    13 :: 10 :: argv.flatMap bulkText = membersText (argv.map Sstr.text) := by
  induction argv with
  | nil => rfl
  | cons arg argv ih => simp [bulkText, membersText, ← ih]

theorem intlen_numeral (value : Nat) : intlen value = (numeral value).length := by
  rw [intlen, if_neg (by omega), Int.natAbs_natCast, numeral, fixedDigits_length, Nat.zero_add]

theorem bulklen_numeral {len : Nat} (small : len < 2147483648) :
    bulklen len = 1 + (numeral len).length + 2 + len + 2 := by
  rw [bulklen, Int.bmod_eq_of_le (by omega) (by omega), intlen_numeral]

theorem membersText_length (small : ∀ word ∈ words, word.length < 2147483648) :
    (membersText words).length = bulkSize words + 2 := by
  induction words with
  | nil => rfl
  | cons word words ih =>
    have later := ih fun other member => small other (mem_cons_of_mem _ member)
    simp only [membersText, length_cons, length_append, later, bulkSize, map_cons, sum_cons,
      bulklen_numeral (small word mem_cons_self)]
    omega

theorem length_le_members {word : List UInt8} (member : word ∈ words) : word.length ≤ (membersText words).length := by
  induction words with
  | nil => simp at member
  | cons first words ih =>
    simp only [membersText, length_cons, length_append]
    rcases mem_cons.mp member with rfl | later
    · omega
    · have := ih later
      omega

theorem buildProto_collected (plenty : ∀ size, grants size = true) {current : List UInt8}
    {state : Formatter} (collected : Collected words current true state)
    (fits : (Reply.array (words ++ [current])).encode.length < 2147483648) :
    buildProto grants state = .ok (Reply.array (words ++ [current])).encode := by
  obtain ⟨stored, storedEq, -, -, argv, totlen⟩ := storeArg_collected plenty collected
  have count : stored.curargv.length = (words ++ [current]).length := by rw [← argv, length_map]
  have text : 42 :: (numeral stored.curargv.length ++ 13 :: 10 :: stored.curargv.flatMap bulkText) =
      (Reply.array (words ++ [current])).encode := by
    rw [bulkTexts_members, argv, count]
    rfl
  generalize words ++ [current] = all at *
  have small : ∀ word ∈ all, word.length < 2147483648 := by
    intro word member
    have := length_le_members member
    simp only [Reply.encode, length_cons, length_append] at fits
    omega
  have length : (Reply.array all).encode.length = bulkSize all + (1 + (numeral all.length).length + 2) := by
    simp only [Reply.encode, length_cons, length_append, membersText_length small]
    omega
  have counted : (stored.totlen + (1 + intlen stored.curargv.length + 2 : Nat)).bmod 4294967296 =
      (Reply.array all).encode.length := by
    rw [totlen, Int.bmod_add_bmod, count, intlen_numeral, length, ← Nat.cast_add]
    exact Int.bmod_eq_of_le (by omega) (by omega)
  simp only [buildProto, collected.touched, if_true, storedEq, counted, plenty, text]

theorem cmdToProto_bytes (plenty : ∀ size, grants size = true) {name : List UInt8} (nonempty : name ≠ [])
    (clear : ∀ byte ∈ name, byte ≠ 32 ∧ byte ≠ 37) {datas : List (List UInt8)}
    (fits : (Reply.array (name :: datas)).encode.length < 2147483648) :
    cmdToProto grants vsnprintf (name ++ datas.flatMap fun _ => ascii " %b") (bytesArgs datas) =
      .ok (Reply.array (name :: datas)).encode := by
  obtain ⟨curarg, made, text⟩ := sstrEmpty_text plenty
  have start : Collected [] [] false
      { rest := name ++ datas.flatMap fun _ => ascii " %b", args := bytesArgs datas, curarg } :=
    ⟨rfl, text, rfl, rfl⟩
  obtain ⟨named, front, namedRest, namedArgs, collected⟩ := @name_steps _ vsnprintf plenty _ _ _ _ _ _ clear start rfl
  simp only [nil_append, ne_eq, nonempty, not_false_eq_true, decide_true, Bool.or_true] at collected
  obtain ⟨final, words, current, back, finalRest, same, collected⟩ :=
    @bytes_steps _ vsnprintf plenty _ _ _ _ collected namedRest namedArgs
  rw [nil_append] at same
  have last : formatTurn grants vsnprintf final = .inr (.ok final) := by
    simp only [formatTurn, finalRest]
  have ran : Loop.run (formatTurn grants vsnprintf)
      ((name ++ datas.flatMap fun _ => ascii " %b").length + 1)
      { rest := name ++ datas.flatMap fun _ => ascii " %b", args := bytesArgs datas, curarg } =
      some (.ok final) := by
    refine Loop.run_of_endsIn ⟨final, front.trans back, last⟩ ?_
    have three : (datas.flatMap fun _ => ascii " %b").length = 3 * datas.length := by
      simp [length_flatMap, Nat.mul_comm, ascii]
    rw [length_append, three]
    omega
  simp only [cmdToProto, made, ran]
  rw [← same] at fits ⊢
  exact buildProto_collected plenty collected fits

end Libucmq.Redis
