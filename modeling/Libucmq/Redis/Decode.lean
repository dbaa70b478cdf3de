import Libucmq.Redis.Reply

/-! How `proto_to_reply` turns the bytes of a reply into a `redis_reply`. -/

namespace Libucmq.Redis

open List Decimal CString

inductive DecodeFault
  | overflow
  | outside
  | nullAddress
deriving DecidableEq, Repr

inductive ReplyType
  | unset
  | string
  | array
  | integer
  | nil
  | status
  | error
deriving DecidableEq, Repr

inductive ReplyErr
  | none
  | oom
  | protocol
  | other
deriving DecidableEq, Repr

structure ReplyElement where
  str : List UInt8
  len : Int
deriving DecidableEq, Repr

/-- `elements` is the length of `element`; those freed by an error are left out. -/
structure RedisReply where
  type : ReplyType := .unset
  err : ReplyErr := .none
  len : Int := 0
  str : Option (List UInt8) := none
  integer : Int := 0
  element : List ReplyElement := []
deriving DecidableEq, Repr

def redisReplyError (err : ReplyErr) (errmsg : String) : RedisReply :=
  { type := .error, err := err, str := some (ascii errmsg), len := (ascii errmsg).length }

/-- The text from the needle on. The counter is an `int`. -/
def redisReplyNextValue (buf : List UInt8) (bufLen : Nat) (needle : UInt8) :
    Except DecodeFault (Option (List UInt8)) :=
  let passed := ((buf.take bufLen).takeWhile (· ≠ needle)).length
  if intLimit ≤ passed then .error .overflow
  else if passed < (buf.take bufLen).length then .ok (some (buf.drop passed))
  else .ok none

def redisReplyStrDup (src : List UInt8) (count : Int) : Except DecodeFault (Option (List UInt8)) :=
  if count ≤ 0 then .ok none
  else if src.length < count.toNat then .error .outside
  else .ok (some (src.take count.toNat))

def redisReplyProtoLine (type : ReplyType) (proto : List UInt8) : Except DecodeFault RedisReply := do
  match ← redisReplyNextValue proto proto.length 13 with
  | none => return redisReplyError .protocol "Invalid redis protocol"
  | some rest =>
    let count : Int := proto.length - rest.length - 1
    match ← redisReplyStrDup (proto.drop 1) count with
    | none => return redisReplyError .other "Invalid string dup!"
    | some cp => return { type, str := some cp, len := count.bmod 4294967296 }

def redisReplyProtoDollar (proto : List UInt8) : Except DecodeFault RedisReply :=
  let bytes := redisReplyStrToLl (proto.drop 1)
  if bytes = -1 then .ok { type := .nil }
  else do
    match ← redisReplyNextValue proto proto.length 10 with
    | none => throw .nullAddress
    | some start =>
      let cp ← redisReplyStrDup (start.drop 1) bytes
      return { type := .string, str := cp, len := bytes.bmod 4294967296 }

/-- The loop, from the last `$`; both windows leave out the last byte. -/
def asteriskLoop : Nat → Option (List UInt8) → List ReplyElement → Except DecodeFault RedisReply
  | 0, _, element => .ok { type := .array, element }
  | _ + 1, none, _ => .ok (redisReplyError .protocol "Can't match next '$' from protocol!")
  | lines + 1, some dollar, element =>
    let start := dollar.drop 1
    let bytes := redisReplyStrToLl start
    if bytes = -1 then .ok (redisReplyError .protocol "Can't get long long type from protocol!")
    else
      match redisReplyNextValue start (start.length - 1) 10 with
      | .error fault => .error fault
      | .ok none => .ok (redisReplyError .protocol "Can't match next '\\n' from protocol!")
      | .ok (some line) =>
        match redisReplyStrDup (line.drop 1) bytes with
        | .error fault => .error fault
        | .ok none => .ok (redisReplyError .protocol "Copy string failed from protocol!")
        | .ok (some cp) =>
          if intLimit ≤ element.length + 1 then .error .overflow
          else
            match redisReplyNextValue (line.drop 1) ((line.drop 1).length - 1) 36 with
            | .error fault => .error fault
            | .ok next => asteriskLoop lines next (element ++ [{ str := cp, len := bytes.bmod 4294967296 }])

def redisReplyProtoAsterisk (proto : List UInt8) : Except DecodeFault RedisReply :=
  let lines := redisReplyStrToLl (proto.drop 1)
  if lines ≤ 0 then .ok { type := .nil }
  else
    match redisReplyNextValue proto proto.length 36 with
    | .error fault => .error fault
    | .ok none => .ok (redisReplyError .protocol "Can't match first '$'!")
    | .ok (some dollar) => asteriskLoop lines.toNat (some dollar) []

def protoToReply (proto : List UInt8) : Except DecodeFault RedisReply :=
  match proto with
  | [] => .ok (redisReplyError .oom "No more memory available!")
  | [_] => .error .outside
  | first :: _ =>
    -- one of the two bytes of a line end is enough
    if proto.getD (proto.length - 2) 0 ≠ 13 ∧ proto.getD (proto.length - 1) 0 ≠ 10 then
      .ok (redisReplyError .protocol "Invalid redis protocol")
    else if first = 43 then redisReplyProtoLine .status proto
    else if first = 45 then redisReplyProtoLine .error proto
    else if first = 58 then .ok { type := .integer, integer := redisReplyStrToLl (proto.drop 1) }
    else if first = 36 then redisReplyProtoDollar proto
    else if first = 42 then redisReplyProtoAsterisk proto
    else .ok (redisReplyError .protocol "Invalid redis protocol")

theorem takeWhile_absent {text : List UInt8} {needle : UInt8} (absent : needle ∉ text) :
    text.takeWhile (· ≠ needle) = text := by
  rw [takeWhile_eq_self_iff]
  intro byte member
  simp only [ne_eq, decide_eq_true_eq]
  rintro rfl
  exact absent member

theorem takeWhile_needle {before : List UInt8} {needle : UInt8} (absent : needle ∉ before) (rest : List UInt8) :
    (before ++ needle :: rest).takeWhile (· ≠ needle) = before := by
  rw [takeWhile_append_stop (by simp), takeWhile_absent absent]

theorem redisReplyNextValue_iff {buf found : List UInt8} {bufLen : Nat} {needle : UInt8} :
    redisReplyNextValue buf bufLen needle = .ok (some found) ↔
      ∃ before rest, buf = before ++ needle :: rest ∧ found = needle :: rest ∧ needle ∉ before ∧
        before.length < bufLen ∧ before.length < intLimit := by
  constructor
  · intro search
    by_cases member : needle ∈ buf.take bufLen
    · obtain ⟨before, rest, split, absent⟩ := eq_append_cons_of_mem member
      have whole : buf = before ++ needle :: (rest ++ buf.drop bufLen) := by
        conv_lhs => rw [← take_append_drop bufLen buf, split]
        simp
      have window : before.length < bufLen := by
        have total := congrArg List.length split
        simp only [length_take, length_append, length_cons] at total
        omega
      simp only [redisReplyNextValue, split, takeWhile_needle absent] at search
      by_cases counted : intLimit ≤ before.length
      · simp [counted] at search
      · rw [if_neg counted, if_pos (by simp), whole, drop_left] at search
        simp only [Except.ok.injEq, Option.some.injEq] at search
        exact ⟨before, _, whole, search.symm, absent, window, by omega⟩
    · simp only [redisReplyNextValue, takeWhile_absent member, Nat.lt_irrefl, if_false] at search
      split at search <;> simp at search
  · rintro ⟨before, rest, rfl, rfl, absent, window, counted⟩
    obtain ⟨more, rfl⟩ : ∃ more, bufLen = before.length + (more + 1) := ⟨bufLen - before.length - 1, by omega⟩
    have passed : ((before ++ needle :: rest).take (before.length + (more + 1))).takeWhile (· ≠ needle) = before := by
      rw [take_length_add_append, take_succ_cons, takeWhile_needle absent]
    simp only [redisReplyNextValue, passed]
    rw [if_neg (by omega), if_pos (by simp), drop_left]

theorem redisReplyStrDup_iff {src cp : List UInt8} {count : Int} : redisReplyStrDup src count = .ok (some cp) ↔
      ∃ size : Nat, count = size ∧ 0 < size ∧ size ≤ src.length ∧ cp = src.take size := by
  constructor
  · intro copied
    simp only [redisReplyStrDup] at copied
    split at copied
    · simp at copied
    · split at copied
      · simp at copied
      · simp only [Except.ok.injEq, Option.some.injEq] at copied
        exact ⟨count.toNat, by omega, by omega, by omega, copied.symm⟩
  · rintro ⟨size, rfl, positive, inside, rfl⟩
    rw [redisReplyStrDup, if_neg (by omega), if_neg (by simpa using inside), Int.toNat_natCast]

theorem asteriskLoop_succ {lines : Nat} {dollar : List UInt8} {element final : List ReplyElement} :
    asteriskLoop (lines + 1) (some dollar) element = .ok { type := .array, element := final } ↔
      ∃ line body next, ∃ size : Nat, dollar.drop 1 = line ++ 10 :: body ∧ 10 ∉ line ∧ line.length < intLimit ∧
        redisReplyStrToLl (dollar.drop 1) = size ∧ 0 < size ∧ size ≤ body.length ∧ element.length + 1 < intLimit ∧
        redisReplyNextValue body (body.length - 1) 36 = .ok next ∧
        asteriskLoop lines next (element ++ [{ str := body.take size, len := (size : Int).bmod 4294967296 }]) =
          .ok { type := .array, element := final } := by
  constructor
  · intro turn
    simp only [asteriskLoop] at turn
    split at turn
    · simp [redisReplyError] at turn
    · split at turn
      · simp at turn
      · simp [redisReplyError] at turn
      · rename_i line search
        obtain ⟨before, body, text, rfl, absent, window, counted⟩ := redisReplyNextValue_iff.mp search
        split at turn
        · simp at turn
        · simp [redisReplyError] at turn
        · rename_i cp copied
          obtain ⟨size, number, positive, inside, rfl⟩ := redisReplyStrDup_iff.mp copied
          split at turn
          · simp at turn
          · rename_i bounded
            split at turn
            · simp at turn
            · rename_i next found
              rw [number] at turn
              exact ⟨before, body, next, size, text, absent, counted, number, positive, inside, by omega, found, turn⟩
  · rintro ⟨line, body, next, size, text, absent, counted, number, positive, inside, bounded, found, rest⟩
    have window : line.length < (dollar.drop 1).length - 1 := by
      rw [text, length_append, length_cons]
      omega
    have search : redisReplyNextValue (dollar.drop 1) ((dollar.drop 1).length - 1) 10 = .ok (some (10 :: body)) :=
      redisReplyNextValue_iff.mpr ⟨line, body, text, rfl, absent, window, counted⟩
    have copied : redisReplyStrDup body size = .ok (some (body.take size)) :=
      redisReplyStrDup_iff.mpr ⟨size, rfl, positive, inside, rfl⟩
    have behind : (10 :: body).drop 1 = body := rfl
    simp only [asteriskLoop, number, search, behind, copied, found]
    rw [if_neg (by omega), if_neg (by omega), rest]

theorem asteriskLoop_appends {lines : Nat} {start : Option (List UInt8)} {element final : List ReplyElement}
    (read : asteriskLoop lines start element = .ok { type := .array, element := final }) : element <+: final := by
  induction lines generalizing start element with
  | zero =>
    simp only [asteriskLoop, Except.ok.injEq, RedisReply.mk.injEq] at read
    simp [read]
  | succ lines ih =>
    cases start with
    | none => simp [asteriskLoop, redisReplyError] at read
    | some dollar =>
      obtain ⟨line, body, next, size, -, -, -, -, -, -, -, -, rest⟩ := asteriskLoop_succ.mp read
      exact (prefix_append _ _).trans (ih rest)

/-- The strings found by a `$` from the start of the text and of each string. -/
def Retraced : List (List UInt8) → List UInt8 → Prop
  | [], text => (text.dropLast.takeWhile (· ≠ 36)).length < intLimit
  | data :: rest, text =>
    ∃ before line body, text = before ++ 36 :: (line ++ 10 :: body) ∧ 36 ∉ before ∧ before.length < intLimit ∧
      10 ∉ line ∧ line.length < intLimit ∧ redisReplyStrToLl (line ++ 10 :: body) = data.length ∧
      data ≠ [] ∧ data.length < intLimit ∧ data <+: body ∧ Retraced rest body

def decoded (data : List UInt8) : ReplyElement := { str := data, len := data.length }

theorem decoded_iff {body data : List UInt8} {size : Nat} (inside : size ≤ body.length) :
    ({ str := body.take size, len := (size : Int).bmod 4294967296 } : ReplyElement) = decoded data ↔
      size = data.length ∧ data <+: body ∧ data.length < intLimit := by
  simp only [decoded, ReplyElement.mk.injEq, intLimit]
  constructor
  · rintro ⟨rfl, len⟩
    rw [length_take, Nat.min_eq_left inside] at len ⊢
    refine ⟨rfl, take_prefix _ _, ?_⟩
    have := @Int.bmod_lt size 4294967296 (by decide)
    omega
  · rintro ⟨rfl, start, bounded⟩
    refine ⟨(prefix_iff_eq_take.mp start).symm, ?_⟩
    exact Int.bmod_eq_of_le (by omega) (by omega)

variable {members : List (List UInt8)}

theorem asteriskLoop_iff {text : List UInt8} {window : Nat} {element : List ReplyElement}
    (wide : text.length - 1 ≤ window) (last : members = [] → window = text.length - 1) :
    (∃ next, redisReplyNextValue text window 36 = .ok next ∧ asteriskLoop members.length next element =
        .ok { type := .array, element := element ++ members.map decoded }) ↔
      (members ≠ [] → element.length + members.length < intLimit) ∧ Retraced members text := by
  induction members generalizing text window element with
  | nil =>
    obtain rfl := last rfl
    simp only [asteriskLoop, length_nil, map_nil, append_nil, and_true, ne_eq, not_true_eq_false,
      false_implies, true_and, Retraced, dropLast_eq_take, redisReplyNextValue]
    split
    · simp only [reduceCtorEq, exists_const, false_iff]
      omega
    · split <;> simp only [Except.ok.injEq, exists_eq', true_iff] <;> omega
  | cons data rest ih =>
    constructor
    · rintro ⟨next, search, read⟩
      cases next with
      | none => simp [asteriskLoop, redisReplyError] at read
      | some dollar =>
        obtain ⟨before, behind, rfl, rfl, absent, -, counted⟩ := redisReplyNextValue_iff.mp search
        obtain ⟨line, body, next, size, rfl, quiet, short, number, positive, inside, bounded, found, read⟩ :=
          asteriskLoop_succ.mp read
        -- what the later turns put behind this element leaves it as it is
        obtain ⟨more, same⟩ := asteriskLoop_appends read
        have first : ({ str := body.take size, len := (size : Int).bmod 4294967296 } : ReplyElement) =
            decoded data := by
          simp only [append_assoc, append_cancel_left_eq, map_cons, singleton_append,
            List.cons.injEq] at same
          exact same.1
        obtain ⟨rfl, start, small⟩ := (decoded_iff inside).mp first
        rw [first, map_cons, append_cons element (decoded data) (rest.map decoded)] at read
        obtain ⟨total, retraced⟩ := (ih le_rfl fun _ => rfl).mp ⟨next, found, read⟩
        refine ⟨fun _ => ?_, before, line, body, rfl, absent, counted, quiet, short, number,
          length_pos_iff.mp positive, small, start, retraced⟩
        cases rest with
        | nil => simpa using bounded
        | cons second rest => simpa [Nat.add_assoc, Nat.add_comm 1] using total (by simp)
    · rintro ⟨total, before, line, body, rfl, absent, counted, quiet, short, number, present, small, start, retraced⟩
      have total := total (by simp)
      rw [length_cons] at total
      have inside : data.length ≤ body.length := start.length_le
      have later : rest ≠ [] → (element ++ [decoded data]).length + rest.length < intLimit := by
        intro
        simp only [length_append, length_singleton]
        omega
      obtain ⟨next, found, read⟩ :=
        (@ih body _ (element ++ [decoded data]) le_rfl fun _ => rfl).mpr ⟨later, retraced⟩
      refine ⟨some (36 :: (line ++ 10 :: body)),
        redisReplyNextValue_iff.mpr ⟨before, _, rfl, rfl, absent, ?_, counted⟩, ?_⟩
      · simp only [length_append, length_cons] at wide
        omega
      · refine asteriskLoop_succ.mpr ⟨line, body, next, data.length, rfl, quiet, short, number,
          length_pos_iff.mpr present, inside, by omega, found, ?_⟩
        rw [(decoded_iff inside).mpr ⟨rfl, start, small⟩, read]
        simp

theorem membersText_last (members : List (List UInt8)) : ∃ front, membersText members = front ++ [13, 10] := by
  induction members with
  | nil => exact ⟨[], rfl⟩
  | cons data rest ih =>
    obtain ⟨front, last⟩ := ih
    exact ⟨13 :: 10 :: 36 :: (numeral data.length ++ 13 :: 10 :: (data ++ front)), by simp [membersText, last]⟩

theorem protoToReply_array (members : List (List UInt8)) :
    protoToReply (Reply.array members).encode = redisReplyProtoAsterisk (Reply.array members).encode := by
  obtain ⟨front, last⟩ := membersText_last members
  have text : (Reply.array members).encode = 42 :: (numeral members.length ++ front ++ [13]) ++ [10] := by
    simp [Reply.encode, last]
  have ends : (Reply.array members).encode.getD ((Reply.array members).encode.length - 1) 0 = 10 := by
    rw [getD_eq_getElem?_getD, ← List.getLast?_eq_getElem?, text, List.getLast?_concat]
    rfl
  obtain ⟨second, rest, encoded⟩ : ∃ second rest, (Reply.array members).encode = 42 :: second :: rest := by
    cases behind : numeral members.length ++ front ++ [13] with
    | nil => simp at behind
    | cons second rest => exact ⟨second, rest ++ [10], by rw [text, behind]; rfl⟩
  rw [encoded] at ends ⊢
  simp only [protoToReply]
  rw [if_neg fun isOpen => isOpen.2 ends]
  rfl

theorem array_decoded_iff {members : List (List UInt8)} (few : members.length < intLimit) :
    protoToReply (Reply.array members).encode = .ok { type := .array, element := members.map decoded } ↔
      members ≠ [] ∧ Retraced members (Reply.array members).encode := by
  have number : redisReplyStrToLl ((Reply.array members).encode.drop 1) = members.length := by
    obtain ⟨rest, head⟩ := membersText_head members
    rw [Reply.encode, head]
    exact redisReplyStrToLl_numeral (lt_trans few (by decide)) _
  rw [protoToReply_array, redisReplyProtoAsterisk, number]
  cases members with
  | nil => simp
  | cons data members =>
    have whole := @asteriskLoop_iff (data :: members) (Reply.array (data :: members)).encode _ [] (Nat.sub_le _ 1)
      (by simp)
    simp only [nil_append, length_nil, Nat.zero_add, ne_eq, reduceCtorEq, not_false_eq_true, true_implies,
      true_and] at whole ⊢
    have kept : Retraced (data :: members) (Reply.array (data :: members)).encode ↔ _ :=
      (and_iff_right few).symm.trans whole.symm
    rw [if_neg (by simp), kept, Int.toNat_natCast]
    constructor
    · intro read
      split at read
      · simp at read
      · simp [redisReplyError] at read
      · exact ⟨_, ‹_›, read⟩
    · rintro ⟨next, search, read⟩
      cases next with
      | none => simp [asteriskLoop, redisReplyError] at read
      | some dollar => simp only [search, read]

theorem line_retraced {front data body : List UInt8} (quiet : 36 ∉ front) (short : front.length + 2 < intLimit)
    (present : data ≠ []) (small : data.length < intLimit) {rest : List (List UInt8)} (start : data <+: body)
    (later : Retraced rest body) : Retraced (data :: rest)
      (front ++ 13 :: 10 :: 36 :: (numeral data.length ++ 13 :: 10 :: body)) := by
  have length : (numeral data.length).length ≤ 10 :=
    numeral_length_le (by decide) (lt_trans small (by decide))
  refine ⟨front ++ [13, 10], numeral data.length ++ [13], body, by simp, by simp [quiet], by simpa using short,
    ?_, ?_, ?_, present, small, start, later⟩
  · simp [numeral_clear (show (10 : UInt8).toNat < 48 by decide)]
  · simp only [length_append, length_singleton, intLimit]
    omega
  · simpa using redisReplyStrToLl_numeral (lt_trans small (by decide)) (10 :: body)

theorem retraced_plain {front : List UInt8} (quiet : members ≠ [] → 36 ∉ front)
    (short : front.length + 2 < intLimit) (small : ∀ data ∈ members, data ≠ [] ∧ data.length + 2 < intLimit)
    (plain : ∀ data ∈ members.dropLast, 36 ∉ data) : Retraced members (front ++ membersText members) := by
  induction members generalizing front with
  | nil =>
    have bound := ((front ++ [13, 10]).dropLast.takeWhile_prefix (· ≠ 36)).length_le
    rw [length_dropLast, length_append] at bound
    exact lt_of_le_of_lt bound (by simp; omega)
  | cons data rest ih =>
    obtain ⟨present, fits⟩ := small data mem_cons_self
    refine line_retraced (quiet (by simp)) short present (by omega) (prefix_append data (membersText rest)) ?_
    refine ih (fun more => plain data ?_) fits (fun other member => small other (mem_cons_of_mem _ member)) ?_
    · simp [dropLast_cons_of_ne_nil more]
    · intro other member
      have more := ne_nil_of_mem (dropLast_subset _ member)
      exact plain other (by simp [dropLast_cons_of_ne_nil more, member])

theorem array_retraced (few : members.length < intLimit)
    (small : ∀ data ∈ members, data ≠ [] ∧ data.length + 2 < intLimit)
    (plain : ∀ data ∈ members.dropLast, 36 ∉ data) : Retraced members (Reply.array members).encode := by
  have length : (numeral members.length).length ≤ 10 :=
    numeral_length_le (by decide) (lt_trans few (by decide))
  have quiet : 36 ∉ 42 :: numeral members.length := by
    simp [numeral_clear (show (36 : UInt8).toNat < 48 by decide)]
  refine @retraced_plain members (42 :: numeral members.length) (fun _ => quiet) ?_ small plain
  simp only [length_cons, intLimit]
  omega

theorem Retraced.nonempty {text : List UInt8} (retraced : Retraced members text) : [] ∉ members := by
  induction members generalizing text with
  | nil => simp
  | cons data rest ih =>
      obtain ⟨before, line, body, -, -, -, -, -, -, nonempty, -, -, later⟩ := retraced
      simp [Ne.symm nonempty, ih later]

/-- No list with an empty string is decoded; without one, every list whose `$` stand in the last string is. -/
theorem array_decoded (nonempty : members ≠ []) (few : members.length < intLimit)
    (small : ∀ data ∈ members, data.length + 2 < intLimit) :
    ([] ∈ members →
      protoToReply (Reply.array members).encode ≠ .ok { type := .array, element := members.map decoded }) ∧
    ([] ∉ members → (∀ data ∈ members.dropLast, 36 ∉ data) →
      protoToReply (Reply.array members).encode = .ok { type := .array, element := members.map decoded }) := by
  rw [ne_eq, array_decoded_iff few]
  constructor
  · rintro empty ⟨-, retraced⟩
    exact retraced.nonempty empty
  · intro full plain
    refine ⟨nonempty, array_retraced few (fun data member => ⟨?_, small data member⟩) plain⟩
    rintro rfl
    exact full member

theorem array_decoded_two :
    protoToReply (Reply.array [ascii "a\r\n", ascii "$1\r\nx"]).encode =
      .ok { type := .array, element := [decoded (ascii "a\r\n"), decoded (ascii "$1\r\nx")] } :=
  (array_decoded (by simp) (by decide) (by decide +kernel)).2 (by decide +kernel) (by decide +kernel)

theorem arrays_misread : protoToReply (Reply.array [[]]).encode =
        .ok (redisReplyError .protocol "Copy string failed from protocol!") ∧
      protoToReply (Reply.array [ascii "$1\r\nx", ascii "a"]).encode =
        .ok { type := .array, element := [decoded (ascii "$1\r\nx"), decoded (ascii "x")] } := by
  decide +kernel

end Libucmq.Redis
