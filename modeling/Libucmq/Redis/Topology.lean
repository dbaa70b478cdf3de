import Libucmq.Net.Buffer
import Libucmq.Redis.Decode

/-! The replies of the road topology service (`roadRelation/cpp/entry.c`). -/

namespace Libucmq.Redis

open List Decimal

open CString (intLimit)

open Net.Buffer (CacheState CacheFault Holds Contents cacheAdd cacheInit roomLimit holds_init)

def numberLenFrom (i len : Nat) : Nat := if 1 ≤ len / 10 then numberLenFrom (i + 1) (len / 10) else i
termination_by len
decreasing_by omega

def getNumberLen (len : UInt64) : Nat := numberLenFrom 1 len.toNat

/-- `slot` has room for `peak` values, where every callback stops. -/
inductive QueryResult (peak : Nat)
  | error (erro : List UInt8)
  | found (values : List UInt64) (bounded : values.length ≤ peak)

def putNumberOut (granted : Bool) (state : CacheState) (nb : Nat) : Except CacheFault (CacheState × Net.Control) :=
  cacheAdd granted state (numeral nb ++ [13, 10])

def putValues (granted : Bool) : List UInt64 → CacheState → Except CacheFault CacheState
  | [], state => .ok state
  | value :: rest, state => do
    let (state, _) ← cacheAdd granted state [36]
    let (state, _) ← putNumberOut granted state (getNumberLen value)
    let (state, _) ← putNumberOut granted state value.toNat
    putValues granted rest state

/-- After the callback; the results of `cache_add` are not looked at. -/
def entryTopoMainCall {max : Nat} (granted : Bool) (state : CacheState) :
    QueryResult max → Except CacheFault (CacheState × Int)
  | .error erro => do
    let (state, _) ← cacheAdd granted state [45]
    let (state, _) ← cacheAdd granted state erro
    let (state, _) ← cacheAdd granted state [13, 10]
    return (state, -1)
  | .found [] _ => do
    let (state, _) ← cacheAdd granted state (CString.ascii "*0\r\n")
    return (state, 0)
  | .found values _ => do
    let (state, _) ← cacheAdd granted state [42]
    let (state, _) ← putNumberOut granted state values.length
    let state ← putValues granted values state
    return (state, 0)

theorem numberLenFrom_eq {fuel i len : Nat} (enough : len ≤ fuel) :
    numberLenFrom i len + 1 = i + digitCount fuel len := by
  induction fuel generalizing i len with
  | zero =>
    obtain rfl : len = 0 := by omega
    rw [numberLenFrom]
    rfl
  | succ fuel ih =>
    rw [numberLenFrom, digitCount]
    split_ifs with more small
    · omega
    · rw [ih (by omega)]
      omega
    · rfl
    · omega

theorem getNumberLen_eq (value : UInt64) : getNumberLen value = (numeral value.toNat).length := by
  have counted := @numberLenFrom_eq _ 1 _ (Nat.le_refl value.toNat)
  rw [getNumberLen, numeral, fixedDigits_length]
  omega

def numerals (values : List UInt64) : List (List UInt8) := values.map fun value => numeral value.toNat

def valuePieces (values : List UInt64) : List (List UInt8) :=
  values.flatMap fun value =>
    [[36], numeral (getNumberLen value) ++ [13, 10], numeral value.toNat ++ [13, 10]]

def replyPieces (values : List UInt64) : List (List UInt8) :=
  [42] :: (numeral values.length ++ [13, 10]) :: valuePieces values

theorem pieces_ne_nil (values : List UInt64) : ∀ piece ∈ replyPieces values, piece ≠ [] := by
  intro piece member
  simp only [replyPieces, valuePieces, mem_cons, mem_flatMap, not_mem_nil, or_false] at member
  rcases member with rfl | rfl | ⟨value, -, rfl | rfl | rfl⟩ <;> simp

theorem valuePieces_flatten (values : List UInt64) :
    13 :: 10 :: (valuePieces values).flatten = membersText (numerals values) := by
  induction values with
  | nil => rfl
  | cons value rest ih =>
    simp only [numerals, map_cons, membersText, valuePieces, flatMap_cons] at ih ⊢
    simp [getNumberLen_eq, ← ih]

theorem replyPieces_flatten (values : List UInt64) :
    (replyPieces values).flatten = (Reply.array (numerals values)).encode := by
  rw [Reply.encode, ← valuePieces_flatten]
  simp [replyPieces, numerals]

theorem putValues_run (values : List UInt64) (state : CacheState) :
    putValues true values state = (Machine.run (cacheAdd true) state (valuePieces values)).map Prod.fst := by
  induction values generalizing state with
  | nil => rfl
  | cons value rest ih =>
    rw [valuePieces, flatMap_cons, ← valuePieces]
    simp only [cons_append, nil_append, Machine.final_cons, ← ih]
    rfl

variable {values : List UInt64} {max : Nat}

theorem entryTopoMainCall_run (bounded : values.length ≤ max) (nonempty : values ≠ [])
    (state : CacheState) : entryTopoMainCall true state (.found values bounded) =
      ((Machine.run (cacheAdd true) state (replyPieces values)).map Prod.fst).map (·, 0) := by
  obtain ⟨first, rest, rfl⟩ := exists_cons_of_ne_nil nonempty
  rw [replyPieces]
  simp only [Machine.final_cons, ← putValues_run, entryTopoMainCall, putNumberOut, bind, Except.bind]
  cases cacheAdd true state [42] with
  | error fault => rfl
  | ok begun =>
    dsimp only
    cases cacheAdd true begun.1 (numeral (first :: rest).length ++ [13, 10]) with
    | error fault => rfl
    | ok counted =>
      dsimp only
      cases putValues true (first :: rest) counted.1 <;> rfl

theorem numeral_member {data : List UInt8} (member : data ∈ numerals values) :
    ∃ value, data = numeral value ∧ data ≠ [] ∧ data.length ≤ 20 := by
  obtain ⟨value, -, rfl⟩ := mem_map.mp member
  refine ⟨value.toNat, rfl, ne_nil_of_length_pos (numeral_length_pos _), ?_⟩
  exact numeral_length_le (by decide) (Nat.lt_of_lt_of_le value.toNat_lt (by decide))

theorem numerals_accepted (bounded : values.length < intLimit) :
    firstReplyOk (Reply.array (numerals values)).encode = .ok (some (Reply.array (numerals values)).encode.length) := by
  have framed : Framed (Reply.array (numerals values)).encode := by
    rw [array_framed_iff (by rw [numerals, length_map]; exact lt_trans bounded (by decide))
      fun data member => (numeral_member member).elim fun _ found => lt_of_le_of_lt found.2.2 (by decide)]
    intro data member
    obtain ⟨value, rfl, -⟩ := numeral_member member
    exact numeral_searchable value
  simpa using framed.1 []

theorem numerals_decoded (nonempty : values ≠ []) (bounded : values.length < intLimit) :
    protoToReply (Reply.array (numerals values)).encode =
      .ok { type := .array, element := (numerals values).map decoded } := by
  have few : (numerals values).length < intLimit := by rwa [numerals, length_map]
  rw [array_decoded_iff few]
  refine ⟨by simpa [numerals] using nonempty, array_retraced few ?_ ?_⟩
  · intro data member
    obtain ⟨value, -, digits, short⟩ := numeral_member member
    refine ⟨digits, ?_⟩
    simp only [intLimit]
    omega
  · intro data member
    obtain ⟨value, rfl, -⟩ := numeral_member (dropLast_subset _ member)
    exact numeral_clear (by decide)

theorem membersText_short {members : List (List UInt8)} (short : ∀ data ∈ members, data.length ≤ 20) :
    (membersText members).length ≤ 27 * members.length + 2 := by
  induction members with
  | nil => simp [membersText]
  | cons data rest ih =>
      obtain ⟨first, later⟩ := forall_mem_cons.mp short
      have number : (numeral data.length).length ≤ 2 := numeral_length_le (by decide) (by omega)
      have rest := ih later
      simp only [membersText, length_cons, length_append]
      omega

theorem reply_short (few : values.length < intLimit) :
    (Reply.array (numerals values)).encode.length ≤ 27 * values.length + 13 := by
  have count : (numeral values.length).length ≤ 10 := numeral_length_le (by decide) (lt_trans few (by decide))
  have members := @membersText_short (numerals values) fun data member => by
    obtain ⟨value, -, -, short⟩ := numeral_member member
    exact short
  simp only [numerals, length_map] at members
  simp only [Reply.encode, numerals, length_map, length_cons, length_append]
  omega

/-- The reply to at most `max` values is written behind what waits, framed as one reply and decoded. -/
theorem topo_reply {others : Nat → Option (List UInt8)} {state : CacheState} {sent : List UInt8}
    (holds : Holds others state sent) {max : Nat} (room : sent.length + 27 * max + 13 ≤ roomLimit)
    {values : List UInt64} (nonempty : values ≠ []) (bounded : values.length ≤ max) :
    ∃ next text, entryTopoMainCall true state (.found values bounded) = .ok (next, 0) ∧
      Contents others next (sent ++ text) ∧
      firstReplyOk text = .ok (some text.length) ∧
      protoToReply text = .ok { type := .array, element := (numerals values).map decoded } := by
  have few : values.length < intLimit := by
    have limit : roomLimit < intLimit := by decide
    omega
  have fits := reply_short few
  rw [← replyPieces_flatten] at fits
  obtain ⟨next, run, holdsNext⟩ := holds.run (pieces_ne_nil values) (by omega)
  refine ⟨next, (replyPieces values).flatten, ?_, holdsNext.contents, ?_, ?_⟩
  · rw [entryTopoMainCall_run bounded nonempty, run]
    rfl
  · rw [replyPieces_flatten]
    exact numerals_accepted few
  · rw [replyPieces_flatten]
    exact numerals_decoded nonempty few

/-- Every caller of `entry_topo_main_call` passes it. -/
def maxOneNodeOwnLineCount : Nat := 8

theorem topo_reply_roads : ∃ next text,
    entryTopoMainCall true (cacheInit Heap.Blocks.empty)
      (.found [7, 4200] (by decide) : QueryResult maxOneNodeOwnLineCount) = .ok (next, 0) ∧
      Contents (fun _ => none) next ([] ++ text) ∧
      firstReplyOk text = .ok (some text.length) ∧
      protoToReply text = .ok { type := .array, element := [decoded [55], decoded [52, 50, 48, 48]] } :=
  topo_reply (holds_init Heap.Blocks.empty) (by decide) (by decide) (by decide)

end Libucmq.Redis
