import Libucmq.Store.Fifo

/-! Reading a damaged data file. -/

namespace Libucmq

open Segments Memory List Function Machine

def verdict (memory : Bytes) (pos : Nat) : MsgCheckRet × MsgItem :=
  mqSmDbParseMsg (some memory) (UInt32.ofNat pos) {}

theorem parse_verdict (memory : Bytes) (pos : UInt32) (item : MsgItem) :
    (mqSmDbParseMsg (some memory) pos item).1 = (verdict memory pos.toNat).1 ∧ ((verdict memory pos.toNat).1 = .ok →
        mqSmDbParseMsg (some memory) pos item = verdict memory pos.toNat) := by
  rw [verdict, UInt32.ofNat_toNat]
  simp only [mqSmDbParseMsg, mqSmDbParseMsgHead]
  by_cases past : pos + 12 ≥ maxDbFilePos
  · simp only [past, ↓reduceIte, reduceCtorEq, false_implies, and_self]
  by_cases magic : memory pos.toNat ≠ msgHeadOfFirstMagicNum ∨ memory (pos.toNat + 1) ≠ msgHeadOfSecondMagicNum
  · simp only [past, magic, ↓reduceIte, reduceCtorEq, false_implies, and_self]
  by_cases beyond : pos + read32 memory (pos.toNat + 8) + 12 > maxDbFilePos
  · simp only [past, magic, beyond, ↓reduceIte, reduceCtorEq, false_implies, and_self]
  simp only [past, magic, beyond, ↓reduceIte]
  split
  · rename_i crc _
    by_cases same : read16 memory (pos.toNat + 6) = crc <;> simp [same]
  · simp

theorem verdict_cases (memory : Bytes) {pos : Nat} (bound : pos ≤ 67108864) : (verdict memory pos).1 = .lenBey ∨
      pos + 12 < 67108864 ∧ ((verdict memory pos).1 = .magNumErr ∨
          (verdict memory pos).1 = .crcErr ∧ memory (pos + 1) = msgHeadOfSecondMagicNum ∨
          ∃ item, verdict memory pos = (.ok, item) ∧ pos + 12 + item.len.toNat ≤ 67108864) := by
  have place : (UInt32.ofNat pos).toNat = pos := by
    rw [UInt32.toNat_ofNat']
    omega
  rw [verdict]
  simp only [mqSmDbParseMsg, mqSmDbParseMsgHead, place]
  by_cases past : UInt32.ofNat pos + 12 ≥ maxDbFilePos
  · exact Or.inl (by rw [if_pos past])
  have early : pos + 12 < 67108864 := by
    by_contra late
    have sum := @pos_add_toNat (UInt32.ofNat pos) 12 (by rw [place]; simp only [UInt32.reduceToNat]; omega)
    rw [ge_iff_le, UInt32.le_iff_toNat_le, sum, maxDbFilePos_toNat, place] at past
    simp only [UInt32.reduceToNat] at past
    omega
  by_cases magic : memory pos ≠ msgHeadOfFirstMagicNum ∨ memory (pos + 1) ≠ msgHeadOfSecondMagicNum
  · exact Or.inr ⟨early, Or.inl (by rw [if_neg past, if_pos magic])⟩
  by_cases beyond : UInt32.ofNat pos + read32 memory (pos + 8) + 12 > maxDbFilePos
  · exact Or.inl (by rw [if_neg past, if_neg magic, if_pos beyond])
  have second : memory (pos + 1) = msgHeadOfSecondMagicNum := by
    simp only [not_or, not_not] at magic
    exact magic.2
  rw [if_neg past, if_neg magic, if_neg beyond]
  refine Or.inr ⟨early, Or.inr ?_⟩
  rw [mqSmDbBuildMsgCrc16]
  by_cases negative : 2147483648 ≤ (read32 memory (pos + 8)).toNat
  · rw [if_pos negative]
    exact Or.inl ⟨rfl, second⟩
  · rw [if_neg negative]
    by_cases crc : read16 memory (pos + 6) =
        crc16Append 0 (load memory (pos + msgHeadLen) (read32 memory (pos + 8)).toNat)
    · refine Or.inr ⟨_, if_pos crc, ?_⟩
      rw [gt_iff_lt, UInt32.lt_iff_toNat_lt, maxDbFilePos_toNat, UInt32.toNat_add, UInt32.toNat_add, place] at beyond
      simp only [UInt32.reduceToNat] at beyond ⊢
      omega
    · exact Or.inl ⟨by simp only [crc, ↓reduceIte], second⟩

def Skips (memory : Bytes) (pos next : Nat) : Prop :=
  (verdict memory pos).1 = .magNumErr ∧ next = pos + 1 ∨ (verdict memory pos).1 = .crcErr ∧ next = pos + 2

variable {memory : Bytes}

theorem Skips.bounded {pos next : Nat} (move : Skips memory pos next)
    (bound : pos ≤ 67108864) : pos < next ∧ next ≤ 67108864 := by
  rcases verdict_cases memory bound with blocked | ⟨early, _⟩
  · rcases move with ⟨other, _⟩ | ⟨other, _⟩ <;> rw [blocked] at other <;> cases other
  · rcases move with ⟨_, rfl⟩ | ⟨_, rfl⟩ <;> omega

variable {item : MsgItem}

theorem verdict_inside {pos : Nat} (bound : pos ≤ 67108864)
    (accepted : verdict memory pos = (.ok, item)) : pos + 12 + item.len.toNat ≤ 67108864 := by
  rcases verdict_cases memory bound with blocked | ⟨_, clear | ⟨bad, _⟩ | ⟨other, same, inside⟩⟩
  · rw [accepted] at blocked
    cases blocked
  · rw [accepted] at clear
    cases clear
  · rw [accepted] at bad
    cases bad
  · rw [accepted] at same
    cases same
    exact inside

inductive Scan (memory : Bytes) : Nat → List (Nat × MsgItem) → Nat → Prop
  | here (pos) : Scan memory pos [] pos
  | skip {pos next path final} : Skips memory pos next → Scan memory next path final →
      Scan memory pos path final
  | take {pos item path final} : verdict memory pos = (.ok, item) →
      Scan memory (pos + 12 + item.len.toNat) path final → Scan memory pos ((pos, item) :: path) final

def Reaches (memory : Bytes) (pos final : Nat) : Prop := ∃ path, Scan memory pos path final

namespace Scan

variable {memory : Bytes} {pos middle final : Nat} {path later : List (Nat × MsgItem)}

theorem append (first : Scan memory pos path middle) (second : Scan memory middle later final) :
    Scan memory pos (path ++ later) final := by
  induction first with
  | here pos => exact second
  | skip move _ ih => exact .skip move (ih second)
  | take accepted _ ih => exact .take accepted (ih second)

section

variable (scan : Scan memory pos path final)

include scan

theorem le : pos ≤ final := by
  induction scan with
  | here pos => exact Nat.le_refl _
  | skip move _ ih => rcases move with ⟨_, rfl⟩ | ⟨_, rfl⟩ <;> omega
  | take accepted _ ih => omega

theorem first : path = [] ∧ Relation.ReflTransGen (Skips memory) pos final ∨
      ∃ place item rest, path = (place, item) :: rest ∧ Relation.ReflTransGen (Skips memory) pos place ∧
        verdict memory place = (.ok, item) ∧ Scan memory (place + 12 + item.len.toNat) rest final := by
  induction scan with
  | here pos => exact Or.inl ⟨rfl, .refl⟩
  | skip move _ ih =>
    rcases ih with ⟨rfl, walk⟩ | ⟨place, item, rest, rfl, walk, accepted, later⟩
    · exact Or.inl ⟨rfl, .head move walk⟩
    · exact Or.inr ⟨place, item, rest, rfl, .head move walk, accepted, later⟩
  | take accepted later => exact Or.inr ⟨_, _, _, rfl, .refl, accepted, later⟩

theorem entries :
    (∀ entry ∈ path, pos ≤ entry.1 ∧ verdict memory entry.1 = (.ok, entry.2)) ∧
      path.Pairwise fun earlier later => earlier.1 + 12 + earlier.2.len.toNat ≤ later.1 := by
  induction scan with
  | here pos => simp
  | skip move _ ih =>
    refine ⟨fun entry member => ⟨?_, (ih.1 entry member).2⟩, ih.2⟩
    have later := (ih.1 entry member).1
    rcases move with ⟨_, rfl⟩ | ⟨_, rfl⟩ <;> omega
  | take accepted _ ih =>
    refine ⟨fun entry member => ?_, pairwise_cons.mpr ⟨fun entry member => (ih.1 entry member).1, ih.2⟩⟩
    rcases mem_cons.mp member with rfl | member
    · exact ⟨Nat.le_refl _, accepted⟩
    · obtain ⟨later, ok⟩ := ih.1 entry member
      exact ⟨by omega, ok⟩

end

theorem passes (scan : Scan memory pos path middle) (longer : Scan memory pos later final)
    (order : middle ≤ final) : ∃ rest, later = path ++ rest ∧ Scan memory middle rest final := by
  induction scan generalizing later with
  | here pos => exact ⟨later, rfl, longer⟩
  | @skip pos next path middle move onward ih =>
    have far := onward.le
    have forward : pos < next := by rcases move with ⟨_, rfl⟩ | ⟨_, rfl⟩ <;> omega
    cases longer with
    | here => omega
    | @skip _ other _ _ moved rest =>
      obtain rfl : next = other := by
        rcases move with ⟨clear, rfl⟩ | ⟨bad, rfl⟩ <;> rcases moved with ⟨other, rfl⟩ | ⟨other, rfl⟩ <;>
          first | rfl | (exfalso; grind)
      exact ih rest order
    | take accepted rest =>
      rcases move with ⟨other, _⟩ | ⟨other, _⟩ <;> rw [accepted] at other <;> cases other
  | take accepted onward ih =>
    have far := onward.le
    cases longer with
    | here => omega
    | skip moved rest =>
      rcases moved with ⟨other, _⟩ | ⟨other, _⟩ <;> rw [accepted] at other <;> cases other
    | take again rest =>
      cases accepted.symm.trans again
      obtain ⟨more, rfl, scan⟩ := ih rest order
      exact ⟨more, rfl, scan⟩

theorem starts (scan : Scan memory pos path final) (accepted : verdict memory pos = (.ok, item))
    (onward : pos < final) : (pos, item) ∈ path ∧ pos + 12 + item.len.toNat ≤ final := by
  cases scan with
  | here => omega
  | skip move _ => rcases move with ⟨bad, _⟩ | ⟨bad, _⟩ <;> rw [accepted] at bad <;> cases bad
  | take again rest =>
    cases accepted.symm.trans again
    exact ⟨mem_cons_self, rest.le⟩

end Scan

def Blocks (memory : Bytes) (start target : Nat) : Prop :=
  ∃ pos, Reaches memory start pos ∧ pos < target ∧ (verdict memory pos).1 = .lenBey

def Overlaps (memory : Bytes) (start target size : Nat) : Prop :=
  ∃ pos item, Reaches memory start pos ∧ pos ≠ target ∧ verdict memory pos = (.ok, item) ∧
    pos < target + size ∧ target < pos + 12 + item.len.toNat

theorem reaches_record {start target size : Nat}
    (magic : memory target = msgHeadOfFirstMagicNum) (bound : target ≤ 67108864) (nonempty : 0 < size)
    (clear : ¬ Overlaps memory start target size) (free : ¬ Blocks memory start target) {pos : Nat}
    (reached : Reaches memory start pos) (before : pos ≤ target) : Reaches memory start target := by
  obtain ⟨distance, apart⟩ : ∃ distance, target - pos ≤ distance := ⟨_, Nat.le_refl _⟩
  induction distance generalizing pos with
  | zero =>
    obtain rfl : pos = target := by omega
    exact reached
  | succ distance ih =>
    by_cases here : pos = target
    · exact here ▸ reached
    obtain ⟨path, scan⟩ := reached
    have move : ∀ next, Skips memory pos next → next ≤ target → Reaches memory start target :=
      fun next step inside => ih ⟨path ++ [], scan.append (.skip step (.here next))⟩ inside (by
        rcases step with ⟨_, rfl⟩ | ⟨_, rfl⟩ <;> omega)
    rcases verdict_cases memory (show pos ≤ 67108864 by omega) with
      blocked | ⟨_, clearHere | ⟨bad, second⟩ | ⟨item, accepted, _⟩⟩
    · exact absurd ⟨pos, ⟨path, scan⟩, by omega, blocked⟩ free
    · exact move (pos + 1) (Or.inl ⟨clearHere, rfl⟩) (by omega)
    · have other : pos + 1 ≠ target := by
        rintro rfl
        rw [second] at magic
        exact absurd magic (by decide)
      exact move (pos + 2) (Or.inr ⟨bad, rfl⟩) (by omega)
    · by_cases inside : pos + 12 + item.len.toNat ≤ target
      · exact ih ⟨path ++ [(pos, item)], scan.append (.take accepted (.here _))⟩ inside (by omega)
      · exact absurd ⟨pos, item, ⟨path, scan⟩, here, accepted, by omega, by omega⟩ clear

def getStep (state : MqQueue × Os) (stack : MsgItem) : Except Abort ((MqQueue × Os) × Option MsgItem) :=
  (mqSmGetData stack state.1 state.2).map fun result =>
    ((result.2.queue, result.2.os), if result.1 then some result.2.item else none)

structure Within (queue : MqQueue) (os : Os) (pos : Nat) (now : MqQueue) (nowOs : Os) : Prop where
  os_eq : nowOs = os
  mapMem : now.curRdb.mapMem = queue.curRdb.mapMem
  read : now.curRdb.curIndex = queue.curRdb.curIndex
  write : now.curWdb = queue.curWdb
  pos_eq : now.curRdb.pos.toNat = pos

structure ReadsFile (queue : MqQueue) (os : Os) (file : DbFile) : Prop where
  map : ∃ address, queue.curRdb.mapMem = some address ∧ os.maps address = some queue.curRdb.curIndex
  found : os.dir.db queue.curRdb.curIndex = some file
  order : queue.curRdb.curIndex.toNat ≤ queue.curWdb.curIndex.toNat

variable {queue : MqQueue} {os : Os}

theorem getData_of_endsIn {stack : MsgItem} {count : Nat} {result : GetResult}
    (ends : Loop.EndsIn getDataStep count ⟨stack, queue, os⟩ result) (few : count ≤ 67108864) :
    mqSmGetData stack queue os = result := by
  have enough : count < getDataFuel queue := by
    rw [getDataFuel, maxDbFileSize_eq]
    have positive : 1 ≤ queue.curWdb.curIndex.toNat - queue.curRdb.curIndex.toNat + 1 := by omega
    have wide := Nat.mul_le_mul_right (67108864 + 2) positive
    omega
  rw [mqSmGetData, Loop.run_of_endsIn ends enough, Option.getD_some]

theorem getStep_of_data {stack : MsgItem} {found : Bool} {final : GetState}
    (returned : mqSmGetData stack queue os = .ok (found, final)) : getStep (queue, os) stack =
      .ok ((final.queue, final.os), if found then some final.item else none) := by
  rw [getStep]
  dsimp only
  rw [returned, Except.map]

theorem data_of_getStep {stack : MsgItem} {next : MqQueue × Os}
    {answer : Option MsgItem} (stepEq : getStep (queue, os) stack = .ok (next, answer)) :
    ∃ found final, mqSmGetData stack queue os = .ok (found, final) ∧ next = (final.queue, final.os) := by
  cases returned : mqSmGetData stack queue os with
  | error abort =>
    rw [getStep] at stepEq
    dsimp only at stepEq
    rw [returned, Except.map] at stepEq
    cases stepEq
  | ok result =>
    rw [getStep_of_data returned] at stepEq
    cases stepEq
    exact ⟨_, _, rfl, rfl⟩

namespace Within

variable {queue now : MqQueue} {os nowOs : Os} {file : DbFile} {pos target : Nat}

section

variable (within : Within queue os pos now nowOs)

include within

theorem readMemory (reads : ReadsFile queue os file) (item : MsgItem) :
    (GetState.mk item now nowOs).readMemory = .ok (some file.bytes) := by
  obtain ⟨address, mapMem, mapped⟩ := reads.map
  rw [GetState.readMemory]
  simp only [within.mapMem, mapMem, within.os_eq, Os.mapped, mapped, reads.found, Option.bind_some,
    Option.map_some]

theorem going (bound : pos ≤ 67108864) (item : MsgItem)
    (ahead : queue.curRdb.curIndex = queue.curWdb.curIndex → pos + 12 < queue.curWdb.pos.toNat) :
    (GetState.mk item now nowOs).atEnd = false := by
  rw [← Bool.not_eq_true, GetState.atEnd_iff (by dsimp only; rw [within.pos_eq]; exact bound)]
  rintro ⟨same, reached⟩
  dsimp only at same reached
  rw [within.read, within.write] at same
  rw [within.pos_eq, within.write] at reached
  have before := ahead same
  omega

section

variable (reads : ReadsFile queue os file)

include reads

theorem turn (going : ∀ item, (GetState.mk item now nowOs).atEnd = false) (stack : MsgItem) :
    ∃ ret item, ret = (verdict file.bytes pos).1 ∧ (ret = .ok → (ret, item) = verdict file.bytes pos) ∧
      getDataStep ⟨stack, now, nowOs⟩ =
        match ret with
        | .ok => .inr (.ok (true, (GetState.mk stack now nowOs).take item))
        | .magNumErr => .inl ((GetState.mk item now nowOs).skip 1)
        | .parseErr => .inl ((GetState.mk item now nowOs).skip 2)
        | .crcErr => .inl ((GetState.mk item now nowOs).skip 2)
        | .msgErr => getDataNextFile ⟨item, now, nowOs⟩
        | .lenBey => getDataNextFile ⟨item, now, nowOs⟩ := by
  obtain ⟨same, accepted⟩ := parse_verdict file.bytes now.curRdb.pos stack
  rw [within.pos_eq] at same accepted
  cases parsed : mqSmDbParseMsg (some file.bytes) now.curRdb.pos stack with
  | mk ret item =>
    rw [parsed] at same accepted
    refine ⟨ret, item, same, fun ok => accepted (same.symm.trans ok), ?_⟩
    rw [getDataStep, going, within.readMemory reads]
    simp only [Bool.false_eq_true, ↓reduceIte, parsed]
    cases ret <;> rfl

theorem skip (bound : pos ≤ 67108864) (going : ∀ item, (GetState.mk item now nowOs).atEnd = false) {next : Nat}
    (move : Skips file.bytes pos next) (stack : MsgItem) :
    ∃ item later, getDataStep ⟨stack, now, nowOs⟩ = .inl ⟨item, later, nowOs⟩ ∧ Within queue os next later nowOs := by
  obtain ⟨ret, item, same, _, stepEq⟩ := within.turn reads going stack
  have moved : ∀ count : UInt32, count.toNat ≤ 2 →
      Within queue os (pos + count.toNat) ((GetState.mk item now nowOs).skip count).queue nowOs := by
    intro count few
    refine ⟨within.os_eq, within.mapMem, within.read, within.write, ?_⟩
    rw [← within.pos_eq]
    exact pos_add_toNat (by rw [within.pos_eq]; omega)
  rcases move with ⟨clear, rfl⟩ | ⟨bad, rfl⟩
  · rw [same.trans clear] at stepEq
    exact ⟨item, _, stepEq, moved 1 (by decide)⟩
  · rw [same.trans bad] at stepEq
    exact ⟨item, _, stepEq, moved 2 (by decide)⟩

theorem take (bound : pos ≤ 67108864) (going : ∀ item, (GetState.mk item now nowOs).atEnd = false)
    (accepted : verdict file.bytes pos = (.ok, item)) (stack : MsgItem) :
    ∃ final, getDataStep ⟨stack, now, nowOs⟩ = .inr (.ok (true, final)) ∧ final.item = item ∧
      Within queue os (pos + 12 + item.len.toNat) final.queue final.os := by
  obtain ⟨ret, found, same, ok, stepEq⟩ := within.turn reads going stack
  rw [accepted] at same ok
  obtain rfl : ret = .ok := same
  obtain rfl : found = item := (Prod.mk.inj (ok rfl)).2
  refine ⟨_, stepEq, GetState.take_item _ _, ?_⟩
  rw [GetState.take_os, GetState.take_queue]
  refine ⟨within.os_eq, within.mapMem, within.read, within.write, ?_⟩
  have inside := verdict_inside bound accepted
  have size : (found.len + 12).toNat = found.len.toNat + 12 := by
    rw [UInt32.toNat_add]
    simp only [UInt32.reduceToNat]
    omega
  simp only
  rw [pos_add_toNat (by rw [within.pos_eq, size]; omega), within.pos_eq, size]
  omega

theorem leave (going : ∀ item, (GetState.mk item now nowOs).atEnd = false)
    (blocked : (verdict file.bytes pos).1 = .lenBey) (stack : MsgItem) :
    ∃ item, getDataStep ⟨stack, now, nowOs⟩ = getDataNextFile ⟨item, now, nowOs⟩ := by
  obtain ⟨ret, item, same, _, stepEq⟩ := within.turn reads going stack
  rw [same.trans blocked] at stepEq
  exact ⟨item, stepEq⟩

theorem walk (bound : pos ≤ 67108864) {place : Nat} (skips : Relation.ReflTransGen (Skips file.bytes) pos place)
    (ahead : queue.curRdb.curIndex = queue.curWdb.curIndex → place + 12 < queue.curWdb.pos.toNat) (stack : MsgItem) :
    pos ≤ place ∧ place ≤ 67108864 ∧ ∃ count item later, count ≤ place - pos ∧
      Loop.Steps getDataStep count ⟨stack, now, nowOs⟩ ⟨item, later, nowOs⟩ ∧ Within queue os place later nowOs := by
  induction skips using Relation.ReflTransGen.head_induction_on generalizing now stack with
  | refl => exact ⟨Nat.le_refl _, bound, 0, stack, now, by omega, .refl _, within⟩
  | head move rest ih =>
    obtain ⟨forward, inside⟩ := move.bounded bound
    have order : ∀ {first}, Relation.ReflTransGen (Skips file.bytes) first place → first ≤ 67108864 →
        first ≤ place := by
      intro first skips low
      induction skips using Relation.ReflTransGen.head_induction_on with
      | refl => exact Nat.le_refl _
      | head move _ ih =>
        have next := move.bounded low
        have later := ih next.2
        omega
    have far := order rest inside
    obtain ⟨item, middle, stepEq, moved⟩ := within.skip reads bound
      (fun item => within.going bound item fun same => by have := ahead same; omega) move stack
    obtain ⟨_, last, count, final, later, few, steps, reached⟩ := ih moved inside item
    exact ⟨by omega, last, count + 1, final, later, by omega, .next stepEq steps, reached⟩

theorem call (bound : pos ≤ 67108864) {place : Nat} (skips : Relation.ReflTransGen (Skips file.bytes) pos place)
    (ahead : queue.curRdb.curIndex = queue.curWdb.curIndex → place + 12 < queue.curWdb.pos.toNat)
    (accepted : verdict file.bytes place = (.ok, item)) (stack : MsgItem) :
    ∃ final, getStep (now, nowOs) stack = .ok (final, some item) ∧
      Within queue os (place + 12 + item.len.toNat) final.1 final.2 := by
  obtain ⟨_, inside, count, held, later, few, steps, reached⟩ := within.walk reads bound skips ahead stack
  obtain ⟨final, stepEq, itemEq, taken⟩ := reached.take reads inside
    (fun item => reached.going inside item ahead) accepted held
  have returned := getData_of_endsIn ⟨_, steps, stepEq⟩ (by omega)
  refine ⟨(final.queue, final.os), ?_, taken⟩
  rw [getStep_of_data returned, if_pos rfl, itemEq]

theorem calls (bound : pos ≤ 67108864) {path : List (Nat × MsgItem)}
    (scan : Scan file.bytes pos path target) (accepted : verdict file.bytes target = (.ok, item))
    (ahead : queue.curRdb.curIndex = queue.curWdb.curIndex → target + 12 < queue.curWdb.pos.toNat)
    {items : List MsgItem} (count : items.length = (path ++ [(target, item)]).length) :
    ∃ final, run getStep (now, nowOs) items =
        .ok (final, (path ++ [(target, item)]).map fun entry => some entry.2) ∧
      Within queue os (target + 12 + item.len.toNat) final.1 final.2 := by
  induction path generalizing pos now nowOs items with
  | nil =>
    obtain ⟨stack, rfl⟩ := length_eq_one_iff.mp count
    rcases scan.first with ⟨_, walk⟩ | ⟨_, _, _, absurd, _⟩
    · obtain ⟨final, callEq, taken⟩ := within.call reads bound walk ahead accepted stack
      exact ⟨final, run_cons callEq (run_nil _ _), taken⟩
    · cases absurd
  | cons entry path ih =>
    obtain ⟨stack, rest, rfl⟩ := exists_cons_of_length_eq_add_one count
    rcases scan.first with ⟨absurd, _⟩ | ⟨place, first, later, same, walk, taken, onward⟩
    · cases absurd
    obtain ⟨rfl, rfl⟩ := List.cons.inj same
    have far := onward.le
    have early : queue.curRdb.curIndex = queue.curWdb.curIndex → place + 12 < queue.curWdb.pos.toNat :=
      fun same => by have := ahead same; omega
    obtain ⟨_, inside, _⟩ := within.walk reads bound walk early stack
    obtain ⟨⟨next, nextOs⟩, callEq, moved⟩ := within.call reads bound walk early taken stack
    obtain ⟨final, runEq, reached⟩ := ih moved (verdict_inside inside taken) onward
      (Nat.succ.inj count)
    exact ⟨final, run_cons callEq runEq, reached⟩

end

end

end Within

theorem getNextReadFile_db (later : ¬ queue.curRdb.curIndex + 1 > queue.curWdb.curIndex) (query : UInt64) :
    (mqSmTagOpenNextFile .rtag (queue.curRdb.curIndex + 1) os).1 = none ∧
        (getNextReadFile queue os).2.2.dir.db query = os.dir.db query ∨ (getNextReadFile queue os).2.2.dir.db query =
        if query = queue.curRdb.curIndex then none else os.dir.db query := by
  obtain ⟨found, next, after, rollEq, roll⟩ := getNextReadFile_spec queue os
  rw [rollEq]
  cases roll with
  | ended last => exact absurd last later
  | tagRefused _ refused => exact Or.inl ⟨by rw [openNextTag_eq, if_pos refused], rfl⟩
  | shared => exact Or.inr (readRetired_db queue os query)
  | dataRefused _ _ _ _ dir => exact Or.inr (by rw [Os.close_dir, dir, readRetired_db])
  | opened _ _ _ _ dir => exact Or.inr (by rw [dir, readRetired_db])

theorem getNextReadFile_gone {index : UInt64} (gone : os.dir.db index = none) :
    (getNextReadFile queue os).2.2.dir.db index = none := by
  by_cases last : queue.curRdb.curIndex + 1 > queue.curWdb.curIndex
  · simp only [getNextReadFile, last, ↓reduceIte]
    exact gone
  · rcases @getNextReadFile_db queue os last index with ⟨_, same⟩ | same
    · rw [same, gone]
    · rw [same, gone, ite_self]

def Outcome (holds : GetState → Prop) : GetState ⊕ GetResult → Prop :=
  Loop.After holds fun result => ∀ found final, result = .ok (found, final) → holds final

theorem outcome_stop {holds : GetState → Prop} {found : Bool} {final : GetState} (kept : holds final) :
    Outcome holds (.inr (.ok (found, final))) := by
  intro other state same
  cases same
  exact kept

theorem getDataNextFile_gone {state : GetState} {index : UInt64} (gone : state.os.dir.db index = none) :
    Outcome (fun state => state.os.dir.db index = none) (getDataNextFile state) := by
  have stays := @getNextReadFile_gone state.queue state.os index gone
  rw [getDataNextFile]
  cases nextEq : getNextReadFile state.queue state.os with
  | mk ok rest =>
    rw [nextEq] at stays
    cases ok with
    | false => exact outcome_stop stays
    | true => exact stays

theorem getDataStep_gone {state : GetState} {index : UInt64} (gone : state.os.dir.db index = none) :
    Outcome (fun state => state.os.dir.db index = none) (getDataStep state) := by
  rw [getDataStep]
  split
  · exact outcome_stop gone
  · split
    · intro _ _ stop
      cases stop
    · split
      · exact outcome_stop (by rw [GetState.take_os]; exact gone)
      · exact gone
      · exact gone
      · exact gone
      · exact getDataNextFile_gone gone
      · exact getDataNextFile_gone gone

theorem Outcome.mono {weak strong : GetState → Prop} (implies : ∀ state, strong state → weak state)
    {outcome : GetState ⊕ GetResult} (kept : Outcome strong outcome) : Outcome weak outcome := by
  cases outcome with
  | inl next => exact implies next kept
  | inr result => exact fun found final same => implies final (kept found final same)

def Stays (queue : MqQueue) (os : Os) (memory : Bytes) (block : Nat) (now : MqQueue) (nowOs : Os) : Prop :=
  (∃ pos path, Within queue os pos now nowOs ∧ Scan memory pos path block) ∨
    nowOs.dir.db queue.curRdb.curIndex = none

section Blocked

variable {queue : MqQueue} {os : Os} {file : DbFile} {block : Nat}

theorem nextFile_stays (reads : ReadsFile queue os file) (reliable : os.Reliable) {now : MqQueue} {nowOs : Os}
    (within : Within queue os block now nowOs) (item : MsgItem) :
    Outcome (fun state => Stays queue os file.bytes block state.queue state.os)
      (getDataNextFile ⟨item, now, nowOs⟩) := by
  rw [getDataNextFile]
  by_cases last : now.curRdb.curIndex + 1 > now.curWdb.curIndex
  · simp only [getNextReadFile, last, ↓reduceIte]
    refine outcome_stop (Or.inl ⟨block, [], ⟨within.os_eq, within.mapMem, ?_, within.write, within.pos_eq⟩, .here _⟩)
    have order := reads.order
    rw [within.read, within.write, gt_iff_lt, UInt64.lt_iff_toNat_lt, UInt64.toNat_add] at last
    simp only [UInt64.reduceToNat] at last
    simp only [within.write]
    apply UInt64.toNat_inj.mp
    omega
  · have left := @getNextReadFile_db now nowOs last queue.curRdb.curIndex
    rw [openNextTag_reliable _ _ (within.os_eq ▸ reliable), within.read, if_pos rfl] at left
    have gone : (getNextReadFile now nowOs).2.2.dir.db queue.curRdb.curIndex = none := by
      rcases left with ⟨absurd, _⟩ | gone
      · cases absurd
      · exact gone
    cases nextEq : getNextReadFile now nowOs with
    | mk ok rest =>
      rw [nextEq] at gone
      cases ok with
      | false => exact outcome_stop (Or.inr gone)
      | true => exact Or.inr gone

theorem step_stays (reads : ReadsFile queue os file) (reliable : os.Reliable)
    (blocked : (verdict file.bytes block).1 = .lenBey) (bound : block ≤ 67108864)
    (ahead : queue.curRdb.curIndex = queue.curWdb.curIndex → block + 12 < queue.curWdb.pos.toNat)
    {state : GetState} (stays : Stays queue os file.bytes block state.queue state.os) :
    Outcome (fun state => Stays queue os file.bytes block state.queue state.os) (getDataStep state) := by
  obtain ⟨stack, now, nowOs⟩ := state
  rcases stays with ⟨pos, path, within, scan⟩ | gone
  · have before := scan.le
    have inside : pos ≤ 67108864 := by omega
    have going := fun item => within.going inside item fun same => by have := ahead same; omega
    cases scan with
    | here =>
      obtain ⟨item, stepEq⟩ := within.leave reads going blocked stack
      rw [stepEq]
      exact nextFile_stays reads reliable within item
    | skip move rest =>
      obtain ⟨item, later, stepEq, moved⟩ := within.skip reads inside going move stack
      rw [stepEq]
      exact Or.inl ⟨_, _, moved, rest⟩
    | take accepted rest =>
      obtain ⟨final, stepEq, _, taken⟩ := within.take reads inside going accepted stack
      rw [stepEq]
      exact outcome_stop (Or.inl ⟨_, _, taken, rest⟩)
  · exact (getDataStep_gone gone).mono fun _ gone => Or.inr gone

theorem nextFile_last {now : MqQueue} (last : now.curRdb.curIndex + 1 > now.curWdb.curIndex) (item : MsgItem)
    (nowOs : Os) : getDataNextFile ⟨item, now, nowOs⟩ =
      .inr (.ok (false, ⟨item, { now with curRdb := { now.curRdb with curIndex := now.curWdb.curIndex } },
        nowOs⟩)) := by
  simp only [getDataNextFile, getNextReadFile, last, ↓reduceIte]

theorem run_stuck (reads : ReadsFile queue os file) (last : queue.curRdb.curIndex = queue.curWdb.curIndex)
    (inner : queue.curRdb.curIndex + 1 > queue.curWdb.curIndex)
    (blocked : (verdict file.bytes block).1 = .lenBey) (ahead : block + 12 < queue.curWdb.pos.toNat)
    {pos : Nat} (bound : pos ≤ 67108864) (skips : Relation.ReflTransGen (Skips file.bytes) pos block)
    {now : MqQueue} {nowOs : Os} (within : Within queue os pos now nowOs) (items : List MsgItem) :
    ∃ final, run getStep (now, nowOs) items = .ok (final, items.map fun _ => none) := by
  induction items generalizing pos now nowOs with
  | nil => exact ⟨_, rfl⟩
  | cons stack items ih =>
    obtain ⟨_, inside, count, held, later, few, steps, reached⟩ :=
      within.walk reads bound skips (fun _ => ahead) stack
    obtain ⟨item, stepEq⟩ := reached.leave reads
      (fun item => reached.going inside item fun _ => ahead) blocked held
    rw [nextFile_last (by rw [reached.read, reached.write]; exact inner)] at stepEq
    have returned := getData_of_endsIn ⟨_, steps, stepEq⟩ (by omega)
    have kept : Within queue os block
        { later with curRdb := { later.curRdb with curIndex := later.curWdb.curIndex } } nowOs :=
      ⟨reached.os_eq, reached.mapMem, by simp only [reached.write, last], reached.write, reached.pos_eq⟩
    obtain ⟨final, runEq⟩ := ih inside .refl kept
    exact ⟨final, run_cons (getStep_of_data returned) runEq⟩

theorem run_stays (reads : ReadsFile queue os file) (reliable : os.Reliable)
    (blocked : (verdict file.bytes block).1 = .lenBey) (bound : block ≤ 67108864)
    (ahead : queue.curRdb.curIndex = queue.curWdb.curIndex → block + 12 < queue.curWdb.pos.toNat)
    (reached : Reaches file.bytes queue.curRdb.pos.toNat block) {items : List MsgItem} {final : MqQueue × Os}
    {answers : List (Option MsgItem)} (runEq : run getStep (queue, os) items = .ok (final, answers)) :
    Stays queue os file.bytes block final.1 final.2 := by
  obtain ⟨path, scan⟩ := reached
  refine @Machine.run_keeps _ _ _ _ getStep (fun state => Stays queue os file.bytes block state.1 state.2) ?_
    (queue, os) final items answers (Or.inl ⟨_, path, ⟨rfl, rfl, rfl, rfl, rfl⟩, scan⟩) runEq
  rintro ⟨now, nowOs⟩ stack next answer stays stepEq
  obtain ⟨found, reached, returned, rfl⟩ := data_of_getStep stepEq
  rw [mqSmGetData] at returned
  cases loop : Loop.run getDataStep (getDataFuel now) ⟨stack, now, nowOs⟩ with
  | none =>
    rw [loop] at returned
    cases returned
  | some result =>
    rw [loop, Option.getD_some] at returned
    have kept := Loop.run_invariant (fun state stays => step_stays reads reliable blocked bound ahead stays)
      (show Stays queue os file.bytes block (GetState.mk stack now nowOs).queue _ from stays) loop
    exact kept found reached returned

end Blocked

theorem records_disjoint {front back before after : List Record} {bad record : Record}
    (same : front ++ bad :: back = before ++ record :: after) (other : before.length ≠ front.length) :
    used before + record.size ≤ used front ∨ used front + bad.size ≤ used before := by
  rcases append_eq_append_iff.mp same with ⟨middle, rfl, split⟩ | ⟨middle, rfl, split⟩
  · cases middle with
    | nil => exact absurd (by simp) other
    | cons head middle =>
      obtain ⟨rfl, -⟩ := List.cons.inj split
      exact Or.inr (used_record_le front middle bad)
  · cases middle with
    | nil => exact absurd (by simp) other
    | cons head middle =>
      obtain ⟨rfl, -⟩ := List.cons.inj split
      exact Or.inl (used_record_le before middle record)

/-- Undamaged, not passed, and overlapped by no other accepted range. -/
structure Intact (front : List Record) (bad : Record) (back : List Record) (memory : Bytes) (start : Nat)
    (before : List Record) (record : Record) : Prop where
  split : ∃ after, front ++ bad :: back = before ++ record :: after
  other : before.length ≠ front.length
  unread : start ≤ used before
  clear : ¬ Overlaps memory start (used before) record.size

structure Delivered (queue : MqQueue) (os : Os) (memory : Bytes) (path : List (Nat × MsgItem))
    (last : Nat × MsgItem) : Prop where
  accepted : ∀ entry ∈ path, verdict memory entry.1 = (.ok, entry.2)
  ordered : path.Pairwise fun earlier later => earlier.1 + 12 + earlier.2.len.toNat ≤ later.1
  ends : path.getLast? = some last
  returned : ∀ items : List MsgItem, items.length = path.length → ∃ final,
    run getStep (queue, os) items = .ok (final, path.map fun entry => some entry.2) ∧
      Within queue os (last.1 + 12 + last.2.len.toNat) final.1 final.2

section Damaged

variable {queue : MqQueue} {os : Os} {file damaged : DbFile} {front back before : List Record}
  {bad record : Record}

theorem whole_verdict (holds : FileHolds file (front ++ bad :: back))
    (damage : ∀ pos, pos < used front ∨ used front + bad.size ≤ pos → damaged.bytes pos = file.bytes pos)
    {after : List Record} (split : front ++ bad :: back = before ++ record :: after)
    (other : before.length ≠ front.length) :
    used before + record.size ≤ used (front ++ bad :: back) ∧ used before + record.size ≤ 67108864 ∧
      damaged.bytes (used before) = msgHeadOfFirstMagicNum ∧
      verdict damaged.bytes (used before) = (.ok, record.item) := by
  have room := holds.room
  have inside := used_record_le before after record
  have apart := records_disjoint split other
  rw [← split] at inside
  rw [maxDbFileSize_eq] at room
  have held : HoldsAt damaged.bytes (used before) record.bytes := by
    refine (FileHolds.record_held (split ▸ holds)).congr fun pos low high => damage pos ?_
    rw [Record.bytes_length] at high
    omega
  have place : (UInt32.ofNat (used before)).toNat = used before := by
    rw [UInt32.toNat_ofNat']
    omega
  refine ⟨inside, by omega, (stored_magic held).1, ?_⟩
  rw [verdict]
  exact parseMsg_record record {} (by rw [place]; omega) (by rwa [place])

theorem Intact.reaches (holds : FileHolds file (front ++ bad :: back))
    (damage : ∀ pos, pos < used front ∨ used front + bad.size ≤ pos → damaged.bytes pos = file.bytes pos)
    {start : Nat} (intact : Intact front bad back damaged.bytes start before record)
    (free : ¬ Blocks damaged.bytes start (used before)) : Reaches damaged.bytes start (used before) := by
  obtain ⟨_, split⟩ := intact.split
  obtain ⟨_, inside, magic, _⟩ := whole_verdict holds damage split intact.other
  have size := record.size_pos
  exact reaches_record magic (by omega) (by omega) intact.clear free ⟨[], .here start⟩ intact.unread

/-- An intact record is returned iff no length before it leaves the file. -/
theorem damaged_file_read (holds : FileHolds file (front ++ bad :: back)) (reads : ReadsFile queue os damaged)
    (reliable : os.Reliable)
    (damage : ∀ pos, pos < used front ∨ used front + bad.size ≤ pos → damaged.bytes pos = file.bytes pos)
    (writer : queue.curRdb.curIndex = queue.curWdb.curIndex → queue.curWdb.pos.toNat = used (front ++ bad :: back))
    (intact : Intact front bad back damaged.bytes queue.curRdb.pos.toNat before record) :
    (∃ path, Delivered queue os damaged.bytes path (used before, record.item) ∧
      ∀ earlier other, Intact front bad back damaged.bytes queue.curRdb.pos.toNat earlier other →
        used earlier < used before → (used earlier, other.item) ∈ path) ↔
    ¬ Blocks damaged.bytes queue.curRdb.pos.toNat (used before) := by
  obtain ⟨_, split⟩ := intact.split
  obtain ⟨total, inside, _, accepted⟩ := whole_verdict holds damage split intact.other
  have size := record.size_pos
  have start := intact.unread
  have ahead : queue.curRdb.curIndex = queue.curWdb.curIndex → used before + 12 < queue.curWdb.pos.toNat := by
    intro same
    rw [writer same]
    omega
  constructor
  · rintro ⟨path, delivered, -⟩ ⟨block, reached, early, blocked⟩
    obtain ⟨final, runEq, within⟩ := delivered.returned (List.replicate path.length {}) (by simp)
    rcases run_stays reads reliable blocked (by omega) (fun same => by have := ahead same; omega) reached runEq
      with ⟨pos, rest, stays, scan⟩ | gone
    · have order := scan.le
      have same := stays.pos_eq.symm.trans within.pos_eq
      omega
    · rw [within.os_eq, reads.found] at gone
      cases gone
  · intro free
    obtain ⟨path, scan⟩ := intact.reaches holds damage free
    obtain ⟨entries, ordered⟩ := (scan.append (.take accepted (.here _))).entries
    refine ⟨path ++ [(used before, record.item)],
      ⟨fun entry member => (entries entry member).2, ordered, by simp, fun items count => ?_⟩, ?_⟩
    · exact Within.calls ⟨rfl, rfl, rfl, rfl, rfl⟩ reads (by omega) scan accepted ahead count
    · intro earlier other intactOther order
      obtain ⟨path', scan'⟩ := intactOther.reaches holds damage fun ⟨block, reached, early, blocked⟩ =>
        free ⟨block, reached, by omega, blocked⟩
      obtain ⟨_, splitOther⟩ := intactOther.split
      obtain ⟨_, _, _, acceptedOther⟩ := whole_verdict holds damage splitOther intactOther.other
      obtain ⟨rest, rfl, onward⟩ := scan'.passes scan (by omega)
      exact mem_append_left _ (mem_append_right _ (onward.starts acceptedOther order).1)

end Damaged

def Os.replaceDb (os : Os) (index : UInt64) (file : DbFile) : Os :=
  { os with dir := { os.dir with db := update os.dir.db index (some file) } }

theorem Rep.readsFile {kept : Prop} {model : QueueModel} (rep : Rep kept queue os model) (file : DbFile) :
    ReadsFile queue (os.replaceDb queue.curRdb.curIndex file) file :=
  ⟨rep.readMap, by simp [Os.replaceDb], rep.read_le_write⟩

theorem verdict_clear {pos : Nat} (early : pos + 12 < 67108864)
    (clear : memory pos ≠ msgHeadOfFirstMagicNum) : (verdict memory pos).1 = .magNumErr := by
  have place : (UInt32.ofNat pos).toNat = pos := by
    rw [UInt32.toNat_ofNat']
    omega
  rw [verdict, parseMsg_clear _ (by rwa [place]) (by rwa [place])]

variable {start target : Nat}

theorem clear_skips (bound : target + 12 < 67108864)
    (clear : ∀ pos, start ≤ pos → pos < target → memory pos ≠ msgHeadOfFirstMagicNum) (before : start ≤ target) :
    Relation.ReflTransGen (Skips memory) start target := by
  induction target, before using Nat.le_induction with
  | base => exact .refl
  | succ target before ih =>
    refine .tail (ih (by omega) fun pos low high => clear pos low (by omega)) (Or.inl ⟨?_, rfl⟩)
    exact verdict_clear (by omega) (clear target before (by omega))

theorem scan_of_skips (skips : Relation.ReflTransGen (Skips memory) start target) : Scan memory start [] target := by
  induction skips using Relation.ReflTransGen.head_induction_on with
  | refl => exact .here target
  | head move _ ih => exact .skip move ih

theorem clear_reaches (bound : target + 12 < 67108864)
    (clear : ∀ pos, start ≤ pos → pos < target → memory pos ≠ msgHeadOfFirstMagicNum) (before : start ≤ target)
    {pos : Nat} (reached : Reaches memory start pos) :
    (verdict memory pos).1 = .magNumErr ∨ Reaches memory target pos := by
  obtain ⟨path, scan⟩ := reached
  by_cases early : pos < target
  · exact Or.inl (verdict_clear (by omega) (clear pos scan.le early))
  · obtain ⟨rest, _, onward⟩ := (scan_of_skips (clear_skips bound clear before)).passes scan (by omega)
    exact Or.inr ⟨rest, onward⟩

theorem two_hellos : ∃ node final file, createQueue [113] {} = (some node, node.os) ∧
      run queueStep node [.push helloRecord, .push helloRecord] = .ok (final, [.put .putOk, .put .putOk]) ∧
      final.os.dir.db 1 = some file ∧ FileHolds file [helloRecord, helloRecord] ∧ final.os.Reliable ∧
      final.queue.curRdb.curIndex = 1 ∧ final.queue.curWdb.curIndex = 1 ∧
      final.queue.curRdb.pos.toNat ≤ 128 ∧ final.queue.curWdb.pos.toNat = 156 ∧
      ∀ other, ReadsFile final.queue (final.os.replaceDb 1 other) other := by
  obtain ⟨node, createEq, made⟩ := @createQueue_rep [113] {} (fun _ => rfl) (fun _ _ => ⟨rfl, rfl⟩)
  obtain ⟨final, runEq, rep⟩ := @queueRun_rep True node _ [.push helloRecord, .push helloRecord] made
    (guarded_of_length made (by simp [QueueModel.initial, Log.last]))
  have log : (specRun QueueModel.step QueueModel.initial [.push helloRecord, .push helloRecord]).1.log =
      { first := 1, done := [], rest := [helloRecord, helloRecord], more := [] } := rfl
  have reading : final.queue.curRdb.curIndex = 1 := by
    apply UInt64.toNat_inj.mp
    rw [rep.readIndex, log]
    rfl
  have writing : final.queue.curWdb.curIndex = 1 := by
    apply UInt64.toNat_inj.mp
    rw [rep.writeIndex, log]
    rfl
  have start : final.queue.curRdb.pos.toNat ≤ 128 := by
    rcases rep.readPos with pos | ⟨_, pos⟩
    · rw [pos, log]
      decide
    · exact pos
  have stop : final.queue.curWdb.pos.toNat = 156 := by
    rw [rep.writePos, log]
    rfl
  obtain ⟨file, found, holds⟩ := rep.head_file
  rw [reading] at found
  rw [log] at holds
  exact ⟨node, final, file, createEq, runEq, found, holds, rep.reliable, reading, writing, start, stop,
    fun other => reading ▸ rep.readsFile other⟩

@[simps]
def DbFile.patch (file : DbFile) (pos : Nat) (byte : UInt8) : DbFile :=
  { file with bytes := update file.bytes pos byte }

theorem patch_outside {file : DbFile} {pos place : Nat} (byte : UInt8) (inside : 128 ≤ place ∧ place < 142)
    (outside : pos < 128 ∨ 142 ≤ pos) : (file.patch place byte).bytes pos = file.bytes pos :=
  update_of_ne (by omega) _ _

theorem damaged_magic_read : ∃ node final file path, createQueue [113] {} = (some node, node.os) ∧
      run queueStep node [.push helloRecord, .push helloRecord] = .ok (final, [.put .putOk, .put .putOk]) ∧
      final.os.dir.db 1 = some file ∧
      Delivered final.queue (final.os.replaceDb 1 (file.patch 128 0)) (file.patch 128 0).bytes path
        (142, helloRecord.item) := by
  obtain ⟨node, final, file, createEq, runEq, found, holds, reliable, reading, writing, start, stop, reads⟩ :=
    two_hellos
  have stored : HoldsAt file.bytes 128 helloRecord.bytes := @FileHolds.record_held file [] [helloRecord] _ holds
  have clear : ∀ pos, final.queue.curRdb.pos.toNat ≤ pos → pos < 142 →
      (file.patch 128 0).bytes pos ≠ msgHeadOfFirstMagicNum := by
    intro pos _ high
    by_cases first : pos = 128
    · rw [first, DbFile.patch_bytes, update_self]
      decide
    rw [DbFile.patch_bytes, update_of_ne first]
    by_cases head : pos < 128
    · exact holds.headClear pos head
    · obtain ⟨index, rfl⟩ : ∃ index, pos = 128 + index := ⟨pos - 128, by omega⟩
      rw [stored index (by rw [Record.bytes_length]; exact (by omega : index < 14))]
      have others : ∀ index : Fin 14, index.val ≠ 0 → helloRecord.bytes[index.val] ≠ msgHeadOfFirstMagicNum := by
        decide +kernel
      exact others ⟨index, by omega⟩ (show index ≠ 0 by omega)
  have damage := fun pos => @patch_outside file pos 128 0 (by decide)
  obtain ⟨_, _, _, accepted⟩ := @whole_verdict file (file.patch 128 0) [] [helloRecord] [helloRecord]
    helloRecord helloRecord holds damage [] rfl (by decide)
  have reaches : ∀ pos, Reaches (file.patch 128 0).bytes final.queue.curRdb.pos.toNat pos → _ :=
    fun pos => clear_reaches (show 142 + 12 < 67108864 by decide) clear (by omega)
  have intact : Intact [] helloRecord [helloRecord] (file.patch 128 0).bytes final.queue.curRdb.pos.toNat
      [helloRecord] helloRecord := by
    refine ⟨⟨[], rfl⟩, by decide, Nat.le_trans start (by decide), ?_⟩
    rintro ⟨pos, item, reached, apart, taken, low, -⟩
    rcases reaches pos reached with skipped | ⟨path, scan⟩
    · rw [taken] at skipped
      cases skipped
    · have far := (scan.starts accepted (Nat.lt_of_le_of_ne scan.le (Ne.symm apart))).2
      rw [Record.item_len] at far
      exact absurd low (Nat.not_lt.mpr far)
  have free : ¬ Blocks (file.patch 128 0).bytes final.queue.curRdb.pos.toNat 142 := by
    rintro ⟨pos, reached, early, blocked⟩
    rcases reaches pos reached with skipped | ⟨path, scan⟩
    · rw [skipped] at blocked
      cases blocked
    · exact absurd early (Nat.not_lt.mpr scan.le)
  obtain ⟨path, delivered, -⟩ := (@damaged_file_read _ _ _ _ [] [helloRecord] [helloRecord] helloRecord helloRecord
    holds (reads _) reliable damage (fun _ => stop) intact).mpr free
  exact ⟨node, final, file, path, createEq, runEq, found, delivered⟩

theorem patched_length_blocks {file : DbFile} (holds : FileHolds file [helloRecord, helloRecord]) :
    (verdict (file.patch 139 127).bytes 128).1 = .lenBey := by
  have stored : HoldsAt file.bytes 128 helloRecord.bytes := @FileHolds.record_held file [] [helloRecord] _ holds
  have kept : ∀ index, (bound : index < helloRecord.bytes.length) → index ≠ 11 →
      (file.patch 139 127).bytes (128 + index) = helloRecord.bytes[index] := by
    intro index bound other
    rw [DbFile.patch_bytes, update_of_ne (by omega), stored index bound]
  have long : read32 (file.patch 139 127).bytes (128 + 8) = 0x7f000002 := by
    rw [read32, kept 8 (by decide) (by decide), kept 9 (by decide) (by decide), kept 10 (by decide) (by decide),
      DbFile.patch_bytes, update_self]
    decide
  have first : (file.patch 139 127).bytes (128 + 0) = msgHeadOfFirstMagicNum := kept 0 (by decide) (by decide)
  have second : (file.patch 139 127).bytes (128 + 1) = msgHeadOfSecondMagicNum := kept 1 (by decide) (by decide)
  rw [verdict, mqSmDbParseMsg]
  simp only [show (UInt32.ofNat 128).toNat = 128 from rfl, mqSmDbParseMsgHead, long, second]
  rw [if_neg (by decide), if_neg (by simpa using first), if_pos (by decide)]

theorem damaged_length_read : ∃ node final file, createQueue [113] {} = (some node, node.os) ∧
      run queueStep node [.push helloRecord, .push helloRecord] = .ok (final, [.put .putOk, .put .putOk]) ∧
      final.os.dir.db 1 = some file ∧
      (∀ pos, pos < 128 ∨ 142 ≤ pos → (file.patch 139 127).bytes pos = file.bytes pos) ∧
      Intact [] helloRecord [helloRecord] (file.patch 139 127).bytes final.queue.curRdb.pos.toNat
        [helloRecord] helloRecord ∧
      ∀ items, ∃ after, run getStep (final.queue, final.os.replaceDb 1 (file.patch 139 127)) items =
        .ok (after, items.map fun _ => none) := by
  obtain ⟨node, final, file, createEq, runEq, found, holds, reliable, reading, writing, start, stop, reads⟩ :=
    two_hellos
  have blocked := patched_length_blocks holds
  have clear : ∀ pos, final.queue.curRdb.pos.toNat ≤ pos → pos < 128 →
      (file.patch 139 127).bytes pos ≠ msgHeadOfFirstMagicNum := by
    intro pos _ high
    rw [patch_outside _ (by decide) (Or.inl high)]
    exact holds.headClear pos high
  refine ⟨node, final, file, createEq, runEq, found, fun pos => patch_outside _ (by decide),
    ⟨⟨[], rfl⟩, by decide, Nat.le_trans start (by decide), ?_⟩, fun items => ?_⟩
  · rintro ⟨pos, item, reached, apart, taken, low, -⟩
    rcases clear_reaches (by decide) clear start reached with skipped | ⟨path, scan⟩
    · rw [taken] at skipped
      cases skipped
    · cases scan with
      | here =>
        rw [taken] at blocked
        cases blocked
      | skip move _ => rcases move with ⟨other, _⟩ | ⟨other, _⟩ <;> rw [blocked] at other <;> cases other
      | take accepted _ =>
        rw [accepted] at blocked
        cases blocked
  · exact run_stuck (reads _) (reading.trans writing.symm) (by rw [reading, writing]; decide) blocked
      (by rw [stop]; decide) (Nat.le_trans start (by decide)) (clear_skips (by decide) clear start)
      ⟨rfl, rfl, rfl, rfl, rfl⟩ items

end Libucmq
