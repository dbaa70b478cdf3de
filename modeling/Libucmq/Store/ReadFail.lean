import Libucmq.Store.WriteFail
import Libucmq.Store.IndexWrap
import Libucmq.Store.Resync

/-! A rollover of the read side that fails. -/

namespace Libucmq

open Segments Machine

def RtagOpen (queue : MqQueue) (os : Os) : Prop :=
  ∃ fd, queue.rtagFd = some fd ∧ os.opened fd = some (.tag .rtag queue.curRdb.curIndex)

def OldestNext (record : Record) (index : UInt64) (queue : MqQueue) (os : Os) : Prop :=
  ∀ stack, ∃ final, mqSmGetData stack queue os.restored = .ok (true, final) ∧
    final.item = record.item ∧ final.queue.curRdb.curIndex = index ∧ (final.os.dir.db index).isSome

namespace Rep

variable {kept : Prop} {queue : MqQueue} {os : Os} {model : QueueModel} {record : Record}
  {segment : List Record} {later : List (List Record)}

section

variable (rep : Rep kept queue os.restored model)

include rep

theorem rtag_opened :
    ∃ fd, queue.rtagFd = some fd ∧ os.opened fd = some (.tag .rtag queue.curRdb.curIndex) ∧ fd < os.nextHandle := by
  obtain ⟨fd, offset, append, same, opened⟩ := rep.rtagFd
  exact ⟨fd, same, congrArg (Option.map OpenFile.name) opened, rep.fresh.fd_lt opened⟩

theorem read_opened :
    ∃ fd, queue.curRdb.fd = some fd ∧ os.opened fd = some (.db queue.curRdb.curIndex) ∧ fd < os.nextHandle := by
  obtain ⟨fd, same, opened⟩ := rep.readFd
  exact ⟨fd, same, congrArg (Option.map OpenFile.name) opened, rep.fresh.fd_lt opened⟩

theorem write_opened : ∃ fd, queue.curWdb.fd = some fd ∧ os.opened fd = some (.db queue.curWdb.curIndex) := by
  obtain ⟨fd, same, opened⟩ := rep.writeFd
  exact ⟨fd, same, congrArg (Option.map OpenFile.name) opened⟩

variable {tag : Fd}

theorem retired_others (pos : UInt32) (flag : Nat)
    (tagOf : tag = queue.rtagFd ∨ tag = none) {fd : Nat} {name : FileName} (opened : os.opened fd = some name)
    (notTag : name ≠ .tag .rtag queue.curRdb.curIndex) (notDb : name ≠ .db queue.curRdb.curIndex) :
    fd < os.nextHandle ∧ (readRetired (queue.halted tag pos flag) os).opened fd = some name := by
  obtain ⟨tagFd, tagSame, tagOpened, _⟩ := rep.rtag_opened
  obtain ⟨dbFd, dbSame, dbOpened, _⟩ := rep.read_opened
  have early : fd < os.nextHandle := by
    by_contra late
    have unused : os.fds fd = none := (rep.fresh fd (Nat.le_of_not_lt late)).1
    rw [Os.opened_none.mpr unused] at opened
    cases opened
  refine ⟨early, ?_⟩
  rw [readRetired_opened, if_neg, if_neg (by omega), opened]
  rintro (same | same)
  · rcases tagOf with rfl | rfl
    · rw [show (queue.halted queue.rtagFd pos flag).rtagFd = queue.rtagFd from rfl, tagSame] at same
      cases same
      rw [opened] at tagOpened
      exact notTag (Option.some.inj tagOpened)
    · cases same
  · rw [show (queue.halted tag pos flag).curRdb.fd = queue.curRdb.fd from rfl, dbSame] at same
    cases same
    rw [opened] at dbOpened
    exact notDb (Option.some.inj dbOpened)

theorem retired_tag (pos : UInt32) (flag : Nat)
    (tagOf : tag = queue.rtagFd ∨ tag = none) : (readRetired (queue.halted tag pos flag) os).opened os.nextHandle =
      some (.tag .rtag (queue.curRdb.curIndex + 1)) := by
  obtain ⟨tagFd, tagSame, _, tagEarly⟩ := rep.rtag_opened
  obtain ⟨dbFd, dbSame, _, dbEarly⟩ := rep.read_opened
  rw [readRetired_opened, if_neg, if_pos rfl]
  · rfl
  rintro (same | same)
  · rcases tagOf with rfl | rfl
    · rw [show (queue.halted queue.rtagFd pos flag).rtagFd = queue.rtagFd from rfl, tagSame] at same
      cases same
      omega
    · cases same
  · rw [show (queue.halted tag pos flag).curRdb.fd = queue.curRdb.fd from rfl, dbSame] at same
    cases same
    omega

theorem retired_maps (pos : UInt32) (flag : Nat) {address : Nat}
    {index : UInt64} (map : os.maps address = some index) (different : index ≠ queue.curRdb.curIndex) :
    address < os.nextHandle ∧ (readRetired (queue.halted tag pos flag) os).maps address = some index := by
  obtain ⟨readAddress, readMap, readMapped⟩ := rep.readMap
  refine ⟨rep.fresh.map_lt map, ?_⟩
  rw [readRetired_maps, if_neg, map]
  rw [show (queue.halted tag pos flag).curRdb.mapMem = queue.curRdb.mapMem from rfl, readMap]
  intro same
  cases same
  have shown : os.maps address = some queue.curRdb.curIndex := readMapped
  rw [map] at shown
  exact different (Option.some.inj shown)

theorem retired_fresh (pos : UInt32) (flag : Nat) : (readRetired (queue.halted tag pos flag) os).Fresh := by
  intro handle late
  rw [readRetired_nextHandle] at late
  have unused := rep.fresh handle (Nat.le_of_succ_le late)
  refine ⟨Os.opened_none.mp ?_, ?_⟩
  · rw [readRetired_opened]
    split
    · rfl
    · rw [if_neg (by omega)]
      exact Os.opened_none.mpr unused.1
  · rw [readRetired_maps]
    split
    · rfl
    · exact unused.2

theorem roll_moved (more : model.log.more = (record :: segment) :: later)
    {pos : UInt32} {flag : Nat} (tagOf : tag = queue.rtagFd ∨ tag = none) {rolled : MqQueue} {after : Os}
    (roll : ReadRoll (queue.halted tag pos flag) os true rolled after) :
    ReadMoved queue os.restored rolled after.restored := by
  obtain ⟨value, order, apart⟩ := rep.behind more
  have tagOpened := rep.retired_tag pos flag tagOf
  have fresh := @retired_fresh _ _ _ _ rep tag pos flag
  cases roll with
  | shared _ _ last =>
    have last : queue.curRdb.curIndex + 1 = queue.curWdb.curIndex := last
    obtain ⟨address, map, mapped⟩ := rep.writeMap
    obtain ⟨fd, same, opened⟩ := rep.write_opened
    refine ⟨⟨os.nextHandle, address, fd, ?_, tagOpened, ?_, ?_⟩, fresh, ?_, ?_, ?_⟩
    · simp only [readOn, readNext, MqQueue.halted, map, same]
    · rw [last]
      exact (rep.retired_maps pos flag mapped apart.symm).2
    · rw [last]
      exact (rep.retired_others pos flag tagOf opened (by simp) (by simpa using apart.symm)).2
    · intro fd name opened notTag notDb
      exact (rep.retired_others pos flag tagOf opened notTag notDb).2
    · intro address index map different
      exact (rep.retired_maps pos flag map different).2
    · exact readRetired_db _ os
  | opened _ _ _ opening dir =>
    cases opening with
    | opened dbOpened maps nextHandle _ _ _ found =>
      rw [readRetired_nextHandle] at nextHandle
      simp only [readRetired_nextHandle] at dbOpened maps
      refine ⟨⟨os.nextHandle, os.nextHandle + 2, os.nextHandle + 1,
        by rw [readRetired_nextHandle]; rfl, ?_, ?_, ?_⟩, ?_, ?_, ?_, ?_⟩
      · exact (dbOpened os.nextHandle).trans ((if_neg (by omega)).trans tagOpened)
      · exact (maps (os.nextHandle + 2)).trans (if_pos rfl)
      · exact (dbOpened (os.nextHandle + 1)).trans (if_pos rfl)
      · intro handle late
        have late : os.nextHandle + 1 + 2 ≤ handle := nextHandle ▸ late
        have unused := fresh handle (by rw [readRetired_nextHandle]; omega)
        refine ⟨Os.opened_none.mp ?_, ?_⟩
        · exact (dbOpened handle).trans ((if_neg (by omega)).trans (Os.opened_none.mpr unused.1))
        · exact (maps handle).trans ((if_neg (by omega)).trans unused.2)
      · intro fd name opened notTag notDb
        obtain ⟨early, still⟩ := @retired_others _ _ _ _ rep tag pos flag tagOf fd name opened notTag notDb
        exact (dbOpened fd).trans ((if_neg (by omega)).trans still)
      · intro address index map different
        obtain ⟨early, still⟩ := @retired_maps _ _ _ _ rep tag pos flag address index map different
        exact (maps address).trans ((if_neg (by omega)).trans still)
      · intro index
        rw [show after.restored.dir = after.dir from rfl, dir]
        exact readRetired_db _ os index

theorem past_turn (more : model.log.more = (record :: segment) :: later) (tag : Fd) {pos : UInt32} (flag : Nat)
    (past : 67108864 ≤ pos.toNat + 12) (bound : pos.toNat ≤ 67108864) (item : MsgItem) :
    getDataStep ⟨item, queue.halted tag pos flag, os⟩ = getDataNextFile ⟨item, queue.halted tag pos flag, os⟩ := by
  obtain ⟨_, _, apart⟩ := rep.behind more
  obtain ⟨file, mapped, _⟩ := rep.readMemory item
  have shown : (GetState.mk item (queue.halted tag pos flag) os).readMemory = .ok (some file.bytes) := mapped
  have going : (GetState.mk item (queue.halted tag pos flag) os).atEnd = false := by
    rw [← Bool.not_eq_true, GetState.atEnd_iff (by exact bound)]
    rintro ⟨same, _⟩
    exact apart same
  have parsed := @parseMsg_past file.bytes pos item past bound
  rw [getDataStep, going, shown]
  simp only [Bool.false_eq_true, ↓reduceIte]
  rw [show (queue.halted tag pos flag).curRdb.pos = pos from rfl, parsed]

theorem reach_end (rest : model.log.rest = [])
    (more : model.log.more = (record :: segment) :: later) (item : MsgItem) :
    ∃ count pos, count ≤ 67108864 ∧ 67108864 ≤ pos.toNat + 12 ∧ pos.toNat ≤ 67108864 ∧
      Loop.Steps getDataStep count ⟨item, queue, os⟩ ⟨item, queue.seek pos, os⟩ := by
  obtain ⟨_, _, apart⟩ := rep.behind more
  obtain ⟨file, mapped, holds⟩ := rep.readMemory item
  obtain ⟨lower, upper⟩ := rep.read_pos_le
  by_cases near : 67108864 ≤ queue.curRdb.pos.toNat + 12
  · exact ⟨0, queue.curRdb.pos, by omega, near, by omega, Loop.Steps.refl _⟩
  · have steps := @scan_clear { item, queue, os } file.bytes 67108852 mapped (by omega)
      (by dsimp only; omega)
      (fun pos after before => by
        by_cases early : pos < used model.log.done
        · exact rep.clear_before holds pos after early
        · rw [rest, List.append_nil] at holds
          exact holds.restClear pos (by omega) (by rw [maxDbFileSize_eq]; omega))
      (fun pos _ same => absurd same apart)
    have target : (UInt32.ofNat 67108852).toNat = 67108852 := rfl
    exact ⟨_, _, by omega, by omega, by omega, steps⟩

end

theorem oldest (rep : Rep kept queue os model) (waiting : model.log.rest = record :: segment)
    {count : Nat} {stack item : MsgItem} {now : MqQueue} {nowOs : Os} (few : count ≤ 1)
    (steps : Loop.Steps getDataStep count ⟨stack, now, nowOs⟩ ⟨item, queue, os⟩) :
    ∃ final, mqSmGetData stack now nowOs = .ok (true, final) ∧ final.item = record.item ∧
      final.queue.curRdb.curIndex = queue.curRdb.curIndex ∧ (final.os.dir.db queue.curRdb.curIndex).isSome := by
  obtain ⟨turns, bound, ends⟩ := rep.takes waiting item
  obtain ⟨file, found, _⟩ := rep.head_file
  refine ⟨_, getData_of_endsIn (Loop.EndsIn.of_steps steps ends) (by omega), GetState.take_item _ _, ?_, ?_⟩
  · rw [GetState.take_queue]
    rfl
  · rw [GetState.take_os]
    exact Option.isSome_iff_exists.mpr ⟨file, found⟩

theorem moved_oldest (rep : Rep kept queue os.restored model) (more : model.log.more = (record :: segment) :: later)
    {rolled : MqQueue} {after : Os} (moved : ReadMoved queue os.restored rolled after.restored) :
    OldestNext record (queue.curRdb.curIndex + 1) rolled after := by
  intro stack
  have loose := rep.readMoved more moved (fun _ => rfl)
  obtain ⟨_, _, _, queueEq, _⟩ := moved.queue_eq
  have index : rolled.curRdb.curIndex = queue.curRdb.curIndex + 1 := by rw [queueEq]
  obtain ⟨final, getEq, itemEq, indexEq, found⟩ := loose.oldest rfl (Nat.zero_le 1) (Loop.Steps.refl _)
  rw [index] at indexEq found
  exact ⟨final, getEq, itemEq, indexEq, found⟩

theorem tagless_oldest (rep : Rep kept queue os.restored model) (more : model.log.more = (record :: segment) :: later)
    {pos : UInt32} (past : 67108864 ≤ pos.toNat + 12) (bound : pos.toNat ≤ 67108864) :
    OldestNext record (queue.curRdb.curIndex + 1) (queue.halted none pos 0) os.tick := by
  intro stack
  have again : Rep kept queue os.tick.restored.restored model := rep.tick
  obtain ⟨rolled, after, nextEq, read⟩ := again.nextReadFile_halted more pos 0 (Or.inr rfl)
  have nextEq : getNextReadFile (queue.halted none pos 0) os.tick.restored = (true, rolled, after) := nextEq
  obtain ⟨found, next, final, specEq, roll⟩ := getNextReadFile_spec (queue.halted none pos 0) os.tick.restored
  rw [nextEq] at specEq
  cases specEq
  have moved := again.roll_moved more (Or.inr rfl) roll
  obtain ⟨_, _, _, queueEq, _⟩ := moved.queue_eq
  have index : rolled.curRdb.curIndex = queue.curRdb.curIndex + 1 := by rw [queueEq]
  have loose := again.readMoved more moved (fun _ => rfl)
  rw [(read.goes.reliable again.reliable).restored] at loose
  have turn : getDataStep ⟨stack, queue.halted none pos 0, os.tick.restored⟩ = .inl ⟨stack, rolled, after⟩ := by
    rw [again.past_turn more none 0 past bound, getDataNextFile, nextEq]
  obtain ⟨final, getEq, itemEq, indexEq, present⟩ :=
    loose.oldest rfl (Nat.le_refl 1) (Loop.Steps.single turn)
  rw [index] at indexEq present
  exact ⟨final, getEq, itemEq, indexEq, present⟩

end Rep

theorem Rep.ReadMoved.rtagOpen {queue rolled : MqQueue} {os after : Os}
    (moved : Rep.ReadMoved queue os rolled after.restored) : RtagOpen rolled after := by
  obtain ⟨tag, _, _, queueEq, opened, _⟩ := moved.queue_eq
  rw [queueEq]
  exact ⟨tag, rfl, opened⟩

theorem unmapped_removes {queue : MqQueue} {os : Os} (unmapped : queue.curRdb.mapMem = none)
    (apart : queue.curRdb.curIndex ≠ queue.curWdb.curIndex) {stack : MsgItem} {final : GetState}
    (returned : mqSmGetData stack queue os = .ok (true, final)) : final.os.dir.db queue.curRdb.curIndex = none := by
  have going : (GetState.mk stack queue os).atEnd = false := by
    rw [← Bool.not_eq_true, GetState.atEnd]
    simp [apart]
  have turn : getDataStep ⟨stack, queue, os⟩ = getDataNextFile ⟨stack, queue, os⟩ := by
    rw [getDataStep, going]
    simp only [Bool.false_eq_true, ↓reduceIte, GetState.readMemory, unmapped, mqSmDbParseMsg]
  obtain ⟨count, ends⟩ : ∃ count, Loop.EndsIn getDataStep count ⟨stack, queue, os⟩ (.ok (true, final)) := by
    rw [mqSmGetData] at returned
    cases ran : Loop.run getDataStep (getDataFuel queue) ⟨stack, queue, os⟩ with
    | none =>
      rw [ran] at returned
      cases returned
    | some result =>
      rw [ran] at returned
      cases returned
      obtain ⟨count, _, ends⟩ := Loop.endsIn_of_run ran
      exact ⟨count, ends⟩
  obtain ⟨found, next, after, nextEq, roll⟩ := getNextReadFile_spec queue os
  rw [getDataNextFile, nextEq] at turn
  cases found with
  | false => cases ends.head turn
  | true =>
    obtain ⟨_, rest⟩ := ends.tail turn
    have gone : after.dir.db queue.curRdb.curIndex = none := by
      cases roll with
      | shared => rw [readRetired_db, if_pos rfl]
      | opened _ _ _ _ dir => rw [dir, readRetired_db, if_pos rfl]
    exact rest.invariant (fun _ => getDataStep_gone) gone true final rfl

theorem writeN_calls (os : Os) (fd : Fd) (data : List UInt8) : (os.writeN fd data).2.calls = os.calls + 1 := by
  cases fd with
  | none => rfl
  | some fd =>
    cases granted : os.faults os.calls <;> simp only [Os.writeN, Os.attempt, granted] <;> split <;> rfl

theorem close_calls (os : Os) (fd : Fd) : (os.close fd).calls = os.calls := by cases fd <;> rfl

theorem munmap_calls (os : Os) (address : Option Nat) : (os.munmap address).calls = os.calls := by
  cases address <;> rfl

theorem readRetired_calls (queue : MqQueue) (os : Os) (call : Nat) :
    (readRetired queue os).faults call = os.faults call ∧ (readRetired queue os).calls = os.calls + 2 := by
  have written := (Os.writeN_handles (tagOpened .rtag (queue.curRdb.curIndex + 1) os) (some os.nextHandle)
    (rtagItem queue.getNum 128)).1
  refine ⟨?_, ?_⟩
  · simp only [readRetired, retireReadFile, mqSmRtagWriteItem, Os.emit_faults, Os.close_faults, Os.munmap_faults]
    exact congrFun written.faults call
  · simp only [readRetired, retireReadFile, mqSmRtagWriteItem, Os.emit_calls, close_calls, munmap_calls,
      writeN_calls]
    rfl

/-- The open of the next tag, and for another file than the written one its open and its map, are all that can fail. -/
theorem getNextReadFile_found_iff {queue : MqQueue} {os : Os} {file : DbFile}
    (later : ¬ queue.curRdb.curIndex + 1 > queue.curWdb.curIndex)
    (apart : queue.curRdb.curIndex + 1 ≠ queue.curRdb.curIndex)
    (present : os.dir.db (queue.curRdb.curIndex + 1) = some file) (full : file.size = maxDbFileSize) :
    (getNextReadFile queue os).1 = true ↔ os.faults os.calls = false ∧
      (queue.curRdb.curIndex + 1 = queue.curWdb.curIndex ∨
        os.faults (os.calls + 2) = false ∧ os.faults (os.calls + 3) = false) := by
  cases tagged : os.faults os.calls with
  | true =>
      simp only [getNextReadFile, later, ↓reduceIte, openNextTag_eq, tagged, Bool.false_eq_true, false_and,
        reduceCtorEq]
  | false =>
      by_cases last : queue.curRdb.curIndex + 1 = queue.curWdb.curIndex
      · have same := later
        rw [last] at same
        simp only [getNextReadFile, last, same, ↓reduceIte, openNextTag_eq, tagged, Bool.false_eq_true, true_or,
          and_self]
      · have there : (readRetired queue os).dir.db (queue.curRdb.curIndex + 1) = some file := by
          rw [readRetired_db, if_neg apart, present]
        have sized : toCInt file.size = 67108864 := by
          rw [full]
          exact toCInt_of_lt (by simp)
        have faults := fun call => (readRetired_calls queue os call).1
        have calls := (readRetired_calls queue os 0).2
        have opens : (mqSmOpenDbFile (queue.curRdb.curIndex + 1) false (readRetired queue os)).1.isSome = true ↔
            os.faults (os.calls + 2) = false ∧ os.faults (os.calls + 3) = false := by
          rw [openDbFile_eq, calls, faults]
          cases opened : os.faults (os.calls + 2) with
          | true => simp
          | false =>
              cases mapped : os.faults (os.calls + 3) <;>
                simp [there, sized, dbMapped, dbSized, dbOpened, Os.mmap, Os.attempt, faults, calls, mapped]
        unfold readRetired readNext at opens
        simp only [getNextReadFile, later, last, ↓reduceIte, openNextTag_eq, tagged, Bool.false_eq_true, false_or,
          true_and, ← opens]
        split <;> simp_all

section

variable {kept : Prop} {queue : MqQueue} {os : Os} {model : QueueModel} {record : Record}
  {segment : List Record} {later : List (List Record)} {pos : UInt32} {found : Bool} {next : MqQueue}
  {after : Os}

section

variable (rep : Rep kept queue os.restored model)

include rep

theorem ReadRoll.rtag_iff (more : model.log.more = (record :: segment) :: later)
    (roll : ReadRoll (queue.seek pos) os found next after) : RtagOpen next after ↔ found = true := by
  obtain ⟨value, order, _⟩ := rep.behind more
  cases roll with
  | ended last =>
    have last : queue.curWdb.curIndex < queue.curRdb.curIndex + 1 := last
    rw [UInt64.lt_iff_toNat_lt, value, rep.writeIndex] at last
    omega
  | tagRefused _ _ =>
    refine ⟨?_, nofun⟩
    rintro ⟨fd, same, _⟩
    cases same
  | dataRefused _ _ _ _ _ =>
    refine ⟨?_, nofun⟩
    rintro ⟨fd, same, opened⟩
    cases same
    rw [Os.opened_close, if_pos rfl] at opened
    cases opened
  | shared later granted last =>
    exact ⟨fun _ => rfl, fun _ => (rep.roll_moved more (Or.inl rfl) (.shared later granted last)).rtagOpen⟩
  | opened later granted before opening dir =>
    exact ⟨fun _ => rfl, fun _ =>
      (rep.roll_moved more (Or.inl rfl) (.opened later granted before opening dir)).rtagOpen⟩

theorem ReadRoll.oldest_iff (more : model.log.more = (record :: segment) :: later) (past : 67108864 ≤ pos.toNat + 12)
    (bound : pos.toNat ≤ 67108864) (roll : ReadRoll (queue.seek pos) os found next after) :
    OldestNext record (queue.curRdb.curIndex + 1) next after ↔ found = true ∨ os.faults os.calls = true := by
  obtain ⟨value, order, _⟩ := rep.behind more
  cases roll with
  | ended last =>
    have last : queue.curWdb.curIndex < queue.curRdb.curIndex + 1 := last
    rw [UInt64.lt_iff_toNat_lt, value, rep.writeIndex] at last
    omega
  | tagRefused _ refused => exact ⟨fun _ => Or.inr refused, fun _ => rep.tagless_oldest more past bound⟩
  | dataRefused _ granted before _ _ =>
    refine ⟨fun oldest => ?_, fun failed => ?_⟩
    · obtain ⟨final, getEq, _, _, present⟩ := oldest {}
      have gone := unmapped_removes rfl before getEq
      rw [show final.os.dir.db (queue.curRdb.curIndex + 1) = none from gone] at present
      cases present
    · rw [granted] at failed
      rcases failed with failed | failed <;> cases failed
  | shared later granted last =>
    exact ⟨fun _ => Or.inl rfl, fun _ => rep.moved_oldest more
      (rep.roll_moved more (Or.inl rfl) (.shared later granted last))⟩
  | opened later granted before opening dir =>
    exact ⟨fun _ => Or.inl rfl, fun _ => rep.moved_oldest more
      (rep.roll_moved more (Or.inl rfl) (.opened later granted before opening dir))⟩

theorem Rep.found_iff (more : model.log.more = (record :: segment) :: later)
    (nextEq : getNextReadFile (queue.seek pos) os = (found, next, after)) : found = true ↔
      os.faults os.calls = false ∧
        (later = [] ∨ os.faults (os.calls + 2) = false ∧ os.faults (os.calls + 3) = false) := by
  obtain ⟨value, order, -⟩ := rep.behind more
  have write := rep.writeIndex
  have read := rep.readIndex
  obtain ⟨file, present, holds⟩ := rep.files (queue.curRdb.curIndex + 1) (by omega) (by omega)
  have spec := @getNextReadFile_found_iff (queue.seek pos) os file
    (show ¬ queue.curWdb.curIndex < queue.curRdb.curIndex + 1 by rw [UInt64.lt_iff_toNat_lt]; omega)
    (show queue.curRdb.curIndex + 1 ≠ queue.curRdb.curIndex by
      intro same
      rw [same] at value
      omega) present holds.size
  have last : queue.curRdb.curIndex + 1 = queue.curWdb.curIndex ↔ later = [] := by
    rw [← UInt64.toNat_inj, value, write, Log.last, more, ← List.length_eq_zero_iff, List.length_cons]
    omega
  rw [nextEq] at spec
  rw [← last]
  exact spec

theorem Rep.get_rolls (rest : model.log.rest = [])
    (more : model.log.more = (record :: segment) :: later) (stack : MsgItem) :
    ∃ pos found next after, 67108864 ≤ pos.toNat + 12 ∧ pos.toNat ≤ 67108864 ∧
      getNextReadFile (queue.seek pos) os = (found, next, after) ∧ ReadRoll (queue.seek pos) os found next after ∧
      (found = false → mqSmGetData stack queue os = .ok (false, ⟨stack, next, after⟩)) := by
  obtain ⟨count, pos, few, past, bound, steps⟩ := rep.reach_end rest more stack
  obtain ⟨found, next, after, nextEq, roll⟩ := getNextReadFile_spec (queue.seek pos) os
  refine ⟨pos, found, next, after, past, bound, nextEq, roll, ?_⟩
  rintro rfl
  have turn : getDataStep ⟨stack, queue.seek pos, os⟩ = .inr (.ok (false, ⟨stack, next, after⟩)) := by
    have past := rep.past_turn more queue.rtagFd queue.curRdb.flag past bound stack
    have seekEq : queue.halted queue.rtagFd pos queue.curRdb.flag = queue.seek pos := rfl
    rw [seekEq] at past
    rw [past, getDataNextFile, nextEq]
  exact getData_of_endsIn ⟨_, steps, turn⟩ few

end

/-- No message is returned, nor lost unless the data file failed. -/
theorem readRollover_failure (rep : Rep kept queue os.restored model) (rest : model.log.rest = [])
    (more : model.log.more = (record :: segment) :: later) (stack : MsgItem) :
    ∃ pos found next after, getNextReadFile (queue.seek pos) os = (found, next, after) ∧
      (found = true ↔ os.faults os.calls = false ∧
        (later = [] ∨ os.faults (os.calls + 2) = false ∧ os.faults (os.calls + 3) = false)) ∧
      (found = false → mqSmGetData stack queue os = .ok (false, ⟨stack, next, after⟩)) ∧
      (RtagOpen next after ↔ found = true) ∧
      (OldestNext record (queue.curRdb.curIndex + 1) next after ↔ found = true ∨ os.faults os.calls = true) := by
  obtain ⟨pos, found, next, after, past, bound, nextEq, roll, failed⟩ := rep.get_rolls rest more stack
  exact ⟨pos, found, next, after, nextEq, rep.found_iff more nextEq, failed, roll.rtag_iff rep more,
    roll.oldest_iff rep more past bound⟩

end

theorem Lapping.push {wide : Record} {index : Nat} {model : QueueModel} (size : wide.size = 67108736)
    (lapping : Lapping wide index model) :
    (model.step (.push wide)).1.log = { first := index, done := [wide], rest := [], more := [[wide], [wide]] } := by
  have isOpen := lapping.modest.not_full (by simp [QueueModel.unread, lapping.log, Log.pending])
  have full : model.fits wide = false := by
    simp [QueueModel.fits, lapping.log, Log.tail, Log.segment, used, size, dbFileHeadLen]
  simp [QueueModel.step, QueueModel.push, isOpen, full, QueueModel.roll, QueueModel.store,
    QueueModel.note, lapping.log, Log.roll, Log.append]

theorem three_files {wide : Record} (size : wide.size = 67108736) : ∃ node final answers model,
    createQueue [113] {} = (some node, node.os) ∧
      run queueStep node [.push wide, .pop {}, .push wide, .push wide] = .ok (final, answers) ∧
      Rep True final.queue final.os model ∧
      model.log = { first := 1, done := [wide], rest := [], more := [[wide], [wide]] } := by
  obtain ⟨node, createEq, rep⟩ := @createQueue_rep [113] {} (fun _ => rfl) (fun _ _ => ⟨rfl, rfl⟩)
  have lapped := lapped_one size {}
  obtain ⟨first, firstEq, firstRep⟩ := queueStep_rep (.push wide) rep (by
    intro _
    rw [rep.writeIndex]
    decide)
  obtain ⟨second, secondEq, secondRep⟩ := queueStep_rep (.pop {}) firstRep trivial
  obtain ⟨third, thirdEq, thirdRep⟩ := queueStep_rep (.push wide) secondRep (by
    intro _
    rw [secondRep.writeIndex, lapped.log]
    simp [Log.last])
  obtain ⟨final, finalEq, finalRep⟩ := queueStep_rep (.push wide) thirdRep (by
    intro _
    rw [thirdRep.writeIndex, (lapped.push size).log]
    simp [Log.last])
  have ran := run_cons firstEq (run_cons secondEq (run_cons thirdEq
    (run_cons finalEq (run_nil _ _))))
  exact ⟨node, final, _, _, createEq, ran, finalRep, (lapped.push size).push size⟩

def Os.refusing (os : Os) (ahead : Nat) : Os := { os with faults := fun call => call == os.calls + ahead }

theorem Os.Reliable.refusing {os : Os} (reliable : os.Reliable) (ahead : Nat) :
    (os.refusing ahead).restored = os := reliable.restored

theorem readRollover_failure_tag : ∃ node final answers failed, createQueue [113] {} = (some node, node.os) ∧
      run queueStep node [.push wideRecord, .pop {}, .push wideRecord, .push wideRecord] =
        .ok (final, answers) ∧ mqSmGetData {} final.queue (final.os.refusing 0) = .ok (false, failed) ∧
      ¬ RtagOpen failed.queue failed.os ∧
      OldestNext wideRecord (final.queue.curRdb.curIndex + 1) failed.queue failed.os := by
  obtain ⟨node, final, answers, model, createEq, runEq, rep, log⟩ := three_files (zeroRecord_size _ _ _)
  obtain ⟨pos, found, next, after, -, rolled, failed, tag, oldest⟩ :=
    @readRollover_failure True final.queue (final.os.refusing 0) model wideRecord [] [[wideRecord]]
      (by rw [rep.reliable.refusing]; exact rep) (by rw [log]) (by rw [log]; rfl) {}
  obtain rfl : found = false := by
    rw [← Bool.not_eq_true, rolled]
    simp [Os.refusing]
  exact ⟨node, final, answers, _, createEq, runEq, failed rfl, by simp [tag],
    oldest.mpr (Or.inr (beq_self_eq_true _))⟩

theorem readRollover_loses : ∃ node final answers failed, createQueue [113] {} = (some node, node.os) ∧
      run queueStep node [.push wideRecord, .pop {}, .push wideRecord, .push wideRecord] =
        .ok (final, answers) ∧ mqSmGetData {} final.queue (final.os.refusing 2) = .ok (false, failed) ∧
      ¬ RtagOpen failed.queue failed.os ∧
      ¬ OldestNext wideRecord (final.queue.curRdb.curIndex + 1) failed.queue failed.os := by
  obtain ⟨node, final, answers, model, createEq, runEq, rep, log⟩ := three_files (zeroRecord_size _ _ _)
  have broken : Rep True final.queue (final.os.refusing 2).restored model := by
    rw [rep.reliable.refusing]
    exact rep
  have more : model.log.more = [wideRecord] :: [[wideRecord]] := by rw [log]; rfl
  obtain ⟨pos, found, next, after, past, bound, nextEq, roll, failed⟩ := broken.get_rolls (by rw [log]) more {}
  have granted : (final.os.refusing 2).faults (final.os.refusing 2).calls = false := by
    simp [Os.refusing]
  obtain rfl : found = false := by
    rw [← Bool.not_eq_true, broken.found_iff more nextEq]
    simp [Os.refusing]
  refine ⟨node, final, answers, _, createEq, runEq, failed rfl, ?_, ?_⟩
  · rw [roll.rtag_iff broken more]
    simp
  · rw [roll.oldest_iff broken more past bound, granted]
    simp

end Libucmq
