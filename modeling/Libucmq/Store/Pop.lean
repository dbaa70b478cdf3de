import Libucmq.Store.Push
import Libucmq.Store.Calls

/-! The read side of the queue refines the model. -/

namespace Libucmq

open Segments Memory List

variable {rolled : MqQueue} {after : Os} {next : List Record} {more : List (List Record)}

def MqQueue.seek (queue : MqQueue) (pos : UInt32) : MqQueue :=
  { queue with curRdb := { queue.curRdb with pos } }

def MqQueue.halted (queue : MqQueue) (rtagFd : Fd) (pos : UInt32) (flag : Nat) : MqQueue :=
  { queue with rtagFd, curRdb := { queue.curRdb with pos, flag } }

namespace GetState

def seek (state : GetState) (pos : UInt32) : GetState :=
  { state with queue := state.queue.seek pos }

@[simp] theorem seek_readMemory (state : GetState) (pos : UInt32) :
    (state.seek pos).readMemory = state.readMemory := rfl

theorem atEnd_iff {state : GetState} (bound : state.queue.curRdb.pos.toNat ≤ 67108864) :
    state.atEnd = true ↔ state.queue.curRdb.curIndex = state.queue.curWdb.curIndex ∧
      state.queue.curWdb.pos.toNat ≤ state.queue.curRdb.pos.toNat + 12 := by
  have sum := @pos_add_toNat state.queue.curRdb.pos 12 (by simp only [UInt32.reduceToNat]; omega)
  simp only [UInt32.reduceToNat] at sum
  simp [atEnd, UInt32.le_iff_toNat_le, sum]

theorem take_queue (state : GetState) (item : MsgItem) : (state.take item).queue =
      { state.queue with
        curRdb := { state.queue.curRdb with
          pos := state.queue.curRdb.pos + (item.len + 12)
          optCount := state.queue.curRdb.optCount + 1 }
        getNum := if state.queue.getNum + 1 ≥ state.queue.maxque.toUInt64 then
          state.queue.getNum + 1 - state.queue.maxque.toUInt64 else state.queue.getNum + 1
        putNum := if state.queue.getNum + 1 ≥ state.queue.maxque.toUInt64 then
          state.queue.putNum - state.queue.maxque.toUInt64 else state.queue.putNum } := by
  simp only [take]
  split <;> rfl

@[simp] theorem take_os (state : GetState) (item : MsgItem) : (state.take item).os = state.os := by
  simp only [take]
  split <;> rfl

@[simp] theorem take_item (state : GetState) (item : MsgItem) : (state.take item).item = item := by
  simp only [take]
  split <;> rfl

end GetState

theorem getDataStep_clear {state : GetState} {memory : Bytes} (mapped : state.readMemory = .ok (some memory))
    (going : state.atEnd = false) (early : state.queue.curRdb.pos.toNat + 12 < 67108864)
    (clear : memory state.queue.curRdb.pos.toNat ≠ msgHeadOfFirstMagicNum) :
    getDataStep state = .inl (state.seek (state.queue.curRdb.pos + 1)) := by
  rw [getDataStep, going]
  simp only [Bool.false_eq_true, ↓reduceIte, mapped, parseMsg_clear state.item early clear]
  rfl

theorem scan_clear {state : GetState} {memory : Bytes} {target : Nat}
    (mapped : state.readMemory = .ok (some memory)) (upper : target + 12 ≤ 67108864)
    (lower : state.queue.curRdb.pos.toNat ≤ target)
    (clear : ∀ pos, state.queue.curRdb.pos.toNat ≤ pos → pos < target → memory pos ≠ msgHeadOfFirstMagicNum)
    (going : ∀ pos, pos < target → state.queue.curRdb.curIndex = state.queue.curWdb.curIndex →
      pos + 12 < state.queue.curWdb.pos.toNat) : Loop.Steps getDataStep (target - state.queue.curRdb.pos.toNat) state
      (state.seek (UInt32.ofNat target)) := by
  obtain ⟨count, distance⟩ : ∃ count, target - state.queue.curRdb.pos.toNat = count := ⟨_, rfl⟩
  rw [distance]
  -- The induction is on the bytes still to be walked over.
  induction count generalizing state with
  | zero =>
    have here : UInt32.ofNat target = state.queue.curRdb.pos := by
      rw [show target = state.queue.curRdb.pos.toNat by omega]
      simp
    rw [here]
    exact Loop.Steps.refl state
  | succ count ih =>
    have next : (state.queue.curRdb.pos + 1).toNat = state.queue.curRdb.pos.toNat + 1 := by
      rw [pos_add_toNat] <;> simp only [UInt32.reduceToNat]
      omega
    have notEnd : state.atEnd = false := by
      rw [← Bool.not_eq_true, GetState.atEnd_iff (by omega)]
      rintro ⟨same, reached⟩
      have gap := going state.queue.curRdb.pos.toNat (by omega) same
      omega
    have turn := getDataStep_clear mapped notEnd (by omega) (clear _ (by omega) (by omega))
    have moved : (state.seek (state.queue.curRdb.pos + 1)).queue.curRdb.pos =
        state.queue.curRdb.pos + 1 := rfl
    refine Loop.Steps.next turn (@ih (state.seek (state.queue.curRdb.pos + 1)) mapped ?_ ?_ going ?_)
    · rw [moved, next]
      omega
    · intro pos after before
      rw [moved, next] at after
      exact clear pos (by omega) before
    · rw [moved, next]
      omega

namespace Rep

variable {kept : Prop} {queue : MqQueue} {os : Os} {model : QueueModel}

theorem readRolled_db (read : ReadRolled queue os rolled after) (index : UInt64) :
    after.dir.db index = if index = queue.curRdb.curIndex then none else os.dir.db index := by
  rw [read.goes.dir]
  simp [readRollEffects]

theorem readRolled_tag (read : ReadRolled queue os rolled after) (kind : TagKind) (index : UInt64) :
    after.dir.tag kind index =
      if kind = .rtag ∧ index = queue.curRdb.curIndex then none
      else if kind = .rtag ∧ index = queue.curRdb.curIndex + 1 then
        some (overwrite ((os.dir.tag .rtag (queue.curRdb.curIndex + 1)).getD []) 0 (rtagItem queue.getNum 128))
      else os.dir.tag kind index := by
  rw [read.goes.dir]
  simp only [readRollEffects, QueueDir.applyAll_cons, QueueDir.applyAll_nil,
    QueueDir.apply_unlinkDb_tag, QueueDir.apply_unlinkTag_tag, QueueDir.apply_writeTag_tag,
    QueueDir.apply_createTag_tag]
  by_cases next : kind = .rtag ∧ index = queue.curRdb.curIndex + 1 <;> simp [next]

section

variable (rep : Rep kept queue os model)

include rep

theorem readRolled_fd {handle : Nat} {file : OpenFile} (read : ReadRolled queue os rolled after) (opened : os.fds handle = some file)
    (notTag : ∀ offset append, file ≠ .tag .rtag queue.curRdb.curIndex offset append)
    (notDb : file ≠ .db queue.curRdb.curIndex) : after.fds handle = some file := by
  obtain ⟨tagFd, offset, append, tagSame, tagOpen⟩ := rep.rtagFd
  obtain ⟨dbFd, dbSame, dbOpen⟩ := rep.readFd
  rw [read.otherFds handle (rep.fresh.fd_lt opened) ?_ ?_, opened]
  · rw [tagSame]
    intro equal
    exact fd_ne opened tagOpen (notTag offset append) (Option.some.inj equal).symm
  · rw [dbSame]
    intro equal
    exact fd_ne opened dbOpen notDb (Option.some.inj equal).symm

theorem notFirst {index : UInt64} (late : model.log.first < index.toNat) : index ≠ queue.curRdb.curIndex := by
  rintro rfl
  rw [rep.readIndex] at late
  omega

section

variable (later : model.log.more = next :: more)

include later

theorem behind :
    (queue.curRdb.curIndex + 1).toNat = model.log.first + 1 ∧ model.log.first + 1 ≤ model.log.last ∧
      queue.curRdb.curIndex ≠ queue.curWdb.curIndex := by
  have bound := queue.curWdb.curIndex.toNat_lt
  have last := rep.writeIndex
  rw [Log.last, later, length_cons] at last
  refine ⟨?_, ?_, ?_⟩
  · rw [index_next (by rw [rep.readIndex]; omega), rep.readIndex]
  · rw [Log.last, later, length_cons]
    omega
  · intro equal
    have values := congrArg UInt64.toNat equal
    rw [rep.readIndex] at values
    omega

theorem nextReadFile_halted {tag : Fd} (pos : UInt32) (flag : Nat) (tagOf : tag = queue.rtagFd ∨ tag = none) :
    ∃ rolled after, getNextReadFile (queue.halted tag pos flag) os = (true, rolled, after) ∧
      ReadRolled (queue.halted tag pos flag) os rolled after := by
  obtain ⟨value, order, apart⟩ := rep.behind later
  obtain ⟨writeMap, map, mapped⟩ := rep.writeMap
  obtain ⟨writeFd, fd, opened⟩ := rep.writeFd
  obtain ⟨readAddress, readMap, readMapped⟩ := rep.readMap
  obtain ⟨readFd, readSame, readOpened⟩ := rep.readFd
  obtain ⟨tagFd, offset, append, tagSame, tagOpened⟩ := rep.rtagFd
  have files : OpenFile.db queue.curRdb.curIndex ≠ .db queue.curWdb.curIndex := by simpa using apart
  have tagHandle : ∀ handle, tag = some handle → handle = tagFd := by
    rintro handle rfl
    rcases tagOf with same | same
    · rw [tagSame] at same
      exact Option.some.inj same
    · cases same
  apply @getNextReadFile_rolled (queue.halted tag pos flag) os writeMap writeFd rep.reliable rep.fresh ?_ ?_ ?_
    map fd mapped opened
  · show queue.curRdb.mapMem ≠ some writeMap
    rw [readMap]
    rintro equal
    cases equal
    rw [readMapped] at mapped
    exact apart (Option.some.inj mapped)
  · show queue.curRdb.fd ≠ some writeFd
    rw [readSame]
    intro equal
    exact fd_ne readOpened opened files (Option.some.inj equal)
  · show tag ≠ some writeFd
    intro equal
    exact fd_ne tagOpened opened (by simp) (tagHandle _ equal).symm
  · intro _
    obtain ⟨file, found, holds⟩ := rep.files (queue.curRdb.curIndex + 1) (by omega) (by omega)
    exact ⟨file, found, holds.size⟩
  · intro equal
    have values := congrArg UInt64.toNat equal
    have start : (queue.halted tag pos flag).curRdb.curIndex.toNat = model.log.first := rep.readIndex
    have stepped : ((queue.halted tag pos flag).curRdb.curIndex + 1).toNat = model.log.first + 1 := value
    omega
  · show ¬queue.curWdb.curIndex < queue.curRdb.curIndex + 1
    rw [UInt64.lt_iff_toNat_lt, value, rep.writeIndex]
    omega
  · intro handle equal
    rw [tagHandle handle equal]
    exact rep.fresh.fd_lt tagOpened
  · intro handle equal
    have same : queue.curRdb.fd = some handle := equal
    rw [readSame] at same
    cases same
    exact rep.fresh.fd_lt readOpened

theorem nextReadFile (pos : UInt32) :
    ∃ rolled after, getNextReadFile (queue.seek pos) os = (true, rolled, after) ∧
      ReadRolled queue os rolled after := by
  obtain ⟨rolled, after, nextEq, read⟩ :=
    rep.nextReadFile_halted later pos queue.curRdb.flag (Or.inl rfl)
  exact ⟨rolled, after, nextEq, read.goes, read.queue_eq, read.fresh, read.tagFd, read.otherFds, read.otherMaps⟩

end

end

structure ReadMoved (queue : MqQueue) (os : Os) (rolled : MqQueue) (after : Os) : Prop where
  queue_eq : ∃ tag address fd, rolled =
      { queue with
        rtagFd := some tag
        curRdb :=
          { fd := some fd, flag := 1, mapMem := some address, pos := 128, optCount := 0,
            curIndex := queue.curRdb.curIndex + 1 } } ∧
    after.opened tag = some (.tag .rtag (queue.curRdb.curIndex + 1)) ∧
    after.maps address = some (queue.curRdb.curIndex + 1) ∧
    after.opened fd = some (.db (queue.curRdb.curIndex + 1))
  fresh : after.Fresh
  others : ∀ fd name, os.opened fd = some name → name ≠ .tag .rtag queue.curRdb.curIndex →
    name ≠ .db queue.curRdb.curIndex → after.opened fd = some name
  otherMaps : ∀ address index, os.maps address = some index → index ≠ queue.curRdb.curIndex →
    after.maps address = some index
  db : ∀ index, after.dir.db index = if index = queue.curRdb.curIndex then none else os.dir.db index

theorem readMoved (rep : Rep kept queue os model) (later : model.log.more = next :: more)
    (moved : ReadMoved queue os rolled after) (reliable : after.Reliable) : Rep False rolled after
      { model with log := { first := model.log.first + 1, done := [], rest := next, more } } := by
  obtain ⟨value, order, apart⟩ := rep.behind later
  obtain ⟨tag, address, fd, queueEq, tagOpened, mapped, opened⟩ := moved.queue_eq
  obtain ⟨offset, append, tagFd⟩ := Os.fds_of_opened_tag tagOpened
  have stores := rep.stores.behind later rep.readIndex moved.db
  subst queueEq
  exact
    { reliable
      fresh := moved.fresh
      readIndex := value
      writeIndex := rep.writeIndex.trans (Log.last_behind later).symm
      readMap := ⟨address, rfl, mapped⟩
      writeMap := by
        obtain ⟨writeAddress, map, writeMapped⟩ := rep.writeMap
        exact ⟨writeAddress, map, moved.otherMaps _ _ writeMapped apart.symm⟩
      readFd := ⟨fd, rfl, Os.fds_of_opened_db opened⟩
      writeFd := by
        obtain ⟨writeFd, same, writeOpened⟩ := rep.writeFd
        refine ⟨writeFd, same, Os.fds_of_opened_db (moved.others writeFd _ ?_ (by simp) ?_)⟩
        · exact congrArg (Option.map OpenFile.name) writeOpened
        · simpa using apart.symm
      rtagFd := ⟨tag, offset, append, rfl, tagFd⟩
      wtagFd := by
        obtain ⟨tagFd, offset, append, same, tagOpened⟩ := rep.wtagFd
        obtain ⟨newOffset, newAppend, still⟩ := Os.fds_of_opened_tag
          (moved.others tagFd (.tag .wtag queue.curWdb.curIndex)
            (congrArg (Option.map OpenFile.name) tagOpened) (by simp) (by simp))
        exact ⟨tagFd, newOffset, newAppend, same, still⟩
      files := stores.files
      absent := stores.absent
      readPos := Or.inl rfl
      writePos := by
        rw [Log.tail_behind later]
        exact rep.writePos
      putNum := rep.putNum
      getNum := rep.getNum
      maxque := rep.maxque
      sync := rep.sync
      tags := False.elim }

theorem readRolled_moved (rep : Rep kept queue os model)
    (read : ReadRolled queue os rolled after) : ReadMoved queue os rolled after := by
  obtain ⟨address, fd, queueEq, mapped, opened⟩ := read.queue_eq
  refine ⟨⟨os.nextHandle, address, fd, queueEq, congrArg (Option.map OpenFile.name) read.tagFd, mapped,
    congrArg (Option.map OpenFile.name) opened⟩, read.fresh, ?_, ?_, readRolled_db read⟩
  · intro handle name found notTag notDb
    obtain ⟨file, opened, rfl⟩ := Option.map_eq_some_iff.mp found
    refine congrArg (Option.map OpenFile.name) (rep.readRolled_fd read opened ?_ ?_)
    · rintro offset append rfl
      exact notTag rfl
    · rintro rfl
      exact notDb rfl
  · intro other index map different
    rw [read.otherMaps other (rep.fresh.map_lt map) ?_, map]
    intro equal
    obtain ⟨readAddress, readMap, readMapped⟩ := rep.readMap
    rw [readMap] at equal
    cases equal
    rw [map] at readMapped
    exact different (Option.some.inj readMapped)

theorem readRolled (rep : Rep kept queue os model) (later : model.log.more = next :: more)
    (read : ReadRolled queue os rolled after) : Rep kept rolled after
      { model with log := { first := model.log.first + 1, done := [], rest := next, more } } := by
  have loose := rep.readMoved later (rep.readRolled_moved read) (read.goes.reliable rep.reliable)
  obtain ⟨value, order, apart⟩ := rep.behind later
  obtain ⟨address, fd, queueEq, mapped, opened⟩ := read.queue_eq
  have db := readRolled_db read
  subst queueEq
  exact
    { loose with
      tags := by
        intro keep
        have old := rep.tags keep
        have tag := readRolled_tag read
        have nextNe : queue.curRdb.curIndex + 1 ≠ queue.curRdb.curIndex :=
          rep.notFirst (by omega)
        have newTag : after.dir.tag .rtag (queue.curRdb.curIndex + 1) =
            some (rtagItem queue.getNum 128) := by
          rw [tag, if_neg (by simp [nextNe]), if_pos ⟨rfl, rfl⟩, old.rtagAlone _ nextNe]
          simp [overwrite]
        have wtagSame : after.dir.tag .wtag = os.dir.tag .wtag := by
          funext index
          simp [tag]
        obtain ⟨content, length, found, tagFd, offset, append, same, tagOpened, placed⟩ := old.wtag
        exact
          { rtag := ⟨[], 128, Or.inl rfl, by simp [rtagItem_length],
              by simpa [rep.getNum] using newTag, _, _, _, rfl, read.tagFd, fun _ => by
                simp [rtagItem_length]⟩
            wtag := ⟨content, length, by rw [wtagSame]; exact found, tagFd, offset, append, same,
              rep.readRolled_fd read tagOpened (by simp) (by simp), placed⟩
            rtagAlone := by
              intro index other
              rw [tag]
              by_cases first : index = queue.curRdb.curIndex
              · simp [first]
              · simpa [first, other] using old.rtagAlone index first
            wtagAlone := by rw [wtagSame]; exact old.wtagAlone
            noneBefore := by
              intro index early
              rw [db]
              split
              · rfl
              · rename_i other
                apply old.noneBefore
                have different : index.toNat ≠ model.log.first :=
                  fun equal => other (UInt64.toNat_inj.mp (equal.trans rep.readIndex.symm))
                simp only at early
                omega
            line := by rw [wtagSame]; exact old.line } }

theorem noteRead {before : MqQueue} {untaken : QueueModel} (rep : Rep False queue os model)
    (tags : kept → Tagged before os untaken) (rtagFd : before.rtagFd = queue.rtagFd)
    (wtagFd : before.wtagFd = queue.wtagFd) (readIndex : before.curRdb.curIndex = queue.curRdb.curIndex)
    (writeIndex : before.curWdb.curIndex = queue.curWdb.curIndex) (first : untaken.log.first = model.log.first)
    (done : model.log.done.length = untaken.log.done.length + 1) (noted : untaken.noted = model.noted)
    (lines : untaken.lines = model.lines) :
    ∃ after, mqSmRtagWriteItem queue os = (true, after) ∧ Rep kept queue after model := by
  obtain ⟨fd, offset, append, same, opened⟩ := rep.rtagFd
  obtain ⟨place, after, writeEq, goes, maps, next, fds, placeEq⟩ :=
    writeN_open (rtagItem queue.getNum queue.curRdb.pos) rep.reliable opened
  have writeOut : (os.writeN queue.rtagFd (rtagItem queue.getNum queue.curRdb.pos)).2 = after := by
    rw [same, writeEq]
  have written := rep.write_tag opened goes maps next fds
  refine ⟨after, by rw [mqSmRtagWriteItem, same, writeEq], { written with tags := ?_ }⟩
  intro keep
  have old := tags keep
  obtain ⟨front, pos, valid, length, atEnd⟩ := old.rtag
  rw [rtagFd, readIndex, same] at atEnd
  have appended := atEnd.write rep.reliable (rtagItem queue.getNum queue.curRdb.pos)
  rw [← same, writeOut, rep.getNum] at appended
  obtain ⟨content, wtagLength, wtagEnd⟩ := old.wtag
  rw [wtagFd, writeIndex] at wtagEnd
  exact
    { rtag := ⟨_, queue.curRdb.pos, rep.readPos,
        by rw [length_append, length, rtagItem_length, done]; omega, appended⟩
      wtag := ⟨content, lines ▸ wtagLength,
        writeOut ▸ wtagEnd.write_other rep.reliable same opened (Or.inl (by simp)) _⟩
      rtagAlone := fun index other => by
        rw [goes.dir]
        simpa [other] using old.rtagAlone index (readIndex ▸ other)
      wtagAlone := fun index other => by
        rw [goes.dir]
        simpa using old.wtagAlone index (writeIndex ▸ other)
      noneBefore := by
        rw [goes.dir, ← first]
        exact old.noneBefore
      line := by
        rw [goes.dir, ← writeIndex, ← noted]
        simpa using old.line }

section

variable (rep : Rep kept queue os model)

include rep

theorem readMemory (item : MsgItem) :
    ∃ file, (GetState.mk item queue os).readMemory = .ok (some file.bytes) ∧
      FileHolds file (model.log.done ++ model.log.rest) := by
  obtain ⟨address, map, mapped⟩ := rep.readMap
  obtain ⟨file, found, holds⟩ := rep.head_file
  exact ⟨file, by simp [GetState.readMemory, map, Os.mapped, mapped, found], holds⟩

theorem read_pos_le : queue.curRdb.pos.toNat ≤ used model.log.done ∧ used model.log.done ≤ 67108864 := by
  obtain ⟨file, _, holds⟩ := rep.head_file
  have room := holds.room
  rw [used_append, maxDbFileSize_eq] at room
  rcases rep.readPos with here | ⟨start, early⟩
  · omega
  · have low := used_ge model.log.done
    omega

theorem clear_before {file : DbFile} (holds : FileHolds file (model.log.done ++ model.log.rest)) (pos : Nat)
    (after : queue.curRdb.pos.toNat ≤ pos) (before : pos < used model.log.done) :
    file.bytes pos ≠ msgHeadOfFirstMagicNum := by
  rcases rep.readPos with here | ⟨start, early⟩
  · omega
  · rw [start, used_nil] at before
    exact holds.headClear pos before

theorem write_pos_alone (same : queue.curRdb.curIndex = queue.curWdb.curIndex) :
    queue.curWdb.pos.toNat = used (model.log.done ++ model.log.rest) ∧ model.log.more = [] := by
  have indexes := rep.writeIndex
  rw [← same, rep.readIndex, Log.last] at indexes
  have alone : model.log.more = [] := length_eq_zero_iff.mp (by omega)
  refine ⟨?_, alone⟩
  rw [rep.writePos, Log.tail, alone]
  rfl

theorem takes {record : Record} {rest : List Record} (waiting : model.log.rest = record :: rest) (item : MsgItem) :
    ∃ count, count ≤ 128 ∧ Loop.EndsIn getDataStep count { item, queue, os }
      (.ok (true, ((GetState.mk item queue os).seek (UInt32.ofNat (used model.log.done))).take record.item)) := by
  obtain ⟨file, mapped, holds⟩ := rep.readMemory item
  obtain ⟨lower, upper⟩ := rep.read_pos_le
  have room := holds.room
  rw [waiting] at holds room
  have fits := used_record_le model.log.done rest record
  have size := record.size_pos
  simp only [maxDbFileSize_eq] at room
  have ending : queue.curRdb.curIndex = queue.curWdb.curIndex →
      used model.log.done + record.size ≤ queue.curWdb.pos.toNat := by
    intro same
    rw [(rep.write_pos_alone same).1, waiting]
    exact fits
  have target : (UInt32.ofNat (used model.log.done)).toNat = used model.log.done := by
    rw [UInt32.toNat_ofNat']
    omega
  have steps := @scan_clear { item, queue, os } file.bytes (used model.log.done) mapped (by omega)
    lower (fun pos after before => rep.clear_before (waiting ▸ holds) pos after before)
    (fun pos early same => by
      have gap := ending same
      dsimp only
      omega)
  refine ⟨used model.log.done - queue.curRdb.pos.toNat, ?_, _, steps, ?_⟩
  · rcases rep.readPos with here | ⟨start, _⟩
    · omega
    · rw [start, used_nil]
      omega
  · have going : ((GetState.mk item queue os).seek (UInt32.ofNat (used model.log.done))).atEnd =
        false := by
      rw [← Bool.not_eq_true, GetState.atEnd_iff (by dsimp only [GetState.seek, MqQueue.seek]; omega)]
      rintro ⟨same, reached⟩
      have gap := ending same
      simp only [GetState.seek, MqQueue.seek, target] at reached
      omega
    have parsed := @parseMsg_record file.bytes (UInt32.ofNat (used model.log.done)) record item
      (by omega) (by rw [target]; exact holds.record_held)
    rw [getDataStep, going, GetState.seek_readMemory, mapped]
    simp only [Bool.false_eq_true, ↓reduceIte]
    rw [show ((GetState.mk item queue os).seek (UInt32.ofNat (used model.log.done))).queue.curRdb.pos =
      UInt32.ofNat (used model.log.done) from rfl]
    rw [show ((GetState.mk item queue os).seek (UInt32.ofNat (used model.log.done))).item = item from rfl,
      parsed]

theorem ends (rest : model.log.rest = []) (more : model.log.more = [])
    (item : MsgItem) : ∃ count, count ≤ 128 ∧ Loop.EndsIn getDataStep count { item, queue, os }
      (.ok (false, (GetState.mk item queue os).seek queue.curWdb.pos)) := by
  obtain ⟨file, mapped, holds⟩ := rep.readMemory item
  obtain ⟨lower, upper⟩ := rep.read_pos_le
  have same : queue.curRdb.curIndex = queue.curWdb.curIndex := by
    apply UInt64.toNat_inj.mp
    rw [rep.readIndex, rep.writeIndex, Log.last, more]
    rfl
  have position : queue.curWdb.pos.toNat = used model.log.done := by
    rw [(rep.write_pos_alone same).1, rest, append_nil]
  have last : ∀ pos : UInt32, pos.toNat ≤ 67108864 → queue.curWdb.pos.toNat ≤ pos.toNat + 12 →
      getDataStep ((GetState.mk item queue os).seek pos) =
        .inr (.ok (false, (GetState.mk item queue os).seek queue.curWdb.pos)) := by
    intro pos bound reached
    have atEnd : ((GetState.mk item queue os).seek pos).atEnd = true :=
      (GetState.atEnd_iff (by exact bound)).mpr ⟨same, reached⟩
    rw [getDataStep, atEnd]
    rfl
  by_cases near : queue.curWdb.pos.toNat ≤ queue.curRdb.pos.toNat + 12
  · exact ⟨0, by omega, Loop.EndsIn.of_end (last queue.curRdb.pos (by omega) near)⟩
  · have steps := @scan_clear { item, queue, os } file.bytes (used model.log.done - 12) mapped (by omega)
      (by dsimp only; omega)
      (fun pos after before => rep.clear_before holds pos after (by omega))
      (fun pos early _ => by dsimp only; omega)
    have target : (UInt32.ofNat (used model.log.done - 12)).toNat = used model.log.done - 12 := by
      rw [UInt32.toNat_ofNat']
      omega
    refine ⟨_, ?_, _, steps, last _ (by omega) (by omega)⟩
    rcases rep.readPos with here | ⟨start, _⟩
    · omega
    · rw [start, used_nil]
      omega

theorem moves (rest : model.log.rest = []) (later : model.log.more = next :: more) (item : MsgItem) :
    ∃ count rolled after, count ≤ 67108865 ∧
      Loop.Steps getDataStep count { item, queue, os } { item, queue := rolled, os := after } ∧
      ReadRolled queue os rolled after := by
  obtain ⟨file, mapped, holds⟩ := rep.readMemory item
  obtain ⟨lower, upper⟩ := rep.read_pos_le
  obtain ⟨_, _, apart⟩ := rep.behind later
  rw [rest, append_nil] at holds
  have turn : ∀ pos : UInt32, 67108864 ≤ pos.toNat + 12 → pos.toNat ≤ 67108864 →
      ∃ rolled after, ReadRolled queue os rolled after ∧
        getDataStep ((GetState.mk item queue os).seek pos) =
          .inl { item, queue := rolled, os := after } := by
    intro pos past bound
    obtain ⟨rolled, after, nextEq, read⟩ := rep.nextReadFile later pos
    have going : ((GetState.mk item queue os).seek pos).atEnd = false := by
      rw [← Bool.not_eq_true, GetState.atEnd_iff (by exact bound)]
      rintro ⟨same, _⟩
      exact apart same
    have parsed := @parseMsg_past file.bytes pos item past bound
    refine ⟨rolled, after, read, ?_⟩
    rw [getDataStep, going, GetState.seek_readMemory, mapped]
    simp only [Bool.false_eq_true, ↓reduceIte]
    rw [show ((GetState.mk item queue os).seek pos).queue.curRdb.pos = pos from rfl,
      show ((GetState.mk item queue os).seek pos).item = item from rfl, parsed]
    simp only [getDataNextFile, GetState.seek, nextEq]
  by_cases near : 67108864 ≤ queue.curRdb.pos.toNat + 12
  · obtain ⟨rolled, after, read, step⟩ := turn queue.curRdb.pos near (by omega)
    exact ⟨1, rolled, after, by omega, Loop.Steps.single step, read⟩
  · have steps := @scan_clear { item, queue, os } file.bytes 67108852 mapped (by omega)
      (by dsimp only; omega)
      (fun pos after before => by
        by_cases early : pos < used model.log.done
        · exact rep.clear_before (by rw [rest, append_nil]; exact holds) pos after early
        · exact holds.restClear pos (by omega) (by rw [maxDbFileSize_eq]; omega))
      (fun pos _ same => absurd same apart)
    have target : (UInt32.ofNat 67108852).toNat = 67108852 := rfl
    obtain ⟨rolled, after, read, step⟩ := turn (UInt32.ofNat 67108852) (by omega) (by omega)
    exact ⟨_, rolled, after, by omega, steps.trans (Loop.Steps.single step), read⟩

theorem taken {record : Record} {rest : List Record} (waiting : model.log.rest = record :: rest) (item : MsgItem) :
    let final := ((GetState.mk item queue os).seek (UInt32.ofNat (used model.log.done))).take record.item
    final.item = record.item ∧ ∃ after, mqSmRtagWriteItem final.queue final.os = (true, after) ∧
      Rep kept final.queue after
        { model with
          log := { model.log with done := model.log.done ++ [record], rest } }.count := by
  intro final
  obtain ⟨file, _, holds⟩ := rep.head_file
  have room := holds.room
  have fits := used_record_le model.log.done rest record
  rw [waiting, maxDbFileSize_eq] at room
  have position : (UInt32.ofNat (used model.log.done) + (record.item.len + 12)).toNat =
      used (model.log.done ++ [record]) := by
    have advance := record.advance_toNat
    have start : (UInt32.ofNat (used model.log.done)).toNat = used model.log.done := by
      rw [UInt32.toNat_ofNat']
      omega
    rw [pos_add_toNat (by omega), advance, start, used_concat]
  have segments : ∀ offset, Log.segment { model.log with done := model.log.done ++ [record], rest } offset =
      model.log.segment offset := by
    intro offset
    cases offset with
    | zero => simp [Log.segment, waiting]
    | succ offset => rfl
  have loose : Rep False final.queue os
      { model with log := { model.log with done := model.log.done ++ [record], rest } }.count := by
    rw [GetState.take_queue, QueueModel.count_eq]
    exact
      { rep with
        files := by
          intro index lower upper
          obtain ⟨file, found, fileHolds⟩ := rep.files index lower upper
          exact ⟨file, found, by rw [segments]; exact fileHolds⟩
        readPos := Or.inl position
        writePos := by
          rw [Log.tail, segments]
          exact rep.writePos
        putNum := by simp [GetState.seek, MqQueue.seek, rep.putNum, rep.getNum, rep.maxque]
        getNum := by simp [GetState.seek, MqQueue.seek, rep.getNum, rep.maxque]
        tags := False.elim }
  refine ⟨GetState.take_item _ _, ?_⟩
  rw [GetState.take_os]
  refine @noteRead kept _ _ _ queue model loose rep.tags ?_ ?_ ?_ ?_ ?_ ?_ ?_ ?_
  all_goals simp [final, GetState.take_queue, GetState.seek, MqQueue.seek, QueueModel.count_eq]

theorem atWrite (rest : model.log.rest = [])
    (more : model.log.more = []) : Rep kept (queue.seek queue.curWdb.pos) os model := by
  have position : queue.curWdb.pos.toNat = used model.log.done := by
    rw [rep.writePos, Log.tail, more, length_nil, Log.segment, rest, append_nil]
  exact { rep with readPos := Or.inl position, tags := fun keep => { rep.tags keep with } }

end

structure GetsAs (kept : Prop) (model : QueueModel) (found : Bool) (final : GetState) : Prop where
  empty : model.log.take = none → found = false ∧
    Rep kept final.queue final.os { model with log := model.log.settle }
  waiting : ∀ record log, model.log.take = some (record, log) → found = true ∧
    final.item = record.item ∧
    ∃ after, mqSmRtagWriteItem final.queue final.os = (true, after) ∧
      Rep kept final.queue after { model with log }.count

section

variable (rep : Rep kept queue os model)

include rep

theorem getsAs_ends (rest : model.log.rest = []) (more : model.log.more = []) (item : MsgItem) :
    GetsAs kept model false ((GetState.mk item queue os).seek queue.curWdb.pos) where
  empty := by
    intro _
    rw [Log.settle_alone more]
    exact ⟨rfl, rep.atWrite rest more⟩
  waiting := by
    intro record log taken
    have absent : model.log.take = none := Log.take_none.mpr (by simp [Log.pending, rest, more])
    rw [absent] at taken
    cases taken

theorem getsAs_takes {record : Record} {rest : List Record}
    (waiting : model.log.rest = record :: rest) (item : MsgItem) :
    GetsAs kept model true (((GetState.mk item queue os).seek
      (UInt32.ofNat (used model.log.done))).take record.item) where
  empty := by
    intro absent
    rw [Log.take_waiting waiting] at absent
    cases absent
  waiting := by
    intro other log taken
    rw [Log.take_waiting waiting] at taken
    cases taken
    exact ⟨rfl, rep.taken waiting item⟩

theorem getData (item : MsgItem) :
    ∃ count found final, count < (model.log.more.length + 1) * 67108866 ∧
      Loop.EndsIn getDataStep count { item, queue, os } (.ok (found, final)) ∧ GetsAs kept model found final ∧
      (model.log.rest ≠ [] ∨ model.log.more = [] → final.os.trace = os.trace) := by
  obtain ⟨more, moreEq⟩ : ∃ more, model.log.more = more := ⟨_, rfl⟩
  -- The induction is on the files behind the read file.
  induction more generalizing queue os model with
  | nil =>
    cases waiting : model.log.rest with
    | nil =>
      obtain ⟨count, bound, finish⟩ := rep.ends waiting moreEq item
      exact ⟨count, _, _, by rw [moreEq]; simp; omega, finish, rep.getsAs_ends waiting moreEq item,
        fun _ => rfl⟩
    | cons record rest =>
      obtain ⟨count, bound, finish⟩ := rep.takes waiting item
      exact ⟨count, _, _, by omega, finish, rep.getsAs_takes waiting item,
        fun _ => by rw [GetState.take_os]; rfl⟩
  | cons next more ih =>
    cases waiting : model.log.rest with
    | nil =>
      obtain ⟨count, rolled, after, bound, steps, read⟩ := rep.moves waiting moreEq item
      obtain ⟨later, found, final, laterBound, finish, gets, _⟩ := ih (rep.readRolled moreEq read) rfl
      refine ⟨count + later, found, final, ?_, Loop.EndsIn.of_steps steps finish, ?_,
        fun still => by simp [moreEq] at still⟩
      · simp only [moreEq, length_cons]
        simp only at laterBound
        omega
      · have sameTake := Log.take_step waiting moreEq
        have sameSettle := Log.settle_step waiting moreEq
        exact
          { empty := fun absent => by
              rw [sameSettle]
              exact gets.empty (sameTake ▸ absent)
            waiting := fun record log taken => gets.waiting record log (sameTake ▸ taken) }
    | cons record rest =>
      obtain ⟨count, bound, finish⟩ := rep.takes waiting item
      exact ⟨count, _, _, by omega, finish, rep.getsAs_takes waiting item,
        fun _ => by rw [GetState.take_os]; rfl⟩

theorem mqSmGetData_of_ends {item : MsgItem} {count : Nat} {result : GetResult}
    (finish : Loop.EndsIn getDataStep count { item, queue, os } result)
    (bound : count < (model.log.more.length + 1) * 67108866) : mqSmGetData item queue os = result := by
  have fuel : getDataFuel queue = (model.log.more.length + 1) * 67108866 := by
    rw [getDataFuel, rep.readIndex, rep.writeIndex, Log.last, Nat.add_sub_cancel_left]
    rfl
  rw [mqSmGetData, fuel, Loop.run_of_endsIn finish bound]
  rfl

theorem mqSmGetData_eq (item : MsgItem) :
    ∃ found final, mqSmGetData item queue os = .ok (found, final) ∧ GetsAs kept model found final ∧
      (model.log.rest ≠ [] ∨ model.log.more = [] → final.os.trace = os.trace) := by
  obtain ⟨count, found, final, bound, finish, gets, trace⟩ := rep.getData item
  exact ⟨found, final, rep.mqSmGetData_of_ends finish bound, gets, trace⟩

theorem pop (stack : MsgItem) : ∃ item popped after, mqQmPopItem queue os stack =
        .ok (if (model.pop).2.isSome then .getOk else .getEnd, item, popped, after) ∧
      Rep kept popped after model.pop.1 ∧ ∀ record, model.pop.2 = some record → item = record.item := by
  rw [mqQmPopItem, rep.putNum, rep.getNum, QueueModel.pop]
  split
  · exact ⟨_, queue, os, rfl, rep, by simp⟩
  · obtain ⟨found, final, getEq, gets, _⟩ := rep.mqSmGetData_eq (stampItem stack)
    rw [getEq]
    cases taken : model.log.take with
    | none =>
      obtain ⟨rfl, final⟩ := gets.empty taken
      exact ⟨_, _, _, rfl, final, by simp⟩
    | some pair =>
      obtain ⟨record, log⟩ := pair
      obtain ⟨rfl, itemEq, after, noteEq, popped⟩ := gets.waiting record log taken
      refine ⟨final.item, final.queue, after, ?_, popped, ?_⟩
      · simp only [noteEq]
        rfl
      · intro other same
        cases same
        exact itemEq

theorem pop_rolls {stack item : MsgItem} {ret : QueueGetRet}
    {popped : MqQueue} (popEq : mqQmPopItem queue os stack = .ok (ret, item, popped, after))
    (rolls : os.trace ++ readRollEffects queue <+: after.trace) : model.log.rest = [] ∧ model.log.more ≠ [] := by
  have long := rolls.length_le
  simp only [length_append, readRollEffects, length_cons, length_nil] at long
  by_contra still
  rw [not_and_or, not_not] at still
  obtain ⟨found, final, getEq, _, stays⟩ := rep.mqSmGetData_eq (stampItem stack)
  have noted := Os.writeN_trace final.os final.queue.rtagFd (rtagItem final.queue.getNum final.queue.curRdb.pos)
  rw [stays still] at noted
  rw [mqQmPopItem, getEq] at popEq
  split at popEq
  · cases popEq
    omega
  · cases found with
    | false =>
      cases popEq
      rw [stays still] at long
      omega
    | true =>
      cases popEq
      exact absurd (Nat.le_trans long noted) (by omega)

end

end Rep

end Libucmq
