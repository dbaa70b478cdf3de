import Libucmq.Store.Rep

/-! The write side of the queue refines the model. -/

namespace Libucmq

open Segments Function

theorem fd_ne {os : Os} {left right : Nat} {first second : OpenFile} (leftOpen : os.fds left = some first)
    (rightOpen : os.fds right = some second) (different : first ≠ second) : left ≠ right := by
  rintro rfl
  rw [leftOpen] at rightOpen
  exact different (Option.some.inj rightOpen)

theorem TagAtEnd.write {os : Os} {fd : Nat} {kind : TagKind} {index : UInt64} {content : List UInt8}
    (atEnd : TagAtEnd os (some fd) kind index content) (reliable : os.Reliable) (data : List UInt8) :
    TagAtEnd (os.writeN (some fd) data).2 (some fd) kind index (content ++ data) := by
  obtain ⟨found, handle, offset, append, same, opened, placed⟩ := atEnd
  cases same
  have place : (if append then ((os.dir.tag kind index).getD []).length else offset) =
      content.length := by
    cases append with
    | true => simp [found]
    | false => simpa using placed rfl
  rw [writeN_reliable data reliable opened]
  simp only [place]
  refine ⟨?_, fd, content.length + data.length, append, rfl, by simp, fun _ => by simp⟩
  simp [QueueDir.apply, found, overwrite_end]

theorem TagAtEnd.write_other {os : Os} {fd other : Fd} {kind otherKind : TagKind}
    {index otherIndex : UInt64} {content : List UInt8} {handle offset : Nat} {append : Bool}
    (atEnd : TagAtEnd os other otherKind otherIndex content) (reliable : os.Reliable)
    (same : fd = some handle) (opened : os.fds handle = some (.tag kind index offset append))
    (different : otherKind ≠ kind ∨ otherIndex ≠ index) (data : List UInt8) :
    TagAtEnd (os.writeN fd data).2 other otherKind otherIndex content := by
  subst same
  obtain ⟨found, otherHandle, otherOffset, otherAppend, otherSame, otherOpened, placed⟩ := atEnd
  have apart : otherHandle ≠ handle := by
    apply fd_ne otherOpened opened
    intro equal
    cases equal
    simp at different
  rw [writeN_reliable data reliable opened]
  refine ⟨?_, otherHandle, otherOffset, otherAppend, otherSame, by simp [apart, otherOpened], placed⟩
  have elsewhere : ¬(otherKind = kind ∧ otherIndex = index) := by
    rintro ⟨rfl, rfl⟩
    simp at different
  simp [QueueDir.apply, elsewhere, found]

theorem Record.putData_eq (record : Record) (queue : MqQueue) (os : Os) :
    mqSmPutData (stampItem (newItem record.delay record.body)) queue os = mqSmDbWriteMsg queue os record.item := by
  have crc := record.crc_built
  simp only [mqSmPutData, stampItem, newItem]
  simp only [Record.item] at crc ⊢
  rw [crc]

theorem storeMsg_item {queue : MqQueue} {os : Os} {address : Nat} {index : UInt64} (item : MsgItem)
    (map : queue.curWdb.mapMem = some address) (mapped : os.maps address = some index)
    (fits : queue.curWdb.pos.toNat + (itemBytes item).length ≤ maxDbFileSize) : mqSmDbStoreMsg queue os item =
      .ok (true,
        { queue with
          curWdb := { queue.curWdb with
            pos := queue.curWdb.pos + (item.len + 12)
            optCount := queue.curWdb.optCount + 1 }
          putNum := queue.putNum + 1 },
        os.emit (.writeDb index queue.curWdb.pos.toNat (itemBytes item))) := by
  have copied : os.memcpy address queue.curWdb.pos.toNat (itemBytes item) =
      .ok (os.emit (.writeDb index queue.curWdb.pos.toNat (itemBytes item))) := by
    rw [Os.memcpy, mapped]
    exact if_pos fits
  rw [mqSmDbStoreMsg, map]
  simp only [copied]

theorem Record.storeMsg_eq {queue : MqQueue} {os : Os} {address : Nat} {index : UInt64}
    (record : Record) (map : queue.curWdb.mapMem = some address) (mapped : os.maps address = some index)
    (fits : queue.curWdb.pos.toNat + record.size ≤ maxDbFileSize) : mqSmDbStoreMsg queue os record.item = .ok (true,
        { queue with
          curWdb := { queue.curWdb with
            pos := queue.curWdb.pos + (record.item.len + 12)
            optCount := queue.curWdb.optCount + 1 }
          putNum := queue.putNum + 1 },
        os.emit (.writeDb index queue.curWdb.pos.toNat record.bytes)) :=
  storeMsg_item record.item map mapped (by rw [← record.bytes_length] at fits; exact fits)

namespace Rep

variable {kept : Prop} {queue : MqQueue} {os : Os} {model : QueueModel} {after : Os}

theorem write_tag {fd offset place size : Nat} {kind : TagKind} {index : UInt64} {append : Bool} {data : List UInt8}
    (rep : Rep kept queue os model) (opened : os.fds fd = some (.tag kind index offset append))
    (goes : os.Goes [.writeTag kind index place data] after) (maps : after.maps = os.maps)
    (next : after.nextHandle = os.nextHandle)
    (fds : after.fds = update os.fds fd (some (.tag kind index size append))) : Rep False queue after model := by
  have dbSame : after.dir.db = os.dir.db := by
    rw [goes.dir]
    rfl
  have dbFd : ∀ {handle file}, os.fds handle = some (.db file) → after.fds handle = some (.db file) := by
    intro handle file other
    rw [fds, update_of_ne (fd_ne other opened (by simp)), other]
  have tagFd : ∀ {handle otherKind otherIndex otherOffset otherAppend},
      os.fds handle = some (.tag otherKind otherIndex otherOffset otherAppend) →
      ∃ offset append, after.fds handle = some (.tag otherKind otherIndex offset append) := by
    intro handle otherKind otherIndex otherOffset otherAppend other
    by_cases same : handle = fd
    · subst same
      rw [opened] at other
      cases other
      exact ⟨size, append, by rw [fds, update_self]⟩
    · exact ⟨otherOffset, otherAppend, by rw [fds, update_of_ne same, other]⟩
  exact
    { rep with
      reliable := goes.reliable rep.reliable
      fresh := by
        intro handle late
        rw [next] at late
        have below := rep.fresh.fd_lt opened
        rw [fds, maps, update_of_ne (by omega)]
        exact rep.fresh handle late
      readMap := by rw [maps]; exact rep.readMap
      writeMap := by rw [maps]; exact rep.writeMap
      readFd := by
        obtain ⟨handle, same, file⟩ := rep.readFd
        exact ⟨handle, same, dbFd file⟩
      writeFd := by
        obtain ⟨handle, same, file⟩ := rep.writeFd
        exact ⟨handle, same, dbFd file⟩
      rtagFd := by
        obtain ⟨handle, _, _, same, file⟩ := rep.rtagFd
        obtain ⟨offset, append, kept⟩ := tagFd file
        exact ⟨handle, offset, append, same, kept⟩
      wtagFd := by
        obtain ⟨handle, _, _, same, file⟩ := rep.wtagFd
        obtain ⟨offset, append, kept⟩ := tagFd file
        exact ⟨handle, offset, append, same, kept⟩
      files := by rw [dbSame]; exact rep.files
      absent := by rw [dbSame]; exact rep.absent
      tags := False.elim }

theorem note (rep : Rep False queue os model) (filed : kept → Filed queue os model) :
    ∃ after, mqSmWtagWriteItem queue os = (true, after) ∧ Rep kept queue after model.note := by
  obtain ⟨fd, offset, append, same, opened⟩ := rep.wtagFd
  obtain ⟨place, after, writeEq, goes, maps, next, fds, placeEq⟩ :=
    writeN_open (wtagItem queue.putNum queue.curWdb.pos queue.maxque) rep.reliable opened
  have lineEq : wtagItem queue.putNum queue.curWdb.pos queue.maxque =
      wtagItem model.note.noted.putNum model.note.noted.pos model.note.noted.maxque := by
    simp [QueueModel.note, rep.putNum, rep.maxque, ← rep.writePos]
  have writeOut : (os.writeN queue.wtagFd (wtagItem queue.putNum queue.curWdb.pos queue.maxque)).2 =
      after := by
    rw [same, writeEq]
  have written := rep.write_tag opened goes maps next fds
  refine ⟨after, by rw [mqSmWtagWriteItem, same, writeEq], { written with tags := ?_ }⟩
  intro keep
  have old := filed keep
  obtain ⟨content, length, atEnd⟩ := old.wtag
  have appended := TagAtEnd.write (same ▸ atEnd) rep.reliable
    (wtagItem queue.putNum queue.curWdb.pos queue.maxque)
  rw [← same, writeOut] at appended
  obtain ⟨front, pos, valid, rtagLength, rtagEnd⟩ := old.rtag
  exact
    { rtag := ⟨front, pos, valid, rtagLength,
        writeOut ▸ rtagEnd.write_other rep.reliable same opened (Or.inl (by simp)) _⟩
      wtag := ⟨_, by simp [length, wtagItem_length, QueueModel.note, Nat.mul_add], appended⟩
      rtagAlone := fun index other => by
        rw [goes.dir]
        simpa using old.rtagAlone index other
      wtagAlone := fun index other => by
        rw [goes.dir]
        simpa [other] using old.wtagAlone index other
      noneBefore := by
        rw [goes.dir]
        exact old.noneBefore
      line := ⟨content, by rw [← lineEq]; exact appended.1⟩ }

theorem storeMsg (rep : Rep kept queue os model) (record : Record)
    (fits : used model.log.tail + record.size ≤ maxDbFileSize) :
    ∃ stored after, mqSmDbStoreMsg queue os record.item = .ok (true, stored, after) ∧
      Rep False stored after (model.store record) ∧ (kept → Filed stored after (model.store record)) := by
  obtain ⟨address, map, mapped⟩ := rep.writeMap
  obtain ⟨file, found, holds⟩ := rep.tail_file
  have appended := holds.append fits
  have position : (queue.curWdb.pos + (record.item.len + 12)).toNat =
      used (model.store record).log.tail := by
    have advance := record.advance_toNat
    have bound := rep.writePos
    simp only [maxDbFileSize_eq] at fits
    rw [pos_add_toNat (by omega), advance, QueueModel.store, Log.append_tail, used_concat, bound]
  refine ⟨_, _, record.storeMsg_eq map mapped (by rw [rep.writePos]; exact fits), ?_⟩
  rw [rep.writePos]
  constructor
  · exact
      { rep with
        writeIndex := by simp [rep.writeIndex, QueueModel.store, Log.last]
        readIndex := by simp [rep.readIndex, QueueModel.store]
        files := rep.write_tail found (by simp [QueueModel.store]) (by simp [QueueModel.store])
          (fun offset early => by
            simp only [QueueModel.store, Log.append_more_length] at early ⊢
            rw [Log.append_segment _ _ (by omega), if_neg (by omega)])
          (by rw [QueueModel.store, Log.append_tail]; exact appended)
        absent := by
          have last : (model.store record).log.last = model.log.last := by
            simp [QueueModel.store, Log.last]
          rw [last]
          exact rep.absent_write _ _
        readPos := by simpa [QueueModel.store] using rep.readPos
        writePos := position
        putNum := by simp [QueueModel.store, rep.putNum]
        tags := False.elim }
  · intro keep
    exact rep.filed_write (rep.tags keep).toFiled _ _ rfl rfl rfl rfl (by simp [QueueModel.store])
      (by simp [QueueModel.store]) rfl rfl

theorem rolled_db {next : UInt64} {rolled : MqQueue}
    (absent : os.dir.db next = none) (step : queue.curWdb.curIndex + 1 = next)
    (write : WriteRolled queue os rolled after) (index : UInt64) : after.dir.db index =
      if index = next then
        some { blankFile with bytes := Memory.store blankFile.bytes 0 (dbFileHead 0) }
      else os.dir.db index := by
  subst step
  rw [write.goes.dir]
  simp only [writeRollEffects, QueueDir.applyAll_cons, QueueDir.applyAll_nil]
  rw [QueueDir.apply_createDb_absent (by simpa using absent)]
  by_cases same : index = queue.curWdb.curIndex + 1 <;> simp [same, blankFile]

theorem rolled_tag {rolled : MqQueue} (write : WriteRolled queue os rolled after)
    (kind : TagKind) (index : UInt64) : after.dir.tag kind index =
      if kind = .wtag ∧ index = queue.curWdb.curIndex then none
      else if kind = .wtag ∧ index = queue.curWdb.curIndex + 1 then
        some (overwrite ((os.dir.tag .wtag (queue.curWdb.curIndex + 1)).getD []) 0
          (wtagItem queue.putNum 128 queue.maxque))
      else os.dir.tag kind index := by
  rw [write.goes.dir]
  simp only [writeRollEffects, QueueDir.applyAll_cons, QueueDir.applyAll_nil,
    QueueDir.apply_unlinkTag_tag, QueueDir.apply_writeTag_tag, QueueDir.apply_writeDb_tag,
    QueueDir.apply_resizeDb_tag, QueueDir.apply_createDb_tag, QueueDir.apply_createTag_tag]
  by_cases next : kind = .wtag ∧ index = queue.curWdb.curIndex + 1 <;> simp [next]

theorem rolled_fd {rolled : MqQueue} {handle : Nat} {file : OpenFile}
    (rep : Rep kept queue os model) (write : WriteRolled queue os rolled after) (opened : os.fds handle = some file)
    (notTag : ∀ offset append, file ≠ .tag .wtag queue.curWdb.curIndex offset append)
    (notDb : queue.curRdb.curIndex < queue.curWdb.curIndex → file ≠ .db queue.curWdb.curIndex) :
    after.fds handle = some file := by
  obtain ⟨tagFd, offset, append, tagSame, tagOpen⟩ := rep.wtagFd
  obtain ⟨dbFd, dbSame, dbOpen⟩ := rep.writeFd
  rw [write.otherFds handle (rep.fresh.fd_lt opened) ?_ ?_, opened]
  · rw [tagSame]
    intro equal
    exact fd_ne opened tagOpen (notTag offset append) (Option.some.inj equal).symm
  · intro behind
    rw [dbSame]
    intro equal
    exact fd_ne opened dbOpen (notDb behind) (Option.some.inj equal).symm

theorem write_next (rep : Rep kept queue os model) (room : model.log.last + 1 < 18446744073709551616) :
    (queue.curWdb.curIndex + 1).toNat = model.log.last + 1 := by
  rw [index_next (by rw [rep.writeIndex]; omega), rep.writeIndex]

theorem write_ne_next (rep : Rep kept queue os model) (room : model.log.last + 1 < 18446744073709551616) :
    queue.curWdb.curIndex ≠ queue.curWdb.curIndex + 1 := by
  intro equal
  have values := congrArg UInt64.toNat equal
  rw [rep.write_next room, rep.writeIndex] at values
  omega

section Rolled

variable {rolled : MqQueue} {after : Os}

theorem rolled_readMap (rep : Rep kept queue os model) (write : WriteRolled queue os rolled after) :
    ∃ address, queue.curRdb.mapMem = some address ∧ after.maps address = some queue.curRdb.curIndex := by
  obtain ⟨address, map, mapped⟩ := rep.readMap
  refine ⟨address, map, ?_⟩
  rw [write.otherMaps address (rep.fresh.map_lt mapped) ?_, mapped]
  intro behind equal
  obtain ⟨writeAddress, writeMap, writeMapped⟩ := rep.writeMap
  rw [writeMap] at equal
  cases equal
  rw [mapped] at writeMapped
  exact UInt64.ne_of_lt behind (Option.some.inj writeMapped)

theorem rolled_stores (rep : Rep kept queue os model) (room : model.log.last + 1 < 18446744073709551616)
    (write : WriteRolled queue os rolled after) : Stores after.dir model.roll.log := by
  have next := rep.write_next room
  exact rep.stores.roll next (blankFile_holds.write_head (dbFileHead_length 0) (dbFileHead_clear 0))
    (rolled_db (rep.absent _ (by omega)) rfl write)

theorem rolled_tags (rep : Rep kept queue os model) (room : model.log.last + 1 < 18446744073709551616)
    (write : WriteRolled queue os rolled after) (old : Tagged queue os model) : Tagged rolled after model.roll := by
  have next := rep.write_next room
  have nextNe := rep.write_ne_next room
  have db := rolled_db (rep.absent _ (by omega)) rfl write
  have tag := rolled_tag write
  have queueEq := write.queue_eq
  subst queueEq
  obtain ⟨front, pos, valid, length, found, fd, offset, append, same, opened, placed⟩ := old.rtag
  have newTag : after.dir.tag .wtag (queue.curWdb.curIndex + 1) =
      some (wtagItem queue.putNum 128 queue.maxque) := by
    rw [tag, if_neg (by simp [nextNe.symm]), if_pos ⟨rfl, rfl⟩, old.wtagAlone _ nextNe.symm]
    simp [overwrite]
  have oldTag : after.dir.tag .rtag queue.curRdb.curIndex = some (front ++ rtagItem model.getNum pos) := by
    rw [tag]
    simpa using found
  exact
    { rtag := ⟨front, pos, valid, length, oldTag, fd, offset, append, same,
        rep.rolled_fd write opened (by simp) (by simp), placed⟩
      wtag := ⟨_, by simp [wtagItem_length, QueueModel.roll], newTag, _, _, _, rfl, write.tagFd, fun _ => rfl⟩
      rtagAlone := by
        intro index other
        rw [tag]
        simpa using old.rtagAlone index other
      wtagAlone := by
        intro index other
        rw [tag]
        by_cases last : index = queue.curWdb.curIndex
        · simp [last]
        · simpa [last, other] using old.wtagAlone index last
      noneBefore := by
        intro index early
        have first : index.toNat < model.log.first := early
        rw [db index, if_neg ?_, old.noneBefore index first]
        rintro rfl
        rw [next, Log.last] at first
        omega
      line := ⟨[], by simp [newTag, QueueModel.roll, rep.putNum, rep.maxque]⟩ }

end Rolled

section

variable (rep : Rep kept queue os model)

include rep

theorem rolled {rolled : MqQueue}
    (room : model.log.last + 1 < 18446744073709551616) (write : WriteRolled queue os rolled after) :
    Rep kept rolled after model.roll := by
  have readMap := rep.rolled_readMap write
  have stores := rep.rolled_stores room write
  have tags := fun keep => rep.rolled_tags room write (rep.tags keep)
  have queueEq := write.queue_eq
  subst queueEq
  exact
    { reliable := write.goes.reliable rep.reliable
      fresh := write.fresh
      readIndex := rep.readIndex
      writeIndex := (rep.write_next room).trans (Log.roll_last model.log).symm
      readMap
      writeMap := ⟨_, rfl, write.map⟩
      readFd := by
        obtain ⟨fd, same, opened⟩ := rep.readFd
        exact ⟨fd, same, rep.rolled_fd write opened (by simp) (by simpa using UInt64.ne_of_lt)⟩
      writeFd := ⟨_, rfl, write.dbFd⟩
      rtagFd := by
        obtain ⟨fd, offset, append, same, opened⟩ := rep.rtagFd
        exact ⟨fd, offset, append, same, rep.rolled_fd write opened (by simp) (by simp)⟩
      wtagFd := ⟨_, _, _, rfl, write.tagFd⟩
      files := stores.files
      absent := stores.absent
      readPos := rep.readPos
      writePos := by simp [QueueModel.roll]
      putNum := rep.putNum
      getNum := rep.getNum
      maxque := rep.maxque
      sync := rep.sync
      tags }

theorem nextWriteFile (room : model.log.last + 1 < 18446744073709551616) :
    ∃ rolled after, getNextWriteFile queue os = .ok (true, rolled, after) ∧ WriteRolled queue os rolled after := by
  obtain ⟨fd, offset, append, same, opened⟩ := rep.wtagFd
  apply getNextWriteFile_rolled rep.reliable rep.fresh
  · apply rep.absent
    rw [rep.write_next room]
    omega
  · intro handle equal
    rw [same] at equal
    cases equal
    exact rep.fresh.fd_lt opened

theorem makeRoom_eq {record : Record} (full : model.fits record = false) :
    mqSmDbMakeRoom queue os record.item = getNextWriteFile queue
        (os.emit (.writeDb queue.curWdb.curIndex 0 (dbFileHead queue.curWdb.optCount))) := by
  obtain ⟨address, map, mapped⟩ := rep.writeMap
  rw [mqSmDbMakeRoom, rep.writeFull_eq, full, map]
  simp only [Bool.not_false, ↓reduceIte]
  rw [writeFileHead_mapped map mapped]

theorem makeRoom {record : Record}
    (full : model.fits record = false) (room : model.log.last + 1 < 18446744073709551616) :
    ∃ rolled after, mqSmDbMakeRoom queue os record.item = .ok (true, rolled, after) ∧
      Rep kept rolled after model.roll := by
  have headed := rep.write_head queue.curWdb.optCount
  obtain ⟨rolled, after, nextEq, write⟩ := headed.nextWriteFile room
  exact ⟨rolled, after, (rep.makeRoom_eq full).trans nextEq, headed.rolled room write⟩

end

theorem roll_fits (model : QueueModel) (record : Record) :
    used model.roll.log.tail + record.size ≤ maxDbFileSize := by
  have size := record.size_le
  simp [QueueModel.roll]
  omega

theorem putData (rep : Rep kept queue os model) (record : Record)
    (room : model.fits record = false → model.log.last + 1 < 18446744073709551616) : ∃ stored after noted,
      mqSmPutData (stampItem (newItem record.delay record.body)) queue os = .ok (true, stored, after) ∧
      mqSmWtagWriteItem stored after = (true, noted) ∧ Rep kept stored noted
        ((if model.fits record then model else model.roll).store record).note := by
  rw [record.putData_eq, mqSmDbWriteMsg]
  cases fit : model.fits record with
  | true =>
    have stay : mqSmDbMakeRoom queue os record.item = .ok (true, queue, os) := by
      simp [mqSmDbMakeRoom, rep.writeFull_eq, fit]
    obtain ⟨stored, after, storeEq, loose, filed⟩ :=
      rep.storeMsg record (of_decide_eq_true fit)
    obtain ⟨noted, noteEq, final⟩ := loose.note filed
    exact ⟨stored, after, noted, by rw [stay]; exact storeEq, noteEq, by simpa using final⟩
  | false =>
    obtain ⟨rolled, middle, roomEq, rolledRep⟩ := rep.makeRoom fit (room fit)
    obtain ⟨stored, after, storeEq, loose, filed⟩ := rolledRep.storeMsg record (roll_fits model record)
    obtain ⟨noted, noteEq, final⟩ := loose.note filed
    exact ⟨stored, after, noted, by rw [roomEq]; exact storeEq, noteEq, by simpa using final⟩

theorem push (rep : Rep kept queue os model) (record : Record)
    (room : model.full = false → model.fits record = false → model.log.last + 1 < 18446744073709551616) :
    ∃ pushed after, mqQmPushItem queue os (newItem record.delay record.body) =
        .ok ((model.push record).2, pushed, after) ∧ Rep kept pushed after (model.push record).1 := by
  rw [mqQmPushItem, rep.queueFull_eq, QueueModel.push]
  cases limit : model.full with
  | true => exact ⟨queue, os, by simp, by simpa using rep⟩
  | false =>
    obtain ⟨stored, middle, noted, putEq, noteEq, final⟩ := rep.putData record (room limit)
    have tick : syncTick stored = stored := by simp [syncTick, final.sync]
    refine ⟨stored, noted, ?_, ?_⟩
    · simp only [Bool.false_eq_true, ↓reduceIte, putEq, noteEq, tick]
      split <;> rfl
    · cases fit : model.fits record <;> simpa [fit] using final

theorem setMaxqueue (rep : Rep kept queue os model) (maxque : UInt32) :
    Rep kept (mqQmSetMaxqueue queue os maxque).1 (mqQmSetMaxqueue queue os maxque).2 (model.setMaxqueue maxque) := by
  have changed : Rep False { queue with maxque } os { model with maxque } :=
    { rep with maxque := rfl, tags := False.elim }
  obtain ⟨noted, noteEq, final⟩ := @note kept _ _ _ changed
    (fun keep => { (rep.tags keep).toFiled with })
  rw [mqQmSetMaxqueue]
  simp only [noteEq]
  exact final

theorem pushItem_rolled {rolled : MqQueue} {headed after : Os} {record : Record} (isOpen : queueFull queue = false)
    (roomEq : mqSmDbMakeRoom queue os record.item = .ok (true, rolled, after))
    (write : WriteRolled queue headed rolled after) (reliable : after.Reliable) (sync : queue.syncIntv = 0) :
    ∃ noted place, mqQmPushItem queue os (newItem record.delay record.body) = .ok (.putOk,
          { rolled with
            curWdb := { rolled.curWdb with
              pos := rolled.curWdb.pos + (record.item.len + 12), optCount := rolled.curWdb.optCount + 1 }
            putNum := rolled.putNum + 1 }, noted) ∧
      after.Goes
        [.writeDb (queue.curWdb.curIndex + 1) rolled.curWdb.pos.toNat record.bytes,
          .writeTag .wtag (queue.curWdb.curIndex + 1) place (wtagItem (rolled.putNum + 1)
            (rolled.curWdb.pos + (record.item.len + 12)) rolled.maxque)] noted ∧
      noted.maps = after.maps := by
  have size := record.size_le
  have queueEq := write.queue_eq
  have tag : rolled.wtagFd = some headed.nextHandle := by rw [queueEq]
  have still : rolled.syncIntv = 0 := by rw [queueEq]; exact sync
  have stored := @Record.storeMsg_eq rolled after (headed.nextHandle + 2) _ record (by rw [queueEq])
    write.map (by
      have start : rolled.curWdb.pos.toNat = 128 := by rw [queueEq]; rfl
      rw [start, maxDbFileSize_eq]
      omega)
  obtain ⟨place, noted, noteEq, goes, maps, _⟩ := @writeN_open
    (after.emit (.writeDb (queue.curWdb.curIndex + 1) rolled.curWdb.pos.toNat record.bytes))
    headed.nextHandle .wtag (queue.curWdb.curIndex + 1) _ false
    (wtagItem (rolled.putNum + 1) (rolled.curWdb.pos + (record.item.len + 12)) rolled.maxque)
    reliable write.tagFd
  refine ⟨noted, place, ?_, (Os.goes_emit _ _).trans goes, maps⟩
  rw [mqQmPushItem, isOpen, record.putData_eq, mqSmDbWriteMsg, roomEq]
  simp only [Bool.false_eq_true, ↓reduceIte]
  rw [stored]
  simp only [mqSmWtagWriteItem, tag, noteEq, syncTick, still]
  rfl

theorem push_trace (rep : Rep kept queue os model) (record : Record) (isOpen : model.full = false)
    (full : model.fits record = false) (room : model.log.last + 1 < 18446744073709551616) :
    ∃ pushed after, mqQmPushItem queue os (newItem record.delay record.body) = .ok (.putOk, pushed, after) ∧
      os.trace ++ .writeDb queue.curWdb.curIndex 0 (dbFileHead queue.curWdb.optCount) ::
        writeRollEffects queue <+: after.trace := by
  have headed := rep.write_head queue.curWdb.optCount
  obtain ⟨rolled, after, nextEq, write⟩ := headed.nextWriteFile room
  obtain ⟨noted, place, pushEq, goes, _⟩ := pushItem_rolled (rep.queueFull_eq.trans isOpen)
    ((rep.makeRoom_eq full).trans nextEq) write (write.goes.reliable headed.reliable) rep.sync
  refine ⟨_, noted, pushEq, ?_⟩
  rw [goes.trace, write.goes.trace, Os.emit_trace, List.append_cons]
  exact List.prefix_append _ _

end Rep

end Libucmq
