import Libucmq.Store.Model
import Libucmq.Store.Rollover

/-! The representation invariant: how a queue stands for a queue model. -/

namespace Libucmq

open Segments

/-- From here the reader comes to the first record, maybe through the head. -/
def ReadPos (done : List Record) (pos : Nat) : Prop := pos = used done ∨ done = [] ∧ pos ≤ 128

def TagAtEnd (os : Os) (fd : Fd) (kind : TagKind) (index : UInt64) (content : List UInt8) : Prop :=
  os.dir.tag kind index = some content ∧ ∃ handle offset append, fd = some handle ∧
    os.fds handle = some (.tag kind index offset append) ∧
    (append = false → offset = content.length)

structure Filed (queue : MqQueue) (os : Os) (model : QueueModel) : Prop where
  rtag : ∃ front pos, ReadPos model.log.done pos.toNat ∧
    (front ++ rtagItem model.getNum pos).length = 31 * (model.log.done.length + 1) ∧
    TagAtEnd os queue.rtagFd .rtag queue.curRdb.curIndex (front ++ rtagItem model.getNum pos)
  wtag : ∃ content, content.length = 41 * model.lines ∧
    TagAtEnd os queue.wtagFd .wtag queue.curWdb.curIndex content
  rtagAlone : ∀ index, index ≠ queue.curRdb.curIndex → os.dir.tag .rtag index = none
  wtagAlone : ∀ index, index ≠ queue.curWdb.curIndex → os.dir.tag .wtag index = none
  noneBefore : ∀ index : UInt64, index.toNat < model.log.first → os.dir.db index = none

structure Tagged (queue : MqQueue) (os : Os) (model : QueueModel) : Prop
    extends Filed queue os model where
  line : ∃ front, os.dir.tag .wtag queue.curWdb.curIndex =
    some (front ++ wtagItem model.noted.putNum model.noted.pos model.noted.maxque)

/-- The queue stands for the model; if `kept`, so do the tag files. -/
structure Rep (kept : Prop) (queue : MqQueue) (os : Os) (model : QueueModel) : Prop where
  reliable : os.Reliable
  fresh : os.Fresh
  readIndex : queue.curRdb.curIndex.toNat = model.log.first
  writeIndex : queue.curWdb.curIndex.toNat = model.log.last
  readMap : ∃ address, queue.curRdb.mapMem = some address ∧
    os.maps address = some queue.curRdb.curIndex
  writeMap : ∃ address, queue.curWdb.mapMem = some address ∧
    os.maps address = some queue.curWdb.curIndex
  readFd : ∃ fd, queue.curRdb.fd = some fd ∧ os.fds fd = some (.db queue.curRdb.curIndex)
  writeFd : ∃ fd, queue.curWdb.fd = some fd ∧ os.fds fd = some (.db queue.curWdb.curIndex)
  rtagFd : ∃ fd offset append, queue.rtagFd = some fd ∧
    os.fds fd = some (.tag .rtag queue.curRdb.curIndex offset append)
  wtagFd : ∃ fd offset append, queue.wtagFd = some fd ∧
    os.fds fd = some (.tag .wtag queue.curWdb.curIndex offset append)
  files : ∀ index : UInt64, model.log.first ≤ index.toNat → index.toNat ≤ model.log.last →
    ∃ file, os.dir.db index = some file ∧
      FileHolds file (model.log.segment (index.toNat - model.log.first))
  absent : ∀ index : UInt64, model.log.last < index.toNat → os.dir.db index = none
  readPos : ReadPos model.log.done queue.curRdb.pos.toNat
  writePos : queue.curWdb.pos.toNat = used model.log.tail
  putNum : queue.putNum = model.putNum
  getNum : queue.getNum = model.getNum
  maxque : queue.maxque = model.maxque
  sync : queue.syncIntv = 0
  tags : kept → Tagged queue os model

structure Stores (dir : QueueDir) (log : Log Record) : Prop where
  files : ∀ index : UInt64, log.first ≤ index.toNat → index.toNat ≤ log.last →
    ∃ file, dir.db index = some file ∧ FileHolds file (log.segment (index.toNat - log.first))
  absent : ∀ index : UInt64, log.last < index.toNat → dir.db index = none

theorem Rep.stores {kept : Prop} {queue : MqQueue} {os : Os} {model : QueueModel}
    (rep : Rep kept queue os model) : Stores os.dir model.log := ⟨rep.files, rep.absent⟩

section Stores

variable {dir after : QueueDir} {log : Log Record}

theorem Stores.roll {next : UInt64} {file : DbFile} (stores : Stores dir log) (place : next.toNat = log.last + 1)
    (holds : FileHolds file []) (db : ∀ index, after.db index = if index = next then some file else dir.db index) :
    Stores after log.roll := by
  refine ⟨fun index lower upper => ?_, fun index late => ?_⟩
  · rw [Log.roll_last] at upper
    rw [db]
    by_cases new : index = next
    · refine ⟨file, if_pos new, ?_⟩
      have segment : log.roll.segment (index.toNat - log.roll.first) = [] := by
        rw [new, place, ← Log.roll_last, Log.last, Nat.add_sub_cancel_left]
        exact Log.roll_tail log
      rwa [segment]
    · have old : index.toNat ≠ log.last + 1 := fun equal => new (UInt64.toNat_inj.mp (equal.trans place.symm))
      obtain ⟨other, found, otherHolds⟩ := stores.files index lower (by omega)
      refine ⟨other, by rw [if_neg new, found], ?_⟩
      have segment : log.roll.segment (index.toNat - log.first) = log.segment (index.toNat - log.first) :=
        Log.roll_segment _ (by rw [Log.last] at *; omega)
      exact segment.symm ▸ otherHolds
  · rw [Log.roll_last] at late
    rw [db, if_neg, stores.absent index (by omega)]
    rintro rfl
    omega

theorem Stores.behind {first : UInt64} {next : List Record} {more : List (List Record)} (stores : Stores dir log)
    (later : log.more = next :: more) (place : first.toNat = log.first)
    (db : ∀ index, after.db index = if index = first then none else dir.db index) :
    Stores after { first := log.first + 1, done := [], rest := next, more } := by
  have last := Log.last_behind later
  have other : ∀ index : UInt64, log.first < index.toNat → index ≠ first := by
    rintro index late rfl
    omega
  refine ⟨fun index lower upper => ?_, fun index late => ?_⟩
  · simp only at lower
    obtain ⟨file, found, holds⟩ := stores.files index (by omega) (by omega)
    refine ⟨file, by rw [db, if_neg (other index lower), found], ?_⟩
    rw [Log.segment_behind later]
    have distance : index.toNat - (log.first + 1) + 1 = index.toNat - log.first := by omega
    simpa only [distance] using holds
  · rw [last] at late
    have bound : log.first ≤ log.last := Nat.le_add_right _ _
    rw [db, if_neg (other index (by omega)), stores.absent index late]

end Stores

theorem index_next {index : UInt64} (room : index.toNat + 1 < 2 ^ 64) : (index + 1).toNat = index.toNat + 1 := by
  rw [UInt64.toNat_add]
  simp only [UInt64.reduceToNat]
  omega

theorem overwrite_end (content data : List UInt8) : overwrite content content.length data = content ++ data := by
  simp [overwrite]

theorem writeN_open {os : Os} {fd : Nat} {kind : TagKind} {index : UInt64} {offset : Nat} {append : Bool}
    (data : List UInt8) (reliable : os.Reliable) (opened : os.fds fd = some (.tag kind index offset append)) :
    ∃ place after, os.writeN (some fd) data = (true, after) ∧
      os.Goes [.writeTag kind index place data] after ∧ after.maps = os.maps ∧ after.nextHandle = os.nextHandle ∧
      after.fds = Function.update os.fds fd (some (.tag kind index (place + data.length) append)) ∧
      place = (if append then ((os.dir.tag kind index).getD []).length else offset) :=
  ⟨_, _, writeN_reliable data reliable opened, ⟨rfl, rfl, rfl⟩, rfl, rfl, rfl, rfl⟩

namespace Rep

variable {kept : Prop} {queue : MqQueue} {os : Os} {model : QueueModel}

section

variable (rep : Rep kept queue os model)

include rep

theorem read_le_write : queue.curRdb.curIndex.toNat ≤ queue.curWdb.curIndex.toNat := by
  rw [rep.readIndex, rep.writeIndex, Log.last]
  omega

theorem tail_file : ∃ file, os.dir.db queue.curWdb.curIndex = some file ∧ FileHolds file model.log.tail := by
  obtain ⟨file, found, holds⟩ := rep.files queue.curWdb.curIndex
    (by rw [rep.writeIndex, Log.last]; omega) (by rw [rep.writeIndex])
  refine ⟨file, found, ?_⟩
  rwa [rep.writeIndex, Log.last, Nat.add_sub_cancel_left] at holds

theorem head_file : ∃ file, os.dir.db queue.curRdb.curIndex = some file ∧
      FileHolds file (model.log.done ++ model.log.rest) := by
  obtain ⟨file, found, holds⟩ := rep.files queue.curRdb.curIndex
    (by rw [rep.readIndex]) (by rw [rep.readIndex, Log.last]; omega)
  refine ⟨file, found, ?_⟩
  rwa [rep.readIndex, Nat.sub_self] at holds

theorem write_pos_le : queue.curWdb.pos.toNat ≤ 67108864 := by
  obtain ⟨file, _, holds⟩ := rep.tail_file
  rw [rep.writePos]
  exact holds.room

theorem writeFull_eq (record : Record) : writeFull queue record.item = !model.fits record := by
  have bound := rep.write_pos_le
  have size := record.size_le
  have length : (queue.curWdb.pos + record.item.len + 12).toNat =
      used model.log.tail + record.size := by
    rw [UInt32.toNat_add, UInt32.toNat_add, Record.item_len, rep.writePos]
    rw [rep.writePos] at bound
    simp only [Record.size, msgHeadLen, UInt32.reduceToNat] at *
    omega
  rw [Bool.eq_iff_iff]
  simp only [writeFull, QueueModel.fits, decide_eq_true_eq, Bool.not_eq_true',
    decide_eq_false_iff_not, gt_iff_lt, UInt32.lt_iff_toNat_lt, length, maxDbFilePos_toNat]
  simp

theorem queueFull_eq : queueFull queue = model.full := by
  simp [queueFull, QueueModel.full, rep.putNum, rep.getNum, rep.maxque]

theorem write_tail {log : Log Record} {pos : Nat} {data : List UInt8} {file : DbFile} (found : os.dir.db queue.curWdb.curIndex = some file)
    (first : log.first = model.log.first) (length : log.more.length = model.log.more.length)
    (others : ∀ offset < log.more.length, log.segment offset = model.log.segment offset)
    (holds : FileHolds { file with bytes := Memory.store file.bytes pos data } log.tail)
    (index : UInt64) (lower : log.first ≤ index.toNat) (upper : index.toNat ≤ log.last) :
    ∃ file, (os.emit (.writeDb queue.curWdb.curIndex pos data)).dir.db index = some file ∧
      FileHolds file (log.segment (index.toNat - log.first)) := by
  have last : log.last = model.log.last := by rw [Log.last, Log.last, first, length]
  simp only [Os.emit_dir, QueueDir.apply, QueueDir.setDb_db, found, Option.map_some]
  by_cases same : index = queue.curWdb.curIndex
  · subst same
    refine ⟨_, if_pos rfl, ?_⟩
    rw [rep.writeIndex, ← last, Log.last, Nat.add_sub_cancel_left]
    exact holds
  · obtain ⟨other, located, otherHolds⟩ := rep.files index (by omega) (by omega)
    refine ⟨other, by rw [if_neg same, located], ?_⟩
    have different : index.toNat ≠ queue.curWdb.curIndex.toNat :=
      fun equal => same (UInt64.toNat_inj.mp equal)
    rw [rep.writeIndex] at different
    rw [others _ (by rw [Log.last] at *; omega), first]
    exact otherHolds

theorem absent_write (pos : Nat) (data : List UInt8) (index : UInt64) (late : model.log.last < index.toNat) :
    (os.emit (.writeDb queue.curWdb.curIndex pos data)).dir.db index = none := by
  have different : index ≠ queue.curWdb.curIndex := by
    rintro rfl
    rw [rep.writeIndex] at late
    omega
  simp [QueueDir.apply, different, rep.absent index late]

theorem filed_write {filed : MqQueue} {written : QueueModel}
    (tags : Filed queue os model) (pos : Nat) (data : List UInt8) (rtagFd : filed.rtagFd = queue.rtagFd)
    (wtagFd : filed.wtagFd = queue.wtagFd) (readIndex : filed.curRdb.curIndex = queue.curRdb.curIndex)
    (writeIndex : filed.curWdb.curIndex = queue.curWdb.curIndex) (first : written.log.first = model.log.first)
    (done : written.log.done = model.log.done) (getNum : written.getNum = model.getNum)
    (lines : written.lines = model.lines) :
    Filed filed (os.emit (.writeDb queue.curWdb.curIndex pos data)) written := by
  refine ⟨?_, ?_, ?_, ?_, ?_⟩
  · rw [done, getNum, rtagFd, readIndex]
    exact tags.rtag
  · rw [lines, wtagFd, writeIndex]
    exact tags.wtag
  · rw [readIndex]
    exact tags.rtagAlone
  · rw [writeIndex]
    exact tags.wtagAlone
  · rw [first]
    intro index early
    have different : index ≠ queue.curWdb.curIndex := by
      rintro rfl
      rw [rep.writeIndex, Log.last] at early
      omega
    simp [QueueDir.apply, different, tags.noneBefore index early]

theorem write_head (count : UInt32) :
    Rep kept queue (os.emit (.writeDb queue.curWdb.curIndex 0 (dbFileHead count))) model := by
  obtain ⟨file, found, holds⟩ := rep.tail_file
  have written := holds.write_head (dbFileHead_length count) (dbFileHead_clear count)
  exact
    { rep with
      files := rep.write_tail found rfl rfl (fun _ _ => rfl) written
      absent := rep.absent_write 0 (dbFileHead count)
      tags := fun keep =>
        { rep.filed_write (rep.tags keep).toFiled 0 (dbFileHead count) rfl rfl rfl rfl rfl rfl rfl rfl with
          line := (rep.tags keep).line } }

end

end Rep

end Libucmq
