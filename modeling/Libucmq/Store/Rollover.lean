import Libucmq.Store.Layout

/-! What the calls of the store do when the system lets them succeed. -/

namespace Libucmq

open Function

variable {os : Os} {index : UInt64}

namespace QueueDir

def applyAll (dir : QueueDir) (effects : List Effect) : QueueDir := effects.foldl apply dir

@[simp] theorem applyAll_nil (dir : QueueDir) : dir.applyAll [] = dir := rfl

@[simp] theorem applyAll_cons (dir : QueueDir) (effect : Effect) (effects : List Effect) :
    dir.applyAll (effect :: effects) = (dir.apply effect).applyAll effects := rfl

theorem applyAll_append (dir : QueueDir) (effects more : List Effect) :
    dir.applyAll (effects ++ more) = (dir.applyAll effects).applyAll more := by
  simp [applyAll]

end QueueDir

namespace Os

structure Goes (before : Os) (effects : List Effect) (after : Os) : Prop where
  faults : after.faults = before.faults
  trace : after.trace = before.trace ++ effects
  dir : after.dir = before.dir.applyAll effects

theorem Goes.reliable {before after : Os} {effects : List Effect}
    (goes : before.Goes effects after) (reliable : before.Reliable) : after.Reliable := by
  intro call
  rw [goes.faults]
  exact reliable call

def Fresh (os : Os) : Prop :=
  ∀ handle, os.nextHandle ≤ handle → os.fds handle = none ∧ os.maps handle = none

theorem Fresh.fd_lt {fd : Nat} {file : OpenFile} (fresh : os.Fresh)
    (opened : os.fds fd = some file) : fd < os.nextHandle := by
  by_contra late
  simp [(fresh fd (by omega)).1] at opened

theorem Fresh.map_lt {address : Nat} (fresh : os.Fresh)
    (mapped : os.maps address = some index) : address < os.nextHandle := by
  by_contra late
  simp [(fresh address (by omega)).2] at mapped

theorem close_fds (os : Os) (fd : Fd) (query : Nat) :
    (os.close fd).fds query = if fd = some query then none else os.fds query := by
  cases fd with
  | none => rfl
  | some fd => simp [close, update_apply, eq_comm]

theorem munmap_maps (os : Os) (address : Option Nat) (query : Nat) :
    (os.munmap address).maps query = if address = some query then none else os.maps query := by
  cases address with
  | none => rfl
  | some address => simp [munmap, update_apply, eq_comm]

@[simp] theorem close_maps (os : Os) (fd : Fd) : (os.close fd).maps = os.maps := by
  cases fd <;> rfl

@[simp] theorem close_nextHandle (os : Os) (fd : Fd) : (os.close fd).nextHandle = os.nextHandle := by
  cases fd <;> rfl

@[simp] theorem close_dir (os : Os) (fd : Fd) : (os.close fd).dir = os.dir := by
  cases fd <;> rfl

@[simp] theorem close_trace (os : Os) (fd : Fd) : (os.close fd).trace = os.trace := by
  cases fd <;> rfl

@[simp] theorem close_faults (os : Os) (fd : Fd) (call : Nat) : (os.close fd).faults call = os.faults call := by
  cases fd <;> rfl

@[simp] theorem munmap_fds (os : Os) (address : Option Nat) : (os.munmap address).fds = os.fds := by
  cases address <;> rfl

@[simp] theorem munmap_nextHandle (os : Os) (address : Option Nat) :
    (os.munmap address).nextHandle = os.nextHandle := by
  cases address <;> rfl

@[simp] theorem munmap_dir (os : Os) (address : Option Nat) : (os.munmap address).dir = os.dir := by
  cases address <;> rfl

@[simp] theorem munmap_trace (os : Os) (address : Option Nat) : (os.munmap address).trace = os.trace := by
  cases address <;> rfl

@[simp] theorem munmap_faults (os : Os) (address : Option Nat) (call : Nat) :
    (os.munmap address).faults call = os.faults call := by
  cases address <;> rfl

theorem Goes.refl (os : Os) : os.Goes [] os := ⟨rfl, by simp, rfl⟩

theorem goes_close (os : Os) (fd : Fd) : os.Goes [] (os.close fd) := by
  cases fd <;> exact ⟨rfl, (List.append_nil _).symm, rfl⟩

theorem goes_munmap (os : Os) (address : Option Nat) : os.Goes [] (os.munmap address) := by
  cases address <;> exact ⟨rfl, (List.append_nil _).symm, rfl⟩

theorem goes_emit (os : Os) (effect : Effect) : os.Goes [effect] (os.emit effect) :=
  ⟨rfl, rfl, rfl⟩

theorem Goes.trans {before middle after : Os} {first second : List Effect}
    (left : before.Goes first middle) (right : middle.Goes second after) :
    before.Goes (first ++ second) after where
  faults := right.faults.trans left.faults
  trace := by rw [right.trace, left.trace, List.append_assoc]
  dir := by rw [right.dir, left.dir, QueueDir.applyAll_append]

theorem Fresh.close (fresh : os.Fresh) (fd : Fd) : (os.close fd).Fresh := by
  intro handle late
  simp only [close_nextHandle] at late
  simp [close_fds, fresh handle late]

theorem Fresh.munmap (fresh : os.Fresh) (address : Option Nat) : (os.munmap address).Fresh := by
  intro handle late
  simp only [munmap_nextHandle] at late
  simp [munmap_maps, fresh handle late]

theorem attempt_reliable (reliable : os.Reliable) : os.attempt = (true, os.tick) := by
  simp [attempt, reliable os.calls]

theorem writeN_trace (os : Os) (fd : Fd) (data : List UInt8) :
    (os.writeN fd data).2.trace.length ≤ os.trace.length + 1 := by
  cases fd with
  | none => exact Nat.le_succ _
  | some fd =>
    cases granted : os.faults os.calls <;> simp only [writeN, attempt, granted, tick_fds] <;> split <;> simp

@[simp] theorem reliable_tick : os.tick.Reliable ↔ os.Reliable := Iff.rfl

@[simp] theorem reliable_emit {effect : Effect} :
    (os.emit effect).Reliable ↔ os.Reliable := Iff.rfl

@[simp] theorem reliable_setFd {fd : Nat} {file : Option OpenFile} :
    (os.setFd fd file).Reliable ↔ os.Reliable := Iff.rfl

@[simp] theorem reliable_allot : os.allot.Reliable ↔ os.Reliable := Iff.rfl

end Os

theorem openTag_create (kind : TagKind) (index : UInt64) (reliable : os.Reliable) : os.openTag kind index true false =
      (some os.nextHandle, ((os.tick.emit (.createTag kind index)).setFd os.nextHandle
          (some (.tag kind index 0 false))).allot) := by
  simp [Os.openTag, Os.attempt_reliable reliable]

theorem openNextTag_reliable (kind : TagKind) (index : UInt64) (reliable : os.Reliable) :
    mqSmTagOpenNextFile kind index os = (some os.nextHandle,
        ((os.tick.emit (.createTag kind index)).setFd os.nextHandle (some (.tag kind index 0 false))).allot) :=
  openTag_create kind index reliable

theorem writeN_reliable {fd : Nat} {kind : TagKind} {offset : Nat} {append : Bool} (data : List UInt8)
    (reliable : os.Reliable) (opened : os.fds fd = some (.tag kind index offset append)) :
    let place := if append then ((os.dir.tag kind index).getD []).length else offset
    os.writeN (some fd) data =
      (true, (os.tick.emit (.writeTag kind index place data)).setFd fd
        (some (.tag kind index (place + data.length) append))) := by
  simp [Os.writeN, Os.attempt_reliable reliable, opened]

theorem openDb_create (index : UInt64) (reliable : os.Reliable) : os.openDb index true = (some os.nextHandle,
        ((os.tick.emit (.createDb index)).setFd os.nextHandle (some (.db index))).allot) := by
  simp [Os.openDb, Os.attempt_reliable reliable]

theorem openDb_existing {file : DbFile} (reliable : os.Reliable) (found : os.dir.db index = some file) :
    os.openDb index false = (some os.nextHandle, (os.tick.setFd os.nextHandle (some (.db index))).allot) := by
  simp [Os.openDb, Os.attempt_reliable reliable, found]

theorem mmap_reliable (index : UInt64) (reliable : os.Reliable) :
    os.mmap index = (some os.nextHandle, (os.tick.setMap os.nextHandle (some index)).allot) := by
  simp [Os.mmap, Os.attempt_reliable reliable]

theorem extendFileSize_empty (reliable : os.Reliable)
    (empty : os.dir.db index = some { size := 0, bytes := fun _ => 0 }) :
    extendFileSize index maxDbFileSize os =
      (true, (os.tick.emit (.resizeDb index maxDbFileSize)).tick.emit
        (.writeDb index (maxDbFileSize - 1) [48])) := by
  simp [extendFileSize, Os.attempt_reliable, reliable, QueueDir.apply, empty]

theorem openDbFile_create {os : Os} {index : UInt64} (reliable : os.Reliable) (absent : os.dir.db index = none) :
    ∃ after, mqSmOpenDbFile index true os = (some (os.nextHandle + 1), some os.nextHandle, after) ∧
      os.Goes [.createDb index, .resizeDb index maxDbFileSize, .writeDb index (maxDbFileSize - 1) [48]] after ∧
      after.dir = os.dir.setDb index (some blankFile) ∧
      after.fds = update os.fds os.nextHandle (some (.db index)) ∧
      after.maps = update os.maps (os.nextHandle + 1) (some index) ∧
      after.nextHandle = os.nextHandle + 2 := by
  have created : os.dir.apply (.createDb index) =
      os.dir.setDb index (some { size := 0, bytes := fun _ => 0 }) := by
    simp [QueueDir.apply, absent]
  rw [mqSmOpenDbFile, openDb_create index reliable]
  simp only [↓reduceIte]
  rw [extendFileSize_empty (by simpa using reliable) (by simp [created])]
  simp only [↓reduceIte]
  rw [mmap_reliable index (by simpa using reliable)]
  refine ⟨_, rfl, ⟨rfl, by simp, by simp⟩, ?_, rfl, rfl, rfl⟩
  simp only [Os.allot_dir, Os.setMap_dir, Os.tick_dir, Os.emit_dir, Os.setFd_dir, created]
  simp [QueueDir.apply, blankFile]

theorem openDbFile_existing {os : Os} {index : UInt64} {file : DbFile} (reliable : os.Reliable)
    (found : os.dir.db index = some file) (full : file.size = maxDbFileSize) :
    ∃ after, mqSmOpenDbFile index false os = (some (os.nextHandle + 1), some os.nextHandle, after) ∧
      os.Goes [] after ∧ after.fds = update os.fds os.nextHandle (some (.db index)) ∧
      after.maps = update os.maps (os.nextHandle + 1) (some index) ∧
      after.nextHandle = os.nextHandle + 2 := by
  have sized : toCInt file.size = 67108864 := by
    rw [full]
    exact toCInt_of_lt (by simp)
  rw [mqSmOpenDbFile, openDb_existing reliable found]
  simp only [Os.allot_dir, Os.setFd_dir, Os.tick_dir, found, Option.map_some, sized, decide_true,
    Bool.false_eq_true, ↓reduceIte]
  rw [mmap_reliable index (by simpa using reliable)]
  exact ⟨_, rfl, ⟨rfl, by simp, rfl⟩, rfl, rfl, rfl⟩

theorem detachWriteFile_spec (queue : MqQueue) (os : Os) (fresh : os.Fresh) :
    ∃ flag after, detachWriteFile queue os = ({ queue.curWdb with flag }, after) ∧
      os.Goes [] after ∧ after.nextHandle = os.nextHandle ∧ after.Fresh ∧
      (∀ fd, (queue.curRdb.curIndex < queue.curWdb.curIndex → queue.curWdb.fd ≠ some fd) → after.fds fd = os.fds fd) ∧
      (∀ address, (queue.curRdb.curIndex < queue.curWdb.curIndex →
        queue.curWdb.mapMem ≠ some address) → after.maps address = os.maps address) := by
  unfold detachWriteFile
  split
  · rename_i behind
    refine ⟨_, _, rfl, (os.goes_munmap _).trans (Os.goes_close _ _), by simp,
      (fresh.munmap _).close _, ?_, ?_⟩
    · intro fd other
      simp [Os.close_fds, other behind]
    · intro address other
      simp [Os.munmap_maps, other behind]
  · exact ⟨_, os, rfl, Os.Goes.refl os, rfl, fresh, fun _ _ => rfl, fun _ _ => rfl⟩

def writeRollEffects (queue : MqQueue) : List Effect :=
  let next := queue.curWdb.curIndex + 1
  [.createTag .wtag next, .createDb next, .resizeDb next maxDbFileSize,
    .writeDb next (maxDbFileSize - 1) [48], .writeDb next 0 (dbFileHead 0),
    .writeTag .wtag next 0 (wtagItem queue.putNum 128 queue.maxque),
    .unlinkTag .wtag queue.curWdb.curIndex]

structure WriteRolled (queue : MqQueue) (os : Os) (rolled : MqQueue) (after : Os) : Prop where
  goes : os.Goes (writeRollEffects queue) after
  queue_eq : rolled =
    { queue with
      wtagFd := some os.nextHandle
      curWdb :=
        { fd := some (os.nextHandle + 1), flag := 1, mapMem := some (os.nextHandle + 2),
          pos := 128, optCount := 0, curIndex := queue.curWdb.curIndex + 1 } }
  fresh : after.Fresh
  tagFd : after.fds os.nextHandle =
    some (.tag .wtag (queue.curWdb.curIndex + 1) (wtagItem queue.putNum 128 queue.maxque).length false)
  dbFd : after.fds (os.nextHandle + 1) = some (.db (queue.curWdb.curIndex + 1))
  map : after.maps (os.nextHandle + 2) = some (queue.curWdb.curIndex + 1)
  otherFds : ∀ fd < os.nextHandle, queue.wtagFd ≠ some fd →
    (queue.curRdb.curIndex < queue.curWdb.curIndex → queue.curWdb.fd ≠ some fd) →
    after.fds fd = os.fds fd
  otherMaps : ∀ address < os.nextHandle,
    (queue.curRdb.curIndex < queue.curWdb.curIndex → queue.curWdb.mapMem ≠ some address) →
    after.maps address = os.maps address

variable {queue : MqQueue}

theorem writeFileHead_mapped {address : Nat}
    (map : queue.curWdb.mapMem = some address) (mapped : os.maps address = some index) :
    mqSmDbWriteFileHead queue os = .ok (os.emit (.writeDb index 0 (dbFileHead queue.curWdb.optCount))) := by
  simp [mqSmDbWriteFileHead, Os.memcpy, map, mapped, dbFileHead_length, dbFileHeadLen]

theorem getNextWriteFile_rolled (reliable : os.Reliable)
    (fresh : os.Fresh) (absent : os.dir.db (queue.curWdb.curIndex + 1) = none)
    (tagOpen : ∀ fd, queue.wtagFd = some fd → fd < os.nextHandle) :
    ∃ rolled after, getNextWriteFile queue os = .ok (true, rolled, after) ∧ WriteRolled queue os rolled after := by
  obtain ⟨flag, detached, detachEq, detachGoes, detachNext, detachFresh, detachFds, detachMaps⟩ :=
    detachWriteFile_spec queue os.tick fresh
  have detachReliable : detached.Reliable := detachGoes.reliable reliable
  have detachDir : detached.dir = os.dir := detachGoes.dir
  obtain ⟨created, createEq, createGoes, createDir, createFds, createMaps, createNext⟩ :=
    @openDbFile_create
      ((detached.tick.emit (.createTag .wtag (queue.curWdb.curIndex + 1))).setFd detached.nextHandle
        (some (.tag .wtag (queue.curWdb.curIndex + 1) 0 false))).allot
      (queue.curWdb.curIndex + 1) (by simpa using detachReliable) (by simpa [detachDir] using absent)
  simp only [Os.allot_nextHandle, Os.setFd_nextHandle, Os.emit_nextHandle, Os.tick_nextHandle] at *
  have tagFd : created.fds detached.nextHandle =
      some (.tag .wtag (queue.curWdb.curIndex + 1) 0 false) := by
    rw [createFds]
    simp
  have map : created.maps (detached.nextHandle + 2) = some (queue.curWdb.curIndex + 1) := by
    rw [createMaps]
    simp
  simp only [getNextWriteFile, Os.attempt_reliable reliable, Bool.not_true, Bool.false_eq_true,
    ↓reduceIte, detachEq, openNextTag_reliable _ _ detachReliable, createEq]
  rw [writeFileHead_mapped rfl map]
  simp only [mqSmWtagWriteItem]
  rw [writeN_reliable _ (by simpa using createGoes.reliable (by simpa using detachReliable))
    (by simpa using tagFd)]
  refine ⟨_, _, rfl, ?_⟩
  have oldTag : ∀ fd, queue.wtagFd = some fd → fd < detached.nextHandle := by
    rw [detachNext]
    exact tagOpen
  have oldTag_ne : ∀ fd, detached.nextHandle ≤ fd → queue.wtagFd ≠ some fd :=
    fun fd late same => absurd (oldTag fd same) (by omega)
  refine ⟨⟨?_, ?_, ?_⟩, ?_, ?_, ?_, ?_, ?_, ?_, ?_⟩
  · funext call
    simp [createGoes.faults, detachGoes.faults]
  · simp [createGoes.trace, detachGoes.trace, writeRollEffects]
  · simp [createGoes.dir, detachGoes.dir, writeRollEffects]
  · simp [detachNext]
  · intro handle late
    simp only [Os.emit_nextHandle, Os.close_nextHandle, Os.setFd_nextHandle, Os.tick_nextHandle,
      createNext] at late
    have unused := detachFresh handle (by omega)
    have later : handle ≠ detached.nextHandle ∧ handle ≠ detached.nextHandle + 1 ∧
        handle ≠ detached.nextHandle + 1 + 1 := by omega
    simp [Os.close_fds, createFds, createMaps, unused, later]
  · rw [← detachNext]
    simp [Os.close_fds, oldTag_ne]
  · rw [← detachNext]
    simp [Os.close_fds, oldTag_ne, createFds]
  · rw [← detachNext]
    simpa using map
  · intro fd early other detachOther
    have kept : detached.fds fd = os.fds fd := detachFds fd detachOther
    have earlier : fd ≠ detached.nextHandle ∧ fd ≠ detached.nextHandle + 1 := by omega
    simp [Os.close_fds, other, createFds, earlier, kept]
  · intro address early other
    have kept : detached.maps address = os.maps address := detachMaps address other
    have earlier : address ≠ detached.nextHandle + 1 + 1 := by omega
    simp [createMaps, earlier, kept]

def readRollEffects (queue : MqQueue) : List Effect :=
  let next := queue.curRdb.curIndex + 1
  [.createTag .rtag next, .writeTag .rtag next 0 (rtagItem queue.getNum 128),
    .unlinkTag .rtag queue.curRdb.curIndex, .unlinkDb queue.curRdb.curIndex]

structure ReadRolled (queue : MqQueue) (os : Os) (rolled : MqQueue) (after : Os) : Prop where
  goes : os.Goes (readRollEffects queue) after
  queue_eq : ∃ address fd, rolled =
      { queue with
        rtagFd := some os.nextHandle
        curRdb :=
          { fd := some fd, flag := 1, mapMem := some address, pos := 128, optCount := 0,
            curIndex := queue.curRdb.curIndex + 1 } } ∧
    after.maps address = some (queue.curRdb.curIndex + 1) ∧
    after.fds fd = some (.db (queue.curRdb.curIndex + 1))
  fresh : after.Fresh
  tagFd : after.fds os.nextHandle =
    some (.tag .rtag (queue.curRdb.curIndex + 1) (rtagItem queue.getNum 128).length false)
  otherFds : ∀ fd < os.nextHandle, queue.rtagFd ≠ some fd → queue.curRdb.fd ≠ some fd →
    after.fds fd = os.fds fd
  otherMaps : ∀ address < os.nextHandle, queue.curRdb.mapMem ≠ some address →
    after.maps address = os.maps address

theorem retireReadFile_spec {old queue : MqQueue} {os : Os} {fd : Nat} (reliable : os.Reliable) (fresh : os.Fresh)
    (tag : queue.rtagFd = some fd) (opened : os.fds fd = some (.tag .rtag queue.curRdb.curIndex 0 false))
    (oldTag : old.rtagFd ≠ some fd) (oldDb : old.curRdb.fd ≠ some fd) :
    let item := rtagItem queue.getNum queue.curRdb.pos
    let after := retireReadFile old queue os
    os.Goes [.writeTag .rtag queue.curRdb.curIndex 0 item, .unlinkTag .rtag old.curRdb.curIndex,
        .unlinkDb old.curRdb.curIndex] after ∧
      after.nextHandle = os.nextHandle ∧ after.Fresh ∧
      after.fds fd = some (.tag .rtag queue.curRdb.curIndex item.length false) ∧
      (∀ other, other ≠ fd → old.rtagFd ≠ some other → old.curRdb.fd ≠ some other →
        after.fds other = os.fds other) ∧
      (∀ address, old.curRdb.mapMem ≠ some address → after.maps address = os.maps address) := by
  intro item after
  have afterEq : after = ((((((os.tick.emit
      (.writeTag .rtag queue.curRdb.curIndex 0 item)).setFd fd
        (some (.tag .rtag queue.curRdb.curIndex item.length false))).close old.rtagFd).emit
          (.unlinkTag .rtag old.curRdb.curIndex)).munmap old.curRdb.mapMem).close
            old.curRdb.fd).emit (.unlinkDb old.curRdb.curIndex) := by
    simp only [after, retireReadFile, mqSmRtagWriteItem, tag]
    rw [writeN_reliable _ reliable opened]
    simp [item]
  rw [afterEq]
  refine ⟨⟨?_, ?_, ?_⟩, ?_, ?_, ?_, ?_, ?_⟩
  · funext call
    simp
  · simp
  · simp
  · simp
  · intro handle late
    simp only [Os.emit_nextHandle, Os.close_nextHandle, Os.munmap_nextHandle, Os.setFd_nextHandle,
      Os.tick_nextHandle] at late
    have below := fresh.fd_lt opened
    have unused := fresh handle late
    have other : handle ≠ fd := by omega
    simp [Os.close_fds, Os.munmap_maps, unused, other]
  · simp [Os.close_fds, oldTag, oldDb]
  · intro other different notTag notDb
    simp [Os.close_fds, notTag, notDb, different]
  · intro address notMap
    simp [Os.munmap_maps, notMap]

theorem getNextReadFile_last (os : Os) (last : queue.curWdb.curIndex < queue.curRdb.curIndex + 1) :
    getNextReadFile queue os =
      (false, { queue with curRdb := { queue.curRdb with curIndex := queue.curWdb.curIndex } }, os) := by
  rw [getNextReadFile, if_pos last]

theorem getNextReadFile_rolled {os : Os} {writeMap writeFd : Nat}
    (reliable : os.Reliable) (fresh : os.Fresh) (ahead : ¬ queue.curWdb.curIndex < queue.curRdb.curIndex + 1)
    (tagOpen : ∀ fd, queue.rtagFd = some fd → fd < os.nextHandle)
    (dbOpen : ∀ fd, queue.curRdb.fd = some fd → fd < os.nextHandle)
    (map : queue.curWdb.mapMem = some writeMap) (fd : queue.curWdb.fd = some writeFd)
    (mapped : os.maps writeMap = some queue.curWdb.curIndex)
    (opened : os.fds writeFd = some (.db queue.curWdb.curIndex))
    (mapApart : queue.curRdb.mapMem ≠ some writeMap) (fdApart : queue.curRdb.fd ≠ some writeFd)
    (tagApart : queue.rtagFd ≠ some writeFd) (nextFile : queue.curRdb.curIndex + 1 ≠ queue.curWdb.curIndex → ∃ file,
      os.dir.db (queue.curRdb.curIndex + 1) = some file ∧ file.size = maxDbFileSize)
    (distinct : queue.curRdb.curIndex + 1 ≠ queue.curRdb.curIndex) :
    ∃ rolled after, getNextReadFile queue os = (true, rolled, after) ∧ ReadRolled queue os rolled after := by
  have notTag : queue.rtagFd ≠ some os.nextHandle := fun same => absurd (tagOpen _ same) (by omega)
  have notDb : queue.curRdb.fd ≠ some os.nextHandle := fun same => absurd (dbOpen _ same) (by omega)
  have openedReliable : (((os.tick.emit (.createTag .rtag (queue.curRdb.curIndex + 1))).setFd
      os.nextHandle (some (.tag .rtag (queue.curRdb.curIndex + 1) 0 false))).allot).Reliable := by
    simpa using reliable
  have openedFresh : (((os.tick.emit (.createTag .rtag (queue.curRdb.curIndex + 1))).setFd
      os.nextHandle (some (.tag .rtag (queue.curRdb.curIndex + 1) 0 false))).allot).Fresh := by
    intro handle late
    simp only [Os.allot_nextHandle, Os.setFd_nextHandle, Os.emit_nextHandle,
      Os.tick_nextHandle] at late
    have unused := fresh handle (by omega)
    have other : handle ≠ os.nextHandle := by omega
    simp [unused, other]
  obtain ⟨goes, next, retiredFresh, tagFd, otherFds, otherMaps⟩ :=
    @retireReadFile_spec queue
      { queue with
        rtagFd := some os.nextHandle
        curRdb := { queue.curRdb with
          flag := 0, curIndex := queue.curRdb.curIndex + 1, optCount := 0, pos := 128 } }
      _ os.nextHandle openedReliable openedFresh rfl (by simp) notTag notDb
  rw [getNextReadFile, if_neg ahead, openNextTag_reliable _ _ reliable]
  dsimp only
  generalize retireReadFile queue _ _ = retired at *
  have effects : os.Goes (readRollEffects queue) retired := by
    refine ⟨goes.faults, ?_, goes.dir⟩
    rw [goes.trace]
    simp [readRollEffects]
  have handles : retired.nextHandle = os.nextHandle + 1 := next
  have keptFds : ∀ fd < os.nextHandle, queue.rtagFd ≠ some fd → queue.curRdb.fd ≠ some fd →
      retired.fds fd = os.fds fd := by
    intro fd early notOldTag notOldDb
    rw [otherFds fd (by omega) notOldTag notOldDb]
    simp [show fd ≠ os.nextHandle by omega]
  have keptMaps : ∀ address, queue.curRdb.mapMem ≠ some address →
      retired.maps address = os.maps address := otherMaps
  split
  · rename_i shared
    refine ⟨_, _, rfl, effects, ⟨writeMap, writeFd, by simp [map, fd], ?_, ?_⟩, retiredFresh, tagFd,
      keptFds, fun address _ => keptMaps address⟩
    · rw [keptMaps writeMap mapApart, shared, mapped]
    · rw [keptFds writeFd (fresh.fd_lt opened) tagApart fdApart, shared, opened]
  · rename_i separate
    obtain ⟨file, found, full⟩ := nextFile separate
    have kept : retired.dir.db (queue.curRdb.curIndex + 1) = some file := by
      rw [effects.dir]
      simp [readRollEffects, found, distinct]
    obtain ⟨after, openEq, openGoes, openFds, openMaps, openNext⟩ :=
      openDbFile_existing (effects.reliable reliable) kept full
    rw [openEq]
    refine ⟨_, _, rfl, ?_, ⟨retired.nextHandle + 1, retired.nextHandle, rfl, ?_, ?_⟩, ?_, ?_, ?_, ?_⟩
    · simpa using effects.trans openGoes
    · simp [openMaps]
    · simp [openFds]
    · intro handle late
      have unused := retiredFresh handle (by omega)
      have other : handle ≠ retired.nextHandle ∧ handle ≠ retired.nextHandle + 1 := by omega
      simp [openFds, openMaps, other, unused]
    · rw [openFds]
      simp [show os.nextHandle ≠ retired.nextHandle by omega, tagFd]
    · intro fd early notOldTag notOldDb
      rw [openFds, ← keptFds fd early notOldTag notOldDb]
      simp [show fd ≠ retired.nextHandle by omega]
    · intro address early notOldMap
      rw [openMaps, ← keptMaps address notOldMap]
      simp [show address ≠ retired.nextHandle + 1 by omega]

end Libucmq
