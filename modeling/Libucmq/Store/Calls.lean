import Libucmq.Store.Rollover

/-! What the calls of the store do, whichever system calls are refused. -/

namespace Libucmq

def OpenFile.name : OpenFile → FileName
  | .db index => .db index
  | .tag kind index _ _ => .tag kind index

variable {index : UInt64}

namespace Os

def opened (os : Os) (fd : Nat) : Option FileName := (os.fds fd).map OpenFile.name

@[simp] theorem opened_tick (os : Os) : os.tick.opened = os.opened := rfl
@[simp] theorem opened_emit (os : Os) (effect : Effect) : (os.emit effect).opened = os.opened := rfl

@[simp] theorem opened_setMap (os : Os) (address : Nat) (index : Option UInt64) :
    (os.setMap address index).opened = os.opened := rfl

@[simp] theorem opened_allot (os : Os) : os.allot.opened = os.opened := rfl

theorem opened_setFd (os : Os) (fd : Nat) (file : Option OpenFile) (query : Nat) :
    (os.setFd fd file).opened query = if query = fd then file.map OpenFile.name else os.opened query := by
  by_cases same : query = fd <;> simp [opened, same]

theorem opened_close (os : Os) (fd : Fd) (query : Nat) :
    (os.close fd).opened query = if fd = some query then none else os.opened query := by
  rw [opened, close_fds]
  split <;> rfl

@[simp] theorem opened_munmap (os : Os) (address : Option Nat) : (os.munmap address).opened = os.opened := by
  simp [opened, funext_iff]

theorem opened_none {os : Os} {fd : Nat} : os.opened fd = none ↔ os.fds fd = none := Option.map_eq_none_iff

theorem fds_of_opened_db {os : Os} {fd : Nat} (found : os.opened fd = some (.db index)) :
    os.fds fd = some (.db index) := by
  obtain ⟨file, isOpen, name⟩ := Option.map_eq_some_iff.mp found
  cases file with
  | db other =>
    cases name
    exact isOpen
  | tag kind other offset append => cases name

theorem fds_of_opened_tag {os : Os} {fd : Nat} {kind : TagKind} (found : os.opened fd = some (.tag kind index)) :
    ∃ offset append, os.fds fd = some (.tag kind index offset append) := by
  obtain ⟨file, isOpen, name⟩ := Option.map_eq_some_iff.mp found
  cases file with
  | db other => cases name
  | tag kind other offset append =>
    cases name
    exact ⟨offset, append, isOpen⟩

structure SameHandles (before after : Os) : Prop where
  opened : after.opened = before.opened
  maps : after.maps = before.maps
  nextHandle : after.nextHandle = before.nextHandle
  faults : after.faults = before.faults
  closes : after.closes = before.closes
  unmaps : after.unmaps = before.unmaps

theorem SameHandles.refl (os : Os) : os.SameHandles os := ⟨rfl, rfl, rfl, rfl, rfl, rfl⟩

theorem SameHandles.tick (os : Os) : os.SameHandles os.tick := ⟨rfl, rfl, rfl, rfl, rfl, rfl⟩

theorem SameHandles.emit (os : Os) (effect : Effect) : os.SameHandles (os.emit effect) :=
  ⟨rfl, rfl, rfl, rfl, rfl, rfl⟩

theorem SameHandles.trans {before middle after : Os} (left : before.SameHandles middle)
    (right : middle.SameHandles after) : before.SameHandles after where
  opened := right.opened.trans left.opened
  maps := right.maps.trans left.maps
  nextHandle := right.nextHandle.trans left.nextHandle
  faults := right.faults.trans left.faults
  closes := right.closes.trans left.closes
  unmaps := right.unmaps.trans left.unmaps

theorem writeN_handles (os : Os) (fd : Fd) (data : List UInt8) :
    os.SameHandles (os.writeN fd data).2 ∧ (os.writeN fd data).2.dir.db = os.dir.db := by
  cases fd with
  | none => exact ⟨SameHandles.tick os, rfl⟩
  | some fd =>
    cases granted : os.faults os.calls <;>
      simp only [writeN, attempt, tick_fds, granted, Bool.not_true, Bool.not_false, Bool.false_eq_true,
        ↓reduceIte] <;> split
    · rename_i kind index offset append found
      refine ⟨⟨?_, rfl, rfl, rfl, rfl, rfl⟩, rfl⟩
      funext query
      rw [opened_setFd]
      split
      · rename_i same
        simp [same, opened, found, OpenFile.name]
      · rfl
    all_goals exact ⟨SameHandles.tick os, rfl⟩

end Os

def tagOpened (kind : TagKind) (index : UInt64) (os : Os) : Os :=
  ((os.tick.emit (.createTag kind index)).setFd os.nextHandle (some (.tag kind index 0 false))).allot

theorem tagOpened_opened (kind : TagKind) (index : UInt64) (os : Os) (query : Nat) :
    (tagOpened kind index os).opened query =
      if query = os.nextHandle then some (.tag kind index) else os.opened query := by
  simp [tagOpened, Os.opened_setFd, OpenFile.name]

theorem tagOpened_db (kind : TagKind) (index : UInt64) (os : Os) : (tagOpened kind index os).dir.db = os.dir.db := by
  simp [tagOpened]

theorem openNextTag_eq (kind : TagKind) (index : UInt64) (os : Os) : mqSmTagOpenNextFile kind index os =
      if os.faults os.calls then (none, os.tick) else (some os.nextHandle, tagOpened kind index os) := by
  cases granted : os.faults os.calls <;> simp [mqSmTagOpenNextFile, Os.openTag, Os.attempt, granted, tagOpened]

/-- Where the mapping fails the closed descriptor is returned. -/
inductive DbOpened (index : UInt64) (os : Os) : Option Nat → Fd → Os → Prop
  | refused {after : Os} (handles : os.SameHandles after) : DbOpened index os none none after
  | closed {after : Os}
      (opened : ∀ query, after.opened query = if query = os.nextHandle then none else os.opened query)
      (maps : after.maps = os.maps) (nextHandle : after.nextHandle = os.nextHandle + 1)
      (faults : after.faults = os.faults) : DbOpened index os none (some os.nextHandle) after
  | opened {after : Os}
      (opened : ∀ query, after.opened query =
        if query = os.nextHandle then some (.db index) else os.opened query)
      (maps : ∀ query, after.maps query = if query = os.nextHandle + 1 then some index else os.maps query)
      (nextHandle : after.nextHandle = os.nextHandle + 2) (faults : after.faults = os.faults)
      (closes : after.closes = os.closes) (unmaps : after.unmaps = os.unmaps)
      (found : (after.dir.db index).isSome) :
      DbOpened index os (some (os.nextHandle + 1)) (some os.nextHandle) after

structure SameBut (index : UInt64) (before after : Os) : Prop where
  tag : after.dir.tag = before.dir.tag
  db : ∀ other, other ≠ index → after.dir.db other = before.dir.db other

theorem SameBut.trans {index : UInt64} {before middle after : Os} (left : SameBut index before middle)
    (right : SameBut index middle after) : SameBut index before after where
  tag := right.tag.trans left.tag
  db := fun other different => (right.db other different).trans (left.db other different)

theorem extendFileSize_spec (index : UInt64) (length : Nat) (os : Os) :
    os.SameHandles (extendFileSize index length os).2 ∧ SameBut index os (extendFileSize index length os).2 ∧
      ((extendFileSize index length os).1 = true → ((extendFileSize index length os).2.dir.db index).isSome) := by
  obtain ⟨middle, middleEq, handles, same⟩ : ∃ middle,
      middle = (if os.attempt.1 then os.attempt.2.emit (.resizeDb index length) else os.attempt.2) ∧
        os.SameHandles middle ∧ SameBut index os middle := by
    refine ⟨_, rfl, ?_⟩
    split
    · refine ⟨(Os.SameHandles.tick os).trans (Os.SameHandles.emit _ _), ⟨rfl, ?_⟩⟩
      intro other different
      simp [Os.attempt, different]
    · exact ⟨Os.SameHandles.tick os, ⟨rfl, fun _ _ => rfl⟩⟩
  simp only [extendFileSize, ← middleEq]
  split
  · exact ⟨handles, same, fun failed => absurd failed Bool.false_ne_true⟩
  · rename_i file found
    split
    · exact ⟨handles, same, fun failed => absurd failed Bool.false_ne_true⟩
    · cases granted : middle.faults middle.calls <;>
        simp only [Os.attempt, granted, Bool.not_true, Bool.not_false, Bool.false_eq_true, ↓reduceIte]
      · refine ⟨handles.trans ((Os.SameHandles.tick _).trans (Os.SameHandles.emit _ _)),
          same.trans ⟨rfl, ?_⟩, ?_⟩
        · intro other different
          simp [different]
        · simp [found]
      · exact ⟨handles.trans (Os.SameHandles.tick _), same.trans ⟨rfl, fun _ _ => rfl⟩, by simp [found]⟩

def dbOpened (index : UInt64) (create : Bool) (os : Os) : Os :=
  ((if create then os.tick.emit (.createDb index) else os.tick).setFd os.nextHandle (some (.db index))).allot

theorem openDb_eq (index : UInt64) (create : Bool) (os : Os) : os.openDb index create =
      if os.faults os.calls = false ∧ (create = true ∨ (os.dir.db index).isSome) then
        (some os.nextHandle, dbOpened index create os)
      else (none, os.tick) := by
  cases granted : os.faults os.calls <;> cases create <;> cases found : (os.dir.db index).isSome <;>
    simp [Os.openDb, Os.attempt, granted, found, dbOpened]

theorem dbOpened_opened (index : UInt64) (create : Bool) (os : Os) (query : Nat) :
    (dbOpened index create os).opened query =
      if query = os.nextHandle then some (.db index) else os.opened query := by
  cases create <;> simp [dbOpened, Os.opened_setFd, OpenFile.name]

section

variable (index : UInt64) (create : Bool) (os : Os)

@[simp] theorem dbOpened_maps : (dbOpened index create os).maps = os.maps := by cases create <;> rfl

@[simp] theorem dbOpened_nextHandle : (dbOpened index create os).nextHandle = os.nextHandle + 1 := by
  cases create <;> rfl

@[simp] theorem dbOpened_faults : (dbOpened index create os).faults = os.faults := by cases create <;> rfl

@[simp] theorem dbOpened_closes : (dbOpened index create os).closes = os.closes := by cases create <;> rfl

@[simp] theorem dbOpened_unmaps : (dbOpened index create os).unmaps = os.unmaps := by cases create <;> rfl

end

theorem dbOpened_sameBut (index : UInt64) (create : Bool) (os : Os) :
    SameBut index os (dbOpened index create os) := by
  cases create with
  | true =>
    refine ⟨by simp [dbOpened], ?_⟩
    intro other different
    simp only [dbOpened, ↓reduceIte, Os.allot_dir, Os.setFd_dir, Os.emit_dir, Os.tick_dir, QueueDir.apply]
    split
    · rfl
    · simp [different]
  | false => exact ⟨rfl, fun _ _ => rfl⟩

theorem mmap_eq (os : Os) (index : UInt64) : os.mmap index =
      if os.faults os.calls then (none, os.tick)
      else (some os.nextHandle, (os.tick.setMap os.nextHandle (some index)).allot) := by
  cases granted : os.faults os.calls <;> simp [Os.mmap, Os.attempt, granted]

def dbSized (index : UInt64) (create : Bool) (os : Os) : Bool × Os :=
  if create then extendFileSize index maxDbFileSize os
  else (decide (((os.dir.db index).map fun file => toCInt file.size) = some 67108864), os)

theorem dbSized_spec (index : UInt64) (create : Bool) (os : Os) :
    os.SameHandles (dbSized index create os).2 ∧ SameBut index os (dbSized index create os).2 ∧
      ((dbSized index create os).1 = true → ((dbSized index create os).2.dir.db index).isSome) := by
  cases create with
  | true => exact extendFileSize_spec index maxDbFileSize os
  | false =>
    refine ⟨Os.SameHandles.refl os, ⟨rfl, fun _ _ => rfl⟩, ?_⟩
    intro sized
    simp only [dbSized, Bool.false_eq_true, ↓reduceIte, decide_eq_true_eq] at sized ⊢
    cases found : os.dir.db index with
    | none => simp [found] at sized
    | some file => rfl

theorem DbOpened.of_close {create : Bool} {os sized : Os} (handles : (dbOpened index create os).SameHandles sized) :
    DbOpened index os none (some os.nextHandle) (sized.close (some os.nextHandle)) := by
  refine .closed ?_ ?_ ?_ ?_
  · intro query
    rw [Os.opened_close, handles.opened, dbOpened_opened]
    by_cases same : query = os.nextHandle
    · simp [same]
    · simp [same, Ne.symm same]
  · rw [Os.close_maps, handles.maps, dbOpened_maps]
  · rw [Os.close_nextHandle, handles.nextHandle, dbOpened_nextHandle]
  · funext call
    rw [Os.close_faults, handles.faults, dbOpened_faults]

def dbMapped (index : UInt64) (fd : Nat) (sized : Bool × Os) : Option Nat × Fd × Os :=
  if sized.1 then
    match sized.2.mmap index with
    | (some address, os) => (some address, some fd, os)
    | (none, os) => (none, some fd, os.close (some fd))
  else (none, some fd, sized.2.close (some fd))

theorem openDbFile_eq (index : UInt64) (create : Bool) (os : Os) : mqSmOpenDbFile index create os =
      if os.faults os.calls = false ∧ (create = true ∨ (os.dir.db index).isSome) then
        dbMapped index os.nextHandle (dbSized index create (dbOpened index create os))
      else (none, none, os.tick) := by
  rw [mqSmOpenDbFile, openDb_eq]
  by_cases granted : os.faults os.calls = false ∧ (create = true ∨ (os.dir.db index).isSome)
  · rw [if_pos granted, if_pos granted]
    rfl
  · rw [if_neg granted, if_neg granted]

theorem dbMapped_spec {create : Bool} {os : Os} {sized : Bool × Os}
    (handles : (dbOpened index create os).SameHandles sized.2)
    (found : sized.1 = true → (sized.2.dir.db index).isSome) :
    ∃ address fd after, dbMapped index os.nextHandle sized = (address, fd, after) ∧
      DbOpened index os address fd after ∧ after.dir = sized.2.dir := by
  obtain ⟨sized, file⟩ := sized
  cases sized with
  | false => exact ⟨_, _, _, rfl, DbOpened.of_close handles, Os.close_dir _ _⟩
  | true =>
    rw [dbMapped, if_pos rfl, mmap_eq]
    cases refused : file.faults file.calls with
    | true =>
      exact ⟨_, _, _, rfl, DbOpened.of_close (handles.trans (Os.SameHandles.tick _)), Os.close_dir _ _⟩
    | false =>
      have next : file.nextHandle = os.nextHandle + 1 := by
        rw [handles.nextHandle, dbOpened_nextHandle]
      refine ⟨_, _, _, rfl, ?_, rfl⟩
      simp only [next]
      refine .opened ?_ ?_ ?_ ?_ ?_ ?_ ?_
      · intro query
        exact (congrFun handles.opened query).trans (dbOpened_opened index create os query)
      · intro query
        have same : file.maps = os.maps := handles.maps.trans (dbOpened_maps index create os)
        simp only [Os.allot_maps, Os.setMap_maps, Os.tick_maps, same, Function.update_apply]
      · rw [Os.allot_nextHandle, Os.setMap_nextHandle, Os.tick_nextHandle, next]
      · exact handles.faults.trans (dbOpened_faults index create os)
      · exact handles.closes.trans (dbOpened_closes index create os)
      · exact handles.unmaps.trans (dbOpened_unmaps index create os)
      · exact found rfl

theorem openDbFile_spec (index : UInt64) (create : Bool) (os : Os) :
    ∃ address fd after, mqSmOpenDbFile index create os = (address, fd, after) ∧
      DbOpened index os address fd after ∧ SameBut index os after ∧ (create = false → after.dir = os.dir) := by
  rw [openDbFile_eq]
  split
  · obtain ⟨handles, same, found⟩ := dbSized_spec index create (dbOpened index create os)
    obtain ⟨address, fd, after, mapEq, opened, dir⟩ := dbMapped_spec handles found
    refine ⟨address, fd, after, mapEq, opened, ⟨?_, ?_⟩, ?_⟩
    · rw [dir, same.tag, (dbOpened_sameBut index create os).tag]
    · intro other different
      rw [dir, same.db other different, (dbOpened_sameBut index create os).db other different]
    · rintro rfl
      exact dir
  · exact ⟨_, _, _, rfl, .refused (Os.SameHandles.tick os), ⟨rfl, fun _ _ => rfl⟩, fun _ => rfl⟩

section Retire

variable (old queue : MqQueue) (os : Os)

theorem retireReadFile_maps (address : Nat) : (retireReadFile old queue os).maps address =
      if old.curRdb.mapMem = some address then none else os.maps address := by
  have written := (Os.writeN_handles os queue.rtagFd (rtagItem queue.getNum queue.curRdb.pos)).1
  simp only [retireReadFile, mqSmRtagWriteItem, Os.emit_maps, Os.close_maps, Os.munmap_maps, written.maps]

theorem retireReadFile_opened (fd : Nat) : (retireReadFile old queue os).opened fd =
      if old.rtagFd = some fd ∨ old.curRdb.fd = some fd then none else os.opened fd := by
  have written := (Os.writeN_handles os queue.rtagFd (rtagItem queue.getNum queue.curRdb.pos)).1
  simp only [retireReadFile, mqSmRtagWriteItem, Os.opened_emit, Os.opened_close, Os.opened_munmap,
    written.opened]
  split <;> simp_all

@[simp] theorem retireReadFile_nextHandle : (retireReadFile old queue os).nextHandle = os.nextHandle := by
  have written := (Os.writeN_handles os queue.rtagFd (rtagItem queue.getNum queue.curRdb.pos)).1
  simp only [retireReadFile, mqSmRtagWriteItem, Os.emit_nextHandle, Os.close_nextHandle,
    Os.munmap_nextHandle, written.nextHandle]

theorem retireReadFile_db (index : UInt64) : (retireReadFile old queue os).dir.db index =
      if index = old.curRdb.curIndex then none else os.dir.db index := by
  simp only [retireReadFile, mqSmRtagWriteItem, Os.emit_dir, QueueDir.apply_unlinkDb_db, Os.close_dir,
    Os.munmap_dir, QueueDir.apply_unlinkTag_db, (Os.writeN_handles _ _ _).2]

end Retire

def readNext (queue : MqQueue) (fd : Nat) : MqQueue :=
  { queue with
    rtagFd := some fd
    curRdb := { queue.curRdb with
      flag := 0, curIndex := queue.curRdb.curIndex + 1, optCount := 0, pos := 128 } }

def readRetired (queue : MqQueue) (os : Os) : Os :=
  retireReadFile queue (readNext queue os.nextHandle) (tagOpened .rtag (queue.curRdb.curIndex + 1) os)

def readOn (queue : MqQueue) (mapMem : Option Nat) (fd : Fd) (flag : Nat) : MqQueue :=
  { queue with curRdb := { queue.curRdb with mapMem, fd, flag } }

inductive ReadRoll (queue : MqQueue) (os : Os) : Bool → MqQueue → Os → Prop
  | ended (last : queue.curRdb.curIndex + 1 > queue.curWdb.curIndex) :
      ReadRoll queue os false
        { queue with curRdb := { queue.curRdb with curIndex := queue.curWdb.curIndex } } os
  | tagRefused (later : ¬ queue.curRdb.curIndex + 1 > queue.curWdb.curIndex)
      (refused : os.faults os.calls = true) :
      ReadRoll queue os false { queue with curRdb := { queue.curRdb with flag := 0 }, rtagFd := none } os.tick
  | shared (later : ¬ queue.curRdb.curIndex + 1 > queue.curWdb.curIndex)
      (granted : os.faults os.calls = false)
      (last : queue.curRdb.curIndex + 1 = queue.curWdb.curIndex) :
      ReadRoll queue os true
        (readOn (readNext queue os.nextHandle) queue.curWdb.mapMem queue.curWdb.fd 1) (readRetired queue os)
  | dataRefused {fd : Fd} {after : Os} (later : ¬ queue.curRdb.curIndex + 1 > queue.curWdb.curIndex)
      (granted : os.faults os.calls = false)
      (before : queue.curRdb.curIndex + 1 ≠ queue.curWdb.curIndex)
      (opening : DbOpened (queue.curRdb.curIndex + 1) (readRetired queue os) none fd after)
      (dir : after.dir = (readRetired queue os).dir) :
      ReadRoll queue os false (readOn (readNext queue os.nextHandle) none fd 0)
        (after.close (some os.nextHandle))
  | opened {address : Nat} {fd : Fd} {after : Os}
      (later : ¬ queue.curRdb.curIndex + 1 > queue.curWdb.curIndex) (granted : os.faults os.calls = false)
      (before : queue.curRdb.curIndex + 1 ≠ queue.curWdb.curIndex)
      (opening : DbOpened (queue.curRdb.curIndex + 1) (readRetired queue os) (some address) fd after)
      (dir : after.dir = (readRetired queue os).dir) :
      ReadRoll queue os true (readOn (readNext queue os.nextHandle) (some address) fd 1) after

section

variable (queue : MqQueue)

include queue

theorem getNextReadFile_spec (os : Os) :
    ∃ found next after, getNextReadFile queue os = (found, next, after) ∧ ReadRoll queue os found next after := by
  by_cases later : queue.curRdb.curIndex + 1 > queue.curWdb.curIndex
  · exact ⟨_, _, _, if_pos later, .ended later⟩
  · simp only [getNextReadFile, later, ↓reduceIte, openNextTag_eq]
    cases refused : os.faults os.calls with
    | true => exact ⟨_, _, _, rfl, .tagRefused later refused⟩
    | false =>
      simp only [Bool.false_eq_true, ↓reduceIte]
      by_cases last : queue.curRdb.curIndex + 1 = queue.curWdb.curIndex
      · rw [if_pos last]
        exact ⟨_, _, _, rfl, .shared later refused last⟩
      · obtain ⟨address, fd, after, openEq, opening, _, dir⟩ :=
          openDbFile_spec (queue.curRdb.curIndex + 1) false (readRetired queue os)
        rw [if_neg last]
        unfold readRetired readNext at openEq
        rw [openEq]
        cases address with
        | none => exact ⟨_, _, _, rfl, .dataRefused later refused last opening (dir rfl)⟩
        | some address => exact ⟨_, _, _, rfl, .opened later refused last opening (dir rfl)⟩

theorem readRetired_db (os : Os) (index : UInt64) :
    (readRetired queue os).dir.db index = if index = queue.curRdb.curIndex then none else os.dir.db index := by
  rw [readRetired, retireReadFile_db, tagOpened_db]

theorem readRetired_maps (os : Os) (address : Nat) : (readRetired queue os).maps address =
      if queue.curRdb.mapMem = some address then none else os.maps address :=
  retireReadFile_maps _ _ _ address

@[simp] theorem readRetired_nextHandle (os : Os) : (readRetired queue os).nextHandle = os.nextHandle + 1 :=
  retireReadFile_nextHandle _ _ _

theorem readRetired_opened (os : Os) (fd : Nat) : (readRetired queue os).opened fd =
      if queue.rtagFd = some fd ∨ queue.curRdb.fd = some fd then none
      else if fd = os.nextHandle then some (.tag .rtag (queue.curRdb.curIndex + 1)) else os.opened fd := by
  rw [readRetired, retireReadFile_opened, tagOpened_opened]

end

def writeDetached (queue : MqQueue) (os : Os) : Os := (detachWriteFile queue os.tick).2

@[simp] theorem writeDetached_nextHandle (queue : MqQueue) (os : Os) :
    (writeDetached queue os).nextHandle = os.nextHandle := by
  by_cases behind : queue.curWdb.curIndex > queue.curRdb.curIndex <;>
    simp [writeDetached, detachWriteFile, behind]

def writeTagged (queue : MqQueue) (os : Os) : Os :=
  tagOpened .wtag (queue.curWdb.curIndex + 1) (writeDetached queue os)

def writeNext (queue : MqQueue) (tag : Nat) (address : Nat) (fd : Fd) : MqQueue :=
  { queue with
    wtagFd := some tag
    curWdb :=
      { fd, flag := 1, mapMem := some address, pos := 128, optCount := 0
        curIndex := queue.curWdb.curIndex + 1 } }

def writeSettled (queue rolled : MqQueue) (os : Os) : Os :=
  let headed := os.emit (.writeDb rolled.curWdb.curIndex 0 (dbFileHead rolled.curWdb.optCount))
  ((mqSmWtagWriteItem rolled headed).2.close queue.wtagFd).emit (.unlinkTag .wtag queue.curWdb.curIndex)

inductive WriteRoll (queue : MqQueue) (os : Os) : Bool → MqQueue → Os → Prop
  | noSpace (refused : os.faults os.calls = true) : WriteRoll queue os false queue os.tick
  | tagRefused (space : os.faults os.calls = false) {flag : Nat} :
      WriteRoll queue os false { queue with curWdb := { queue.curWdb with flag }, wtagFd := none }
        (writeDetached queue os).tick
  | dataRefused (space : os.faults os.calls = false) {flag : Nat} {fd : Fd} {after : Os}
      (opening : DbOpened (queue.curWdb.curIndex + 1) (writeTagged queue os) none fd after) :
      WriteRoll queue os false
        { queue with curWdb := { queue.curWdb with flag, mapMem := none, fd }, wtagFd := some os.nextHandle }
        after
  | rolled (space : os.faults os.calls = false) {address : Nat} {fd : Fd} {after : Os}
      (opening : DbOpened (queue.curWdb.curIndex + 1) (writeTagged queue os) (some address) fd after)
      (same : SameBut (queue.curWdb.curIndex + 1) (writeTagged queue os) after) :
      WriteRoll queue os true (writeNext queue os.nextHandle address fd)
        (writeSettled queue (writeNext queue os.nextHandle address fd) after)

theorem detachWriteFile_eq (queue : MqQueue) (os : Os) :
    ∃ flag, detachWriteFile queue os.tick = ({ queue.curWdb with flag }, writeDetached queue os) := by
  by_cases behind : queue.curWdb.curIndex > queue.curRdb.curIndex
  · exact ⟨0, by simp [writeDetached, detachWriteFile, behind]⟩
  · exact ⟨queue.curWdb.flag, by simp [writeDetached, detachWriteFile, behind]⟩

theorem getNextWriteFile_spec (queue : MqQueue) (os : Os) :
    ∃ found next after, getNextWriteFile queue os = .ok (found, next, after) ∧
      WriteRoll queue os found next after := by
  obtain ⟨flag, detachEq⟩ := detachWriteFile_eq queue os
  cases space : os.faults os.calls with
  | true => exact ⟨_, _, _, by simp [getNextWriteFile, Os.attempt, space], .noSpace space⟩
  | false =>
    simp only [getNextWriteFile, Os.attempt, space, Bool.not_false, Bool.not_true, Bool.false_eq_true,
      ↓reduceIte, detachEq, openNextTag_eq]
    cases refused : (writeDetached queue os).faults (writeDetached queue os).calls with
    | true => exact ⟨_, _, _, rfl, .tagRefused space⟩
    | false =>
      obtain ⟨address, fd, after, openEq, opening, same, _⟩ :=
        openDbFile_spec (queue.curWdb.curIndex + 1) true (writeTagged queue os)
      rw [writeTagged] at openEq
      simp only [Bool.false_eq_true, ↓reduceIte, openEq, writeDetached_nextHandle]
      cases address with
      | none => exact ⟨_, _, _, rfl, .dataRefused space opening⟩
      | some address =>
        have map : after.maps address = some (queue.curWdb.curIndex + 1) := by
          cases opening with
          | opened _ maps => rw [maps, if_pos rfl]
        dsimp only
        rw [writeFileHead_mapped rfl map]
        exact ⟨_, _, _, rfl, .rolled space opening same⟩

end Libucmq
