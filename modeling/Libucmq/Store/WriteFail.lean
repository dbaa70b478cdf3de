import Libucmq.Store.Fifo

/-! A rollover of the write side that fails. -/

namespace Libucmq

def Os.restored (os : Os) : Os := { os with faults := fun _ => false }

theorem Os.Reliable.restored {os : Os} (reliable : os.Reliable) : os.restored = os := by
  have absent : os.faults = fun _ => false := funext reliable
  rw [Os.restored, ← absent]

structure WriteKept (queue next : MqQueue) (after : Os) : Prop where
  curWdb : next.curWdb = queue.curWdb
  wtagFd : next.wtagFd = queue.wtagFd
  tag : ∃ fd, next.wtagFd = some fd ∧ after.opened fd = some (.tag .wtag next.curWdb.curIndex)
  db : ∃ fd, next.curWdb.fd = some fd ∧ after.opened fd = some (.db next.curWdb.curIndex)
  map : ∃ address, next.curWdb.mapMem = some address ∧ after.maps address = some next.curWdb.curIndex

/-- Once calls succeed again pushes are accepted and nothing is lost. -/
def PushesOn (kept : Prop) (model : QueueModel) (next : MqQueue) (after : Os) : Prop :=
  ∀ record, model.full = false → (model.fits record = false → model.log.last + 1 < 18446744073709551616) →
    ∃ pushed final later,
      mqQmPushItem next after.restored (newItem record.delay record.body) = .ok (.putOk, pushed, final) ∧
        Rep kept pushed final later ∧ later.unread = model.unread ++ [record]

variable {kept : Prop} {queue : MqQueue} {os : Os} {model : QueueModel}

theorem Rep.tick (rep : Rep kept queue os model) : Rep kept queue os.tick model :=
  { rep with tags := fun keep => { rep.tags keep with } }

theorem Rep.pushesOn (rep : Rep kept queue os.restored model) : PushesOn kept model queue os := by
  intro record isOpen room
  obtain ⟨pushed, final, pushEq, after⟩ := rep.push record (fun _ => room)
  rcases model.push_unread record with ⟨full, _⟩ | ⟨ok, unread, _⟩
  · rw [QueueModel.push_open isOpen] at full
    cases full
  · exact ⟨pushed, final, _, by rw [pushEq, ok], after, unread⟩

theorem Rep.writeKept (rep : Rep kept queue os.restored model) : WriteKept queue queue os := by
  obtain ⟨tag, offset, append, tagSame, tagOpen⟩ := rep.wtagFd
  obtain ⟨db, dbSame, dbOpen⟩ := rep.writeFd
  obtain ⟨address, mapSame, map⟩ := rep.writeMap
  refine ⟨rfl, rfl, ⟨tag, tagSame, ?_⟩, ⟨db, dbSame, ?_⟩, ⟨address, mapSame, map⟩⟩
  · exact congrArg (Option.map OpenFile.name) tagOpen
  · exact congrArg (Option.map OpenFile.name) dbOpen

theorem WriteRoll.kept_iff {next : MqQueue} {after : Os} (rep : Rep kept queue os.restored model)
    (roll : WriteRoll queue os false next after) :
    WriteKept queue next after ∧ PushesOn kept model next after ↔ os.faults os.calls = true := by
  obtain ⟨tag, offset, append, tagSame, tagOpen⟩ := rep.wtagFd
  have early : tag < os.nextHandle := rep.fresh.fd_lt tagOpen
  cases roll with
  | noSpace refused =>
    have ticked : Rep kept queue os.tick.restored model := rep.tick
    exact ⟨fun _ => refused, fun _ => ⟨ticked.writeKept, ticked.pushesOn⟩⟩
  | tagRefused space =>
    refine ⟨fun unchanged => ?_, fun refused => by rw [space] at refused; cases refused⟩
    have same := unchanged.1.wtagFd
    rw [tagSame] at same
    cases same
  | dataRefused space =>
    refine ⟨fun unchanged => ?_, fun refused => by rw [space] at refused; cases refused⟩
    have same := unchanged.1.wtagFd
    rw [tagSame] at same
    have := Option.some.inj same
    omega

theorem storeMsg_true {item : MsgItem} {ok : Bool} {next : MqQueue} {after : Os}
    (stored : mqSmDbStoreMsg queue os item = .ok (ok, next, after)) : ok = true := by
  rw [mqSmDbStoreMsg] at stored
  split at stored
  · cases stored
  · split at stored
    · cases stored
    · cases stored
      rfl

theorem push_of_roll (rep : Rep kept queue os.restored model) {record : Record} (isOpen : model.full = false)
    (full : model.fits record = false) {found : Bool} {next : MqQueue} {after : Os} (rolls : getNextWriteFile queue
        (os.emit (.writeDb queue.curWdb.curIndex 0 (dbFileHead queue.curWdb.optCount))) = .ok (found, next, after)) :
    found = false ∧ mqQmPushItem queue os (newItem record.delay record.body) = .ok (.putError, next, after) ∨
      found = true ∧ ∀ final later,
        mqQmPushItem queue os (newItem record.delay record.body) ≠ .ok (.putError, final, later) := by
  obtain ⟨address, map, mapped⟩ := rep.writeMap
  have shown : os.maps address = some queue.curWdb.curIndex := mapped
  have limit : queueFull queue = false := rep.queueFull_eq.trans isOpen
  have roomEq : mqSmDbMakeRoom queue os record.item = .ok (found, next, after) := by
    rw [mqSmDbMakeRoom, rep.writeFull_eq, full, map]
    simp only [Bool.not_false, ↓reduceIte]
    rw [writeFileHead_mapped map shown]
    exact rolls
  rw [mqQmPushItem, limit, record.putData_eq, mqSmDbWriteMsg, roomEq]
  cases found with
  | false => exact Or.inl ⟨rfl, rfl⟩
  | true =>
    refine Or.inr ⟨rfl, ?_⟩
    intro final later pushEq
    cases storeEq : mqSmDbStoreMsg next after record.item with
    | error abort => simp [storeEq] at pushEq
    | ok result =>
      obtain ⟨ok, stored, written⟩ := result
      obtain rfl := storeMsg_true storeEq
      simp [storeEq] at pushEq

/-- The promise holds exactly when the check of the free space failed. -/
theorem writeRollover_failure (rep : Rep kept queue os.restored model) :
    (∃ found next after, getNextWriteFile queue os = .ok (found, next, after) ∧ (found = false →
          (WriteKept queue next after ∧ PushesOn kept model next after ↔ os.faults os.calls = true))) ∧
      ∀ record, model.full = false → model.fits record = false →
        ∀ next after, mqQmPushItem queue os (newItem record.delay record.body) = .ok (.putError, next, after) →
          (WriteKept queue next after ∧ PushesOn kept model next after ↔ os.faults os.calls = true) := by
  refine ⟨?_, ?_⟩
  · obtain ⟨found, next, after, rollEq, roll⟩ := getNextWriteFile_spec queue os
    refine ⟨found, next, after, rollEq, ?_⟩
    rintro rfl
    exact roll.kept_iff rep
  · intro record isOpen full next after pushEq
    have headed : Rep kept queue
        (os.emit (.writeDb queue.curWdb.curIndex 0 (dbFileHead queue.curWdb.optCount))).restored model :=
      rep.write_head queue.curWdb.optCount
    obtain ⟨found, rolled, final, rollEq, roll⟩ := getNextWriteFile_spec queue
      (os.emit (.writeDb queue.curWdb.curIndex 0 (dbFileHead queue.curWdb.optCount)))
    rcases push_of_roll rep isOpen full rollEq with ⟨rfl, failed⟩ | ⟨_, other⟩
    · rw [failed] at pushEq
      cases pushEq
      exact @WriteRoll.kept_iff kept queue (os.emit _) model next after headed roll
    · exact absurd pushEq (other next after)

theorem writeRollover_failure_space : ∃ node next after, createQueue [113] {} = (some node, node.os) ∧
      getNextWriteFile node.queue { node.os with faults := fun call => call == node.os.calls } =
        .ok (false, next, after) ∧
      WriteKept node.queue next after ∧ PushesOn True QueueModel.initial next after := by
  obtain ⟨node, createEq, rep⟩ := @createQueue_rep [113] {} (fun _ => rfl) (fun _ _ => ⟨rfl, rfl⟩)
  have restored : { node.os with faults := fun call => call == node.os.calls }.restored = node.os :=
    rep.reliable.restored
  obtain ⟨⟨found, next, after, rollEq, keeps⟩, _⟩ := @writeRollover_failure True node.queue
    { node.os with faults := fun call => call == node.os.calls } QueueModel.initial (by rw [restored]; exact rep)
  have refused : getNextWriteFile node.queue { node.os with faults := fun call => call == node.os.calls } =
      .ok (false, node.queue, { node.os with faults := fun call => call == node.os.calls }.tick) := by
    simp [getNextWriteFile, Os.attempt]
  rw [refused] at rollEq
  cases rollEq
  exact ⟨node, _, _, createEq, refused, (keeps rfl).mpr (beq_self_eq_true _)⟩

theorem writeRollover_breaks : ∃ node next after, createQueue [113] {} = (some node, node.os) ∧
      getNextWriteFile node.queue { node.os with faults := fun call => call == node.os.calls + 2 } =
        .ok (false, next, after) ∧
      next.curWdb.mapMem = none ∧ next.wtagFd ≠ node.queue.wtagFd ∧
      mqQmPushItem next after.restored (newItem 0 [104, 105]) = .error .segv := by
  exact ⟨_, _, _, rfl, rfl, rfl, by decide, rfl⟩

end Libucmq
