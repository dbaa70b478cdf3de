import Mathlib.Data.List.DropRight
import Libucmq.Store.FileHead
import Libucmq.Store.Keeps

/-! The record count in the head of a data file. -/

namespace Libucmq

open Segments Memory List Function Machine

variable {node : Node} {qname : QueueName}

theorem createQueue_optCount {qname : List UInt8} {os after : Os}
    (createEq : createQueue qname os = (some node, after)) : node.queue.curWdb.optCount = 0 := by
  rw [createQueue] at createEq
  split at createEq
  · cases createEq
    rfl
  · cases createEq

theorem openQueue_optCount {qname : List UInt8} {cwd : FileName → Bool} {listing : List FileName} {os : Os}
    (loaded : openQueue qname cwd listing os = some node) : node.queue.curWdb.optCount = 0 :=
  offFiles_optCount.openQueue (fun _ _ => rfl) loaded

theorem openStore_optCount (listing : Listing) (disk : QueueName → Option Os)
    (found : mqQmFindQueue (mqQmOpenStore listing disk) qname = some node) : node.queue.curWdb.optCount = 0 := by
  have all : ∀ (names : List QueueName) (store : Store),
      (∀ entry ∈ store.qlist, entry.2.queue.curWdb.optCount = 0) →
      ∀ entry ∈ (names.foldl (openStoreStep listing disk) store).qlist,
        entry.2.queue.curWdb.optCount = 0 := by
    intro names
    induction names with
    | nil => exact fun _ start => start
    | cons name names ih =>
      intro store start
      refine ih _ ?_
      rw [openStoreStep]
      split
      · exact start
      · split
        · rename_i opened openEq
          simp only [mem_append, mem_singleton]
          rintro entry (old | rfl)
          · exact start entry old
          · exact openQueue_optCount openEq
        · exact start
  exact all listing.names _ (by simp) _ (Table.find_mem found)

inductive Tallies (before after : Node) (old new : QueueModel) : Prop
  | stays (count : after.queue.curWdb.optCount = before.queue.curWdb.optCount)
      (tail : new.log.tail = old.log.tail) (last : new.log.last = old.log.last)
  | stored (count : after.queue.curWdb.optCount = before.queue.curWdb.optCount + 1)
      (tail : new.log.tail.length = old.log.tail.length + 1) (last : new.log.last = old.log.last)
  | rolled (count : after.queue.curWdb.optCount = 1) (tail : new.log.tail.length = 1)
      (last : new.log.last = old.log.last + 1)

namespace Rep

variable {kept : Prop} {queue : MqQueue} {os : Os} {model : QueueModel}

theorem push_counts (rep : Rep kept queue os model) {record : Record} (isOpen : model.full = false)
    (fit : model.fits record = true) {ret : QueuePutRet} {pushed : MqQueue} {after : Os}
    (pushEq : mqQmPushItem queue os (newItem record.delay record.body) = .ok (ret, pushed, after)) :
    pushed.curWdb.optCount = queue.curWdb.optCount + 1 := by
  obtain ⟨address, map, mapped⟩ := rep.writeMap
  have room : queue.curWdb.pos.toNat + record.size ≤ maxDbFileSize := by
    rw [rep.writePos]
    exact of_decide_eq_true fit
  have stay : mqSmDbMakeRoom queue os record.item = .ok (true, queue, os) := by
    simp [mqSmDbMakeRoom, rep.writeFull_eq, fit]
  rw [mqQmPushItem, rep.queueFull_eq, isOpen, record.putData_eq, mqSmDbWriteMsg, stay] at pushEq
  simp only [Bool.false_eq_true, ↓reduceIte, record.storeMsg_eq map mapped room, syncTick, rep.sync] at pushEq
  cases pushEq
  rfl

theorem push_recounts (rep : Rep kept queue os model) {record : Record} (isOpen : model.full = false)
    (full : model.fits record = false) (room : model.log.last + 1 < 18446744073709551616)
    {ret : QueuePutRet} {pushed : MqQueue} {after : Os}
    (pushEq : mqQmPushItem queue os (newItem record.delay record.body) = .ok (ret, pushed, after)) :
    pushed.curWdb.optCount = 1 := by
  have headed := rep.write_head queue.curWdb.optCount
  obtain ⟨rolled, middle, nextEq, write⟩ := headed.nextWriteFile room
  obtain ⟨_, _, rolledEq, _⟩ := pushItem_rolled (rep.queueFull_eq.trans isOpen)
    ((rep.makeRoom_eq full).trans nextEq) write (write.goes.reliable headed.reliable) rep.sync
  cases rolledEq.symm.trans pushEq
  rw [write.queue_eq]
  rfl

end Rep

variable {model : QueueModel}

theorem queueStep_tallies {next : Node} {op : QueueOp} {answer : QueueAnswer}
    (rep : Rep True node.queue node.os model) (plain : op.Plain) (safe : RollSafe node op)
    (stepEq : queueStep node op = .ok (next, answer)) : Tallies node next model (model.step op).1 := by
  cases op with
  | push record =>
    rw [queueStep] at stepEq
    split at stepEq
    · cases stepEq
    rename_i ret pushed after pushEq
    cases stepEq
    simp only [QueueModel.step, QueueModel.push]
    cases limit : model.full with
    | true =>
      rw [mqQmPushItem, rep.queueFull_eq, limit] at pushEq
      cases pushEq
      exact .stays rfl rfl rfl
    | false =>
      cases fit : model.fits record with
      | true =>
        refine .stored (rep.push_counts limit fit pushEq) ?_ ?_
        · simp [QueueModel.note, QueueModel.store, Log.append_tail]
        · simp [QueueModel.note, QueueModel.store, Log.last]
      | false =>
        have room : model.log.last + 1 < 18446744073709551616 := by
          rw [← rep.writeIndex]
          exact safe (by rw [rep.writeFull_eq, fit]; rfl)
        refine .rolled (rep.push_recounts limit fit room pushEq) ?_ ?_
        · simp [QueueModel.note, QueueModel.store, QueueModel.roll, Log.append_tail]
        · simp [QueueModel.note, QueueModel.store, QueueModel.roll, Log.last, Log.roll]
          omega
  | pop stack =>
    obtain ⟨_, _, tail, last, _⟩ := model.pop_noted
    rw [queueStep] at stepEq
    split at stepEq
    · cases stepEq
    rename_i popEq
    cases stepEq
    exact .stays (by rw [offRead_curWdb.popItem popEq]) tail last
  | setMaxqueue maxque => exact absurd plain id

def StoreModel.held (model : StoreModel) (qname : QueueName) (index : Nat) : Nat :=
  match model.queues qname with
  | some queue => if index = queue.log.last then queue.log.tail.length else 0
  | none => 0

structure Tallied (opened model : StoreModel) (store : Store) : Prop where
  count : ∀ qname node queue, mqQmFindQueue store qname = some node → model.queues qname = some queue →
    node.queue.curWdb.optCount.toNat + opened.held qname queue.log.last = queue.log.tail.length
  later : ∀ qname queue, opened.queues qname = some queue →
    ∃ now, model.queues qname = some now ∧ queue.log.last ≤ now.log.last

theorem addQueue_optCount {store after : Store}
    (addEq : mqQmAddQueue store qname = (some node, after)) : node.queue.curWdb.optCount = 0 := by
  rw [mqQmAddQueue] at addEq
  split at addEq
  · cases addEq
  · split at addEq
    · rename_i createEq
      cases addEq
      exact createQueue_optCount createEq
    · cases addEq

namespace Tallied

variable {opened model : StoreModel} {store next : Store} {answer : StoreAnswer}

theorem of_opened (zero : ∀ qname node, mqQmFindQueue store qname = some node →
    node.queue.curWdb.optCount = 0) : Tallied model model store where
  count := by
    intro qname node queue found present
    simp [zero qname node found, StoreModel.held, present]
  later := fun _ queue present => ⟨queue, present, Nat.le_refl _⟩

section

variable (tallied : Tallied opened model store)

include tallied

theorem held_absent (absent : model.queues qname = none) (index : Nat) : opened.held qname index = 0 := by
  rw [StoreModel.held]
  split
  · rename_i present
    obtain ⟨now, there, _⟩ := tallied.later qname _ present
    rw [absent] at there
    cases there
  · rfl

theorem held_after {queue : QueueModel}
    (present : model.queues qname = some queue) {index : Nat} (beyond : queue.log.last < index) :
    opened.held qname index = 0 := by
  rw [StoreModel.held]
  split
  · rename_i before
    obtain ⟨now, there, order⟩ := tallied.later qname _ before
    obtain rfl := Option.some.inj (there.symm.trans present)
    exact if_neg (by omega)
  · rfl

theorem add (showing : Shows store model) (stepEq : storeStep store (.add qname) = .ok (next, answer)) :
    Tallied opened (model.step (.add qname)).1 next := by
  simp only [storeStep] at stepEq
  simp only [StoreModel.step]
  rcases showing.find qname with ⟨missing, absent⟩ | ⟨_, _, found, present, _⟩
  · rw [missing] at stepEq
    rw [absent]
    have number := showing.number
    rcases addQueue_spec store qname with ⟨full, addEq⟩ | ⟨node, room, rep, addEq⟩
    · rw [addEq] at stepEq
      cases stepEq
      rw [if_pos (by omega)]
      exact tallied
    · have zero := addQueue_optCount addEq
      rw [addEq] at stepEq
      cases stepEq
      rw [if_neg (by omega)]
      refine ⟨fun query other queue found present => ?_, fun query queue before => ?_⟩
      · rw [find_added missing] at found
        by_cases same : query = qname
        · subst same
          rw [if_pos rfl] at found
          simp only [StoreModel.put, update_self, Option.some.injEq] at found present
          subst found present
          rw [zero, tallied.held_absent absent]
          rfl
        · rw [if_neg same] at found
          exact tallied.count query other queue found (by simpa [StoreModel.put, same] using present)
      · obtain ⟨now, there, order⟩ := tallied.later query queue before
        have same : query ≠ qname := by
          rintro rfl
          rw [absent] at there
          cases there
        exact ⟨now, by simpa [StoreModel.put, same] using there, order⟩
  · rw [found] at stepEq
    cases stepEq
    rw [present]
    exact tallied

theorem replaced {after : Node} {queue moved : QueueModel} (found : mqQmFindQueue store qname = some node)
    (present : model.queues qname = some queue) (rep : Rep True node.queue node.os queue)
    (tallies : Tallies node after queue moved) : Tallied opened (model.put qname moved) (store.put qname after) := by
  have before := tallied.count qname node queue found present
  -- the count does not wrap: a record has more than twelve bytes, a file less than 2 ^ 27
  obtain ⟨_, _, holds⟩ := rep.tail_file
  have room := holds.room
  have length := used_length queue.log.tail
  rw [maxDbFileSize_eq] at room
  have counted : after.queue.curWdb.optCount.toNat + opened.held qname moved.log.last =
      moved.log.tail.length := by
    cases tallies with
    | stays count tail last => rw [count, tail, last, before]
    | stored count tail last =>
      rw [count, tail, last, UInt32.toNat_add]
      simp only [UInt32.reduceToNat]
      omega
    | rolled count tail last =>
      rw [count, tail, tallied.held_after present (by omega)]
      rfl
  have order : queue.log.last ≤ moved.log.last := by
    cases tallies <;> omega
  refine ⟨fun query other now foundNow presentNow => ?_, fun query now before => ?_⟩
  · rw [find_put, found] at foundNow
    by_cases same : query = qname
    · subst same
      simp only [StoreModel.put, update_self, Option.some.injEq, if_true, Option.map_some]
        at foundNow presentNow
      subst foundNow presentNow
      exact counted
    · rw [if_neg same] at foundNow
      exact tallied.count query other now foundNow (by simpa [StoreModel.put, same] using presentNow)
  · obtain ⟨current, there, least⟩ := tallied.later query now before
    by_cases same : query = qname
    · subst same
      obtain rfl := Option.some.inj (there.symm.trans present)
      exact ⟨moved, by simp [StoreModel.put], by omega⟩
    · exact ⟨current, by simpa [StoreModel.put, same] using there, least⟩

theorem call (showing : Shows store model) {op : QueueOp}
    (safe : HeadSafe store (.call qname op)) (stepEq : storeStep store (.call qname op) = .ok (next, answer)) :
    Tallied opened (model.step (.call qname op)).1 next := by
  simp only [storeStep] at stepEq
  simp only [StoreModel.step]
  rcases showing.find qname with ⟨missing, absent⟩ | ⟨node, queue, found, present, rep⟩
  · rw [missing] at stepEq
    cases stepEq
    rw [absent]
    exact tallied
  · obtain ⟨after, queueEq, _⟩ := queueStep_rep op rep (safe.2 node found)
    rw [found] at stepEq
    simp only [queueEq] at stepEq
    cases stepEq
    rw [present]
    exact tallied.replaced found present rep (queueStep_tallies rep safe.1 (safe.2 node found) queueEq)

end

end Tallied

theorem reopen_optCount {store next : Store} {listing : Listing} {answer : StoreAnswer}
    (stepEq : storeStep store (.reopen listing) = .ok (next, answer))
    (found : mqQmFindQueue next qname = some node) : node.queue.curWdb.optCount = 0 := by
  cases stepEq
  exact openStore_optCount listing _ found

def StoreOp.stays : StoreOp → Bool
  | .reopen _ => false
  | _ => true

def opening (ops : List StoreOp) : List StoreOp := ops.rdropWhile StoreOp.stays

theorem opening_stays {op : StoreOp} (stays : op.stays = true) (ops : List StoreOp) :
    opening (ops ++ [op]) = opening ops :=
  rdropWhile_concat_pos _ _ _ stays

theorem opening_reopen (ops : List StoreOp) (listing : Listing) :
    opening (ops ++ [.reopen listing]) = ops ++ [.reopen listing] :=
  rdropWhile_concat_neg _ _ _ (by simp [StoreOp.stays])

theorem storeRun_tallied {ops : List StoreOp} (safe : Guarded storeStep HeadSafe {} ops) :
    ∃ opened before atOpening store answers model,
      run storeStep {} (opening ops) = .ok (opened, before) ∧ Shows opened atOpening ∧
      run storeStep {} ops = .ok (store, answers) ∧ Shows store model ∧
      model.All QueueModel.Short ∧ Tallied atOpening model store := by
  -- from the last call backwards: only a restart changes where the counting starts
  induction ops using List.reverseRecOn with
  | nil =>
    exact ⟨{}, [], {}, {}, [], {}, rfl, shows_empty, rfl, shows_empty, (fun _ _ absent => by cases absent),
      Tallied.of_opened (fun _ _ absent => by cases absent)⟩
  | append_singleton ops op ih =>
    obtain ⟨earlier, guard⟩ := safe.concat
    obtain ⟨opened, before, atOpening, store, answers, model, openedEq, openedShows, runEq, showing, short,
      tallied⟩ := ih earlier
    have allowed := guard store answers runEq
    obtain ⟨next, stepEq, nextShows⟩ := showing.step op (showing.head_safe short allowed)
    have nextShort : (model.step op).1.All QueueModel.Short := by
      refine short.step (Nat.le_refl _) ?_ fun _ qname queue _ present => short qname queue present
      rintro qname call queue rfl present
      exact (short qname queue present).step allowed.1
    have nextEq := run_concat runEq stepEq
    cases op with
    | add qname =>
      rw [opening_stays rfl]
      exact ⟨opened, before, atOpening, next, _, _, openedEq, openedShows, nextEq, nextShows, nextShort,
        tallied.add showing stepEq⟩
    | call qname call =>
      rw [opening_stays rfl]
      exact ⟨opened, before, atOpening, next, _, _, openedEq, openedShows, nextEq, nextShows, nextShort,
        tallied.call showing allowed stepEq⟩
    | reopen listing =>
      rw [opening_reopen]
      exact ⟨next, _, _, next, _, _, nextEq, nextShows, nextEq, nextShows, nextShort,
        Tallied.of_opened fun _ _ found => reopen_optCount stepEq found⟩

structure Finishes (node : Node) (record : Record) : Prop where
  accepted : queueFull node.queue = false
  full : writeFull node.queue record.item = true
  room : node.queue.curWdb.curIndex.toNat + 1 < 18446744073709551616

theorem Rep.push_finishes {kept : Prop} {queue : MqQueue} {os : Os}
    (rep : Rep kept queue os model) {record : Record} (isOpen : model.full = false)
    (full : model.fits record = false) (room : model.log.last + 1 < 18446744073709551616) : ∃ pushed after file,
      mqQmPushItem queue os (newItem record.delay record.body) = .ok (.putOk, pushed, after) ∧
      after.dir.db queue.curWdb.curIndex = some file ∧ FileHolds file model.log.tail ∧
      HoldsAt file.bytes 0 (dbFileHead queue.curWdb.optCount) := by
  have headed := rep.write_head queue.curWdb.optCount
  obtain ⟨rolled, middle, nextEq, write⟩ := headed.nextWriteFile room
  obtain ⟨noted, place, pushEq, goes, _⟩ := pushItem_rolled (rep.queueFull_eq.trans isOpen)
    ((rep.makeRoom_eq full).trans nextEq) write (write.goes.reliable headed.reliable) rep.sync
  have apart := rep.write_ne_next room
  have missing := headed.absent (queue.curWdb.curIndex + 1) (by rw [rep.write_next room]; omega)
  obtain ⟨file, found, holds⟩ := headed.tail_file
  obtain ⟨old, oldFound, _⟩ := rep.tail_file
  refine ⟨_, noted, file, pushEq, ?_, holds, ?_⟩
  · rw [goes.dir]
    simp only [QueueDir.applyAll_cons, QueueDir.applyAll_nil, QueueDir.apply_writeTag_db,
      QueueDir.apply_writeDb_db, if_neg apart]
    rw [Rep.rolled_db missing rfl write, if_neg apart, found]
  · rw [Os.emit_dir, QueueDir.apply_writeDb_db, if_pos rfl, oldFound] at found
    cases found
    exact holdsAt_store _ _ _

theorem FileHolds.eq_nil {file : DbFile} {records : List Record} (holds : FileHolds file records)
    (nothing : FileHolds file []) : records = [] := by
  cases records with
  | nil => rfl
  | cons record rest =>
    have stored := @FileHolds.record_held file [] rest record holds
    have room := holds.room
    have size := record.size_pos
    have inside := used_record_le [] rest record
    rw [nil_append] at inside
    rw [used_nil] at stored inside
    exact absurd (stored_magic stored).1 (nothing.restClear 128 (Nat.le_refl _) (by omega))

def HeldNothing (store : Store) (qname : QueueName) (index : UInt64) : Prop :=
  ∀ node file, mqQmFindQueue store qname = some node → node.os.dir.db index = some file →
    FileHolds file []

theorem Shows.heldNothing_iff {store : Store} {model : StoreModel} (showing : Shows store model) {index : UInt64}
    (late : ∀ queue, model.queues qname = some queue → queue.log.last ≤ index.toNat) :
    HeldNothing store qname index ↔ model.held qname index.toNat = 0 := by
  rcases showing.find qname with ⟨missing, absent⟩ | ⟨node, queue, found, present, rep⟩
  · rw [StoreModel.held, absent]
    refine ⟨fun _ => rfl, fun _ node file found => ?_⟩
    rw [missing] at found
    cases found
  · have order := late queue present
    rw [StoreModel.held, present]
    by_cases same : index.toNat = queue.log.last
    · have place : node.queue.curWdb.curIndex = index :=
        UInt64.toNat_inj.mp (rep.writeIndex.trans same.symm)
      obtain ⟨file, fileFound, holds⟩ := rep.tail_file
      rw [place] at fileFound
      simp only [same, if_true, length_eq_zero_iff]
      constructor
      · exact fun nothing => holds.eq_nil (nothing node file found fileFound)
      · intro empty other otherFile otherFound otherFile_found
        obtain rfl := Option.some.inj (found.symm.trans otherFound)
        obtain rfl := Option.some.inj (fileFound.symm.trans otherFile_found)
        exact empty ▸ holds
    · refine ⟨fun _ => if_neg same, fun _ other file otherFound fileFound => ?_⟩
      obtain rfl := Option.some.inj (found.symm.trans otherFound)
      rw [rep.absent index (by omega)] at fileFound
      cases fileFound

/-- The count is right exactly when the file was empty at the last opening. -/
theorem file_head_count_iff (ops : List StoreOp) (safe : Guarded storeStep HeadSafe {} ops) :
    ∃ opened before store answers, run storeStep {} (opening ops) = .ok (opened, before) ∧
      run storeStep {} ops = .ok (store, answers) ∧
      ∀ qname node record, mqQmFindQueue store qname = some node → Finishes node record →
        ∃ next file records count, queueStep node (.push record) = .ok (next, .put .putOk) ∧
          next.os.dir.db node.queue.curWdb.curIndex = some file ∧ FileHolds file records ∧
          HoldsAt file.bytes 0 (dbFileHead count) ∧
          (count.toNat = records.length ↔ HeldNothing opened qname node.queue.curWdb.curIndex) := by
  obtain ⟨opened, before, atOpening, store, answers, model, openedEq, openedShows, runEq, showing, _,
    tallied⟩ := storeRun_tallied safe
  refine ⟨opened, before, store, answers, openedEq, runEq, fun qname node record found finishes => ?_⟩
  obtain ⟨queue, present, rep⟩ := showing.of_found found
  have isOpen : queue.full = false := rep.queueFull_eq ▸ finishes.accepted
  have full : queue.fits record = false := by
    have wide := finishes.full
    rw [rep.writeFull_eq] at wide
    simpa using wide
  have room := finishes.room
  rw [rep.writeIndex] at room
  obtain ⟨pushed, after, file, pushEq, fileFound, holds, headed⟩ := rep.push_finishes isOpen full room
  refine ⟨{ queue := pushed, os := after }, file, queue.log.tail, node.queue.curWdb.optCount,
    by rw [queueStep, pushEq], fileFound, holds, headed, ?_⟩
  have counted := tallied.count qname node queue found present
  rw [openedShows.heldNothing_iff, rep.writeIndex]
  · omega
  · intro atStart there
    obtain ⟨now, nowPresent, order⟩ := tallied.later qname atStart there
    obtain rfl := Option.some.inj (nowPresent.symm.trans present)
    rw [rep.writeIndex]
    exact order

theorem Rep.hello_finishes (rep : Rep True node.queue node.os model)
    (isOpen : model.full = false) (tail : model.log.tail = [helloRecord]) (last : model.log.last = 1) :
    Finishes node wideRecord := by
  have size : wideRecord.size = 67108736 := zeroRecord_size _ _ _
  have positive : helloRecord.size ≠ 0 := by decide
  refine ⟨rep.queueFull_eq.trans isOpen, ?_, by rw [rep.writeIndex, last]; decide⟩
  rw [rep.writeFull_eq, QueueModel.fits, tail, size]
  simp [used, dbFileHeadLen, positive]

theorem file_head_count_hello : ∃ store answers node next file records count,
    run storeStep {} [.add jobsName, .call jobsName (.push helloRecord)] = .ok (store, answers) ∧
      mqQmFindQueue store jobsName = some node ∧ queueStep node (.push wideRecord) = .ok (next, .put .putOk) ∧
      next.os.dir.db node.queue.curWdb.curIndex = some file ∧ FileHolds file records ∧
      HoldsAt file.bytes 0 (dbFileHead count) ∧ count.toNat = records.length := by
  have safe := (@Machine.Guarded.concat _ _ _ _ storeStep HeadSafe {}
    [.add jobsName, .call jobsName (.push helloRecord)] _ helloOps_run.1).1
  obtain ⟨opened, before, store, answers, openedEq, runEq, finished⟩ := file_head_count_iff _ safe
  obtain ⟨node, newEq, rep⟩ := @run_new jobsName [.push helloRecord] (by decide)
  cases newEq.symm.trans runEq
  cases openedEq
  have found : mqQmFindQueue (single jobsName node) jobsName = some node := rfl
  obtain ⟨next, file, records, count, pushEq, fileFound, holds, headed, right⟩ :=
    finished jobsName node wideRecord found (rep.hello_finishes rfl rfl rfl)
  exact ⟨_, _, node, next, file, records, count, runEq, found, pushEq, fileFound, holds, headed,
    right.mpr (fun _ _ absent => by cases absent)⟩

theorem head_count_restarted : ∃ store answers node next file,
    run storeStep {} helloOps = .ok (store, answers) ∧ mqQmFindQueue store jobsName = some node ∧
      queueStep node (.push wideRecord) = .ok (next, .put .putOk) ∧
      next.os.dir.db node.queue.curWdb.curIndex = some file ∧ FileHolds file [helloRecord] ∧
      HoldsAt file.bytes 0 (dbFileHead 0) := by
  obtain ⟨safe, store, answers, node, runEq, found⟩ := helloOps_run
  obtain ⟨_, sameEq, showing, _⟩ := storeRun_short safe
  cases sameEq.symm.trans runEq
  have zero : node.queue.curWdb.optCount = 0 := by
    obtain ⟨_, _, _, _, restEq, _⟩ := run_cons_ok runEq
    obtain ⟨_, _, _, _, lastEq, _⟩ := run_cons_ok restEq
    obtain ⟨_, _, _, reopenEq, endEq, _⟩ := run_cons_ok lastEq
    cases endEq
    exact reopen_optCount reopenEq found
  obtain ⟨queue, present, rep⟩ := showing.of_found found
  have known : (storeModelRun {} helloOps).1.queues jobsName =
      some (QueueModel.initial.push helloRecord).1.reopened := rfl
  obtain rfl := Option.some.inj (known.symm.trans present)
  have finishes := rep.hello_finishes rfl rfl rfl
  have full := finishes.full
  rw [rep.writeFull_eq, Bool.not_eq_true'] at full
  obtain ⟨pushed, after, file, pushEq, fileFound, holds, headed⟩ := rep.push_finishes rfl full (by decide)
  rw [zero] at headed
  exact ⟨store, _, node, { queue := pushed, os := after }, file, runEq, found, by rw [queueStep, pushEq],
    fileFound, holds, headed⟩

end Libucmq
