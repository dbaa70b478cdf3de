import Libucmq.Store.Noted

/-! Records and the head of a data file. -/

namespace Libucmq

open Segments Memory List Machine

def Placed (dir : QueueDir) (record : Record) : Prop :=
  ∃ index file offset, dir.db index = some file ∧ HoldsAt file.bytes offset record.bytes ∧
    dbFileHeadLen ≤ offset ∧ offset + record.size ≤ maxDbFileSize

theorem FileHolds.placed {dir : QueueDir} {index : UInt64} {file : DbFile} {records : List Record}
    {record : Record} (holds : FileHolds file records) (found : dir.db index = some file)
    (member : record ∈ records) : Placed dir record := by
  obtain ⟨front, back, rfl⟩ := append_of_mem member
  have room := holds.room
  have inside := used_record_le front back record
  exact ⟨index, file, used front, found, holds.record_held, used_ge front, by omega⟩

variable {model : QueueModel}

theorem Rep.placed {kept : Prop} {queue : MqQueue} {os : Os}
    (rep : Rep kept queue os model) {record : Record} (member : record ∈ model.unread) : Placed os.dir record := by
  rw [QueueModel.unread, Log.pending, mem_append] at member
  rcases member with here | later
  · obtain ⟨file, found, holds⟩ := rep.head_file
    exact holds.placed found (mem_append_right _ here)
  · obtain ⟨segment, inside, member⟩ := mem_flatten.mp later
    obtain ⟨offset, bound, rfl⟩ := getElem_of_mem inside
    have last := rep.writeIndex
    rw [Log.last] at last
    have limit := queue.curWdb.curIndex.toNat_lt
    have place : (UInt64.ofNat (model.log.first + (offset + 1))).toNat = model.log.first + (offset + 1) := by
      rw [UInt64.toNat_ofNat']
      omega
    obtain ⟨file, found, holds⟩ := rep.files (UInt64.ofNat (model.log.first + (offset + 1)))
      (by omega) (by rw [place, Log.last]; omega)
    rw [place, Nat.add_sub_cancel_left] at holds
    refine holds.placed found ?_
    simpa [Log.segment, List.getD, List.getElem?_eq_getElem bound] using member

def QueueModel.Short (model : QueueModel) : Prop := model.lines ≤ model.log.tail.length + 1

theorem QueueModel.Short.step (short : model.Short) {op : QueueOp} (plain : op.Plain) : (model.step op).1.Short := by
  rw [Short] at *
  cases op with
  | push record =>
    simp only [QueueModel.step, QueueModel.push]
    split
    · exact short
    · split
      · simpa [note, store, Log.append_tail] using short
      · simp [note, store, roll, Log.append_tail]
  | pop stack =>
    obtain ⟨_, lines, tail, _⟩ := model.pop_noted
    simpa only [QueueModel.step, lines, tail] using short
  | setMaxqueue maxque => exact absurd plain id

structure Located (node : Node) : Prop where
  pos : ∃ front putNum maxque, node.os.dir.tag .wtag node.queue.curWdb.curIndex =
    some (front ++ wtagItem putNum node.queue.curWdb.pos maxque)
  fits : node.queue.curWdb.curIndex.toNat < 10 ^ 12

theorem Rep.reopenable {node : Node} (rep : Rep True node.queue node.os model)
    (short : model.Short) (located : Located node) : Reopenable node := by
  obtain ⟨content, length, contentEq, _⟩ := (rep.tags trivial).wtag
  obtain ⟨front, putNum, maxque, lineEq⟩ := located.pos
  obtain ⟨_, _, holds⟩ := rep.tail_file
  have room := holds.room
  have lower := used_length model.log.tail
  rw [maxDbFileSize_eq] at room
  refine ⟨located.pos, fun other otherEq => ?_, located.fits⟩
  obtain rfl := Option.some.inj (contentEq.symm.trans otherEq)
  have line := congrArg List.length (Option.some.inj (contentEq.symm.trans lineEq))
  rw [length_append, wtagItem_length] at line
  rw [QueueModel.Short] at short
  rw [toCInt_of_lt (by omega)]
  omega

def HeadSafe (store : Store) : StoreOp → Prop
  | .add _ => True
  | .call qname op => op.Plain ∧ ∀ node, mqQmFindQueue store qname = some node → RollSafe node op
  | .reopen listing => ListsStore store listing ∧
      ∀ qname node, mqQmFindQueue store qname = some node → Located node

theorem Shows.head_safe {store : Store} {model : StoreModel} (showing : Shows store model)
    (short : model.All QueueModel.Short) {op : StoreOp} (safe : HeadSafe store op) : SessionSafe store op := by
  cases op with
  | add qname => trivial
  | call qname call => exact safe.2
  | reopen listing =>
    refine ⟨safe.1, fun qname node found => ?_⟩
    obtain ⟨queue, present, rep⟩ := showing.of_found found
    exact rep.reopenable (short qname queue present) (safe.2 qname node found)

theorem storeRun_short {ops : List StoreOp} (safe : Guarded storeStep HeadSafe {} ops) :
    ∃ store, run storeStep {} ops = .ok (store, (storeModelRun {} ops).2) ∧
      Shows store (storeModelRun {} ops).1 ∧ (storeModelRun {} ops).1.All QueueModel.Short :=
  storeRun_all (fun _ _ _ showing short allowed => showing.head_safe short allowed) (Nat.le_refl _)
    (fun _ _ _ _ _ allowed _ _ short => short.step allowed.1) (fun _ _ _ _ _ _ _ _ short => short) safe

/-- Data files are a head and records; what waits stands behind the head. -/
theorem records_behind_head (ops : List StoreOp) (safe : Guarded storeStep HeadSafe {} ops) :
    ∃ store answers, run storeStep {} ops = .ok (store, answers) ∧
      ∀ qname node, mqQmFindQueue store qname = some node →
        dbFileHeadLen ≤ node.queue.curWdb.pos.toNat ∧ node.queue.curWdb.pos.toNat ≤ maxDbFileSize ∧
        (∀ index file, node.os.dir.db index = some file → ∃ records, FileHolds file records) ∧
        ∃ waiting : List Record,
          acceptedOf qname ops answers = returnedOf qname ops answers ++ waiting.map Record.body ∧
          ∀ record ∈ waiting, Placed node.os.dir record ∧ ∀ optCount, Placed (node.os.dir.apply
              (.writeDb node.queue.curWdb.curIndex 0 (dbFileHead optCount))) record := by
  obtain ⟨store, runEq, showing, _⟩ := storeRun_short safe
  refine ⟨store, _, runEq, fun qname node found => ?_⟩
  obtain ⟨queue, present, rep⟩ := showing.of_found found
  obtain ⟨_, _, tailHolds⟩ := rep.tail_file
  have balance := storeModelRun_balance {} qname ops
  rw [StoreModel.bodies, StoreModel.bodies, present] at balance
  refine ⟨?_, ?_, fun index file fileEq => ?_, queue.unread, balance, fun record member => ?_⟩
  · rw [rep.writePos]
    exact used_ge _
  · rw [rep.writePos]
    exact tailHolds.room
  · by_cases early : index.toNat < queue.log.first
    · rw [(rep.tags trivial).noneBefore index early] at fileEq
      cases fileEq
    · by_cases late : queue.log.last < index.toNat
      · rw [rep.absent index late] at fileEq
        cases fileEq
      · obtain ⟨other, otherEq, holds⟩ := rep.files index (by omega) (by omega)
        obtain rfl := Option.some.inj (fileEq.symm.trans otherEq)
        exact ⟨_, holds⟩
  · exact ⟨rep.placed member, fun optCount => (rep.write_head optCount).placed member⟩

theorem Rep.first_index {queue : MqQueue} {os : Os} (rep : Rep True queue os model)
    (first : model.log.first = 1) : queue.curRdb.curIndex = 1 := by
  apply UInt64.toNat_inj.mp
  rw [rep.readIndex, first]
  rfl

def helloOps : List StoreOp :=
  [.add jobsName, .call jobsName (.push helloRecord), .reopen (singleListing jobsName 1)]

theorem helloOps_run : Guarded storeStep HeadSafe {} helloOps ∧
    ∃ store answers node, run storeStep {} helloOps = .ok (store, answers) ∧
      mqQmFindQueue store jobsName = some node := by
  obtain ⟨made, addEq, rep⟩ := add_single jobsName
  have safe : RollSafe made (.push helloRecord) := by
    intro _
    rw [rep.writeIndex]
    decide
  obtain ⟨pushed, pushEq, pushedRep⟩ := queueStep_rep (.push helloRecord) rep safe
  have callEq := call_single jobsName pushEq
  have lists := lists_single jobsName pushedRep rfl
  rw [pushedRep.first_index rfl] at lists
  have settled := pushedRep.settled rfl (by decide) rfl (by decide) (by decide)
  have listed := lists.files jobsName _ rfl
  rw [(closeQueue_spec pushedRep.reliable pushedRep.fresh).1] at listed
  obtain ⟨next, openEq, _⟩ := settled.reopen pushedRep jobsName (fun _ => false) listed
  obtain ⟨reopened, reopenEq, found⟩ := reopen_single lists openEq
  refine ⟨⟨trivial, fun store answer stepEq => ?_⟩, reopened, _, next,
    run_cons addEq (run_cons callEq (run_cons reopenEq (run_nil _ _))), found⟩
  cases addEq.symm.trans stepEq
  refine ⟨⟨trivial, fun node found => ?_⟩, fun store answer stepEq => ?_⟩
  · rw [find_single, if_pos rfl] at found
    exact Option.some.inj found ▸ safe
  cases callEq.symm.trans stepEq
  refine ⟨⟨lists, fun qname node found => ?_⟩, fun _ _ _ => trivial⟩
  rw [find_single] at found
  split at found
  · obtain rfl := Option.some.inj found
    obtain ⟨front, lineEq⟩ := settled.line
    exact ⟨⟨front, _, _, lineEq⟩, settled.fits⟩
  · cases found

theorem records_behind_head_hello : ∃ store answers node, run storeStep {} helloOps = .ok (store, answers) ∧
      mqQmFindQueue store jobsName = some node ∧ dbFileHeadLen ≤ node.queue.curWdb.pos.toNat := by
  obtain ⟨safe, store, answers, node, runEq, found⟩ := helloOps_run
  obtain ⟨same, _, sameEq, queues⟩ := records_behind_head helloOps safe
  cases runEq.symm.trans sameEq
  exact ⟨store, answers, node, runEq, found, (queues jobsName node found).1⟩

theorem reopen_before_first : ∃ added reopened node, storeStep {} (.add jobsName) = .ok (added, .added true) ∧
      ListsStore added (singleListing jobsName 1) ∧
      storeStep added (.reopen (singleListing jobsName 1)) = .ok (reopened, .reopened) ∧
      mqQmFindQueue reopened jobsName = some node ∧ node.queue.curWdb.pos.toNat < dbFileHeadLen := by
  obtain ⟨made, addEq, rep⟩ := add_single jobsName
  have lists := lists_single jobsName rep rfl
  rw [rep.first_index rfl] at lists
  have listed := lists.files jobsName _ rfl
  rw [(closeQueue_spec rep.reliable rep.fresh).1] at listed
  obtain ⟨next, _, _, openEq, _, _, _, opened⟩ :=
    rep.opens jobsName (fun _ => false) listed (by decide) (by decide) (by decide)
  obtain ⟨reopened, reopenEq, found⟩ := reopen_single lists openEq
  refine ⟨_, reopened, next, addEq, lists, reopenEq, found, ?_⟩
  rw [opened.writePos]
  decide

end Libucmq
