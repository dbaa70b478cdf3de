import Libucmq.Store.Fifo
import Libucmq.Store.Keeps

/-! The count-down to the next `msync`. -/

namespace Libucmq

open Machine

def countDown (interval : Int) (queue : MqQueue) : Bool × MqQueue :=
  if queue.syncIntv > 0 then
    if queue.syncIntv = 1 then
      (true, { queue with syncIntv := if interval ≤ 0 then 10 else interval })
    else (false, { queue with syncIntv := queue.syncIntv - 1 })
  else (false, queue)

theorem countDown_default (queue : MqQueue) : (countDown defSyncInterval queue).2 = syncTick queue := by
  rw [countDown, syncTick]
  split
  · split <;> rfl
  · rfl

def pushItemSync (interval : Int) (queue : MqQueue) (os : Os) (item : MsgItem) :
    Except Abort (QueuePutRet × Bool × MqQueue × Os) :=
  if queueFull queue then .ok (.full, false, queue, os)
  else
    match mqSmPutData (stampItem item) queue os with
    | .error abort => .error abort
    | .ok (false, queue, os) => .ok (.putError, false, queue, os)
    | .ok (true, queue, os) =>
      let (_, os) := mqSmWtagWriteItem queue os
      .ok (.putOk, (countDown interval queue).1, (countDown interval queue).2, os)

theorem pushItemSync_default (queue : MqQueue) (os : Os) (item : MsgItem) :
    (pushItemSync defSyncInterval queue os item).map (fun result => (result.1, result.2.2)) =
      mqQmPushItem queue os item := by
  rw [pushItemSync, mqQmPushItem]
  split
  · rfl
  · cases mqSmPutData (stampItem item) queue os with
    | error abort => rfl
    | ok result =>
      obtain ⟨stored, next, after⟩ := result
      cases stored with
      | false => rfl
      | true => simp [Except.map, countDown_default]

variable {item : MsgItem}

section

variable {queue next : MqQueue} {os after : Os} {ret : Bool}

theorem getNextWriteFile_sync (returned : getNextWriteFile queue os = .ok (ret, next, after)) :
    next.syncIntv = queue.syncIntv := by
  simp only [getNextWriteFile] at returned
  split at returned
  · cases returned
    rfl
  · split at returned
    · cases returned
      rfl
    · split at returned
      · cases returned
        rfl
      · split at returned
        · cases returned
        · cases returned
          rfl

theorem makeRoom_sync (returned : mqSmDbMakeRoom queue os item = .ok (ret, next, after)) :
    next.syncIntv = queue.syncIntv := by
  rw [mqSmDbMakeRoom] at returned
  split at returned
  · split at returned
    · exact getNextWriteFile_sync returned
    · split at returned
      · cases returned
      · exact getNextWriteFile_sync returned
  · cases returned
    rfl

theorem storeMsg_sync (returned : mqSmDbStoreMsg queue os item = .ok (ret, next, after)) :
    next.syncIntv = queue.syncIntv := by
  rw [mqSmDbStoreMsg] at returned
  split at returned
  · cases returned
  · split at returned
    · cases returned
    · cases returned
      rfl

theorem putData_sync (returned : mqSmPutData item queue os = .ok (ret, next, after)) :
    next.syncIntv = queue.syncIntv := by
  rw [mqSmPutData] at returned
  split at returned
  · cases returned
    rfl
  · rw [mqSmDbWriteMsg] at returned
    split at returned
    · cases returned
    · rename_i room
      cases returned
      exact makeRoom_sync room
    · rename_i room
      exact (storeMsg_sync returned).trans (makeRoom_sync room)

theorem creatDb_sync (queue : MqQueue) (os : Os) : (mqSmCreatDb queue os).2.1.syncIntv = queue.syncIntv := by
  simp only [mqSmCreatDb]
  split
  · rfl
  · split
    · rfl
    · split
      · rfl
      · split
        · rfl
        · split <;> rfl

end

theorem createQueue_sync {qname : List UInt8} {os after : Os} {node : Node}
    (made : createQueue qname os = (some node, after)) : node.queue.syncIntv = 0 := by
  rw [createQueue] at made
  split at made
  · rename_i creatEq
    have kept := OffFiles.of_eq (creatDb_sync _ _) creatEq
    cases made
    exact kept
  · cases made

theorem openQueue_sync {qname : List UInt8} {cwd : FileName → Bool} {listing : List FileName} {os : Os}
    {node : Node} (loaded : openQueue qname cwd listing os = some node) : node.queue.syncIntv = 0 :=
  offFiles_syncIntv.openQueue (fun _ _ => rfl) loaded

inductive SlotOp
  | add
  | openStore (cwd : FileName → Bool) (listing : List FileName)
  | closeStore
  | push (item : MsgItem)
  | pop (item : MsgItem)
  | setMaxqueue (maxque : UInt32)

structure SyncAnswer where
  stored : Bool := false
  synced : Bool := false
deriving DecidableEq, Repr

def slotStep (interval : Int) (qname : List UInt8) :
    Os ⊕ Node → SlotOp → Except Abort ((Os ⊕ Node) × SyncAnswer)
  | .inl os, .add =>
    match createQueue qname os with
    | (some node, _) => .ok (.inr node, {})
    | (none, os) => .ok (.inl os, {})
  | .inl os, .openStore cwd listing =>
    match openQueue qname cwd listing os with
    | some node => .ok (.inr node, {})
    | none => .ok (.inl os, {})
  | .inr node, .closeStore => .ok (.inl (closeQueue node), {})
  | .inr node, .push item =>
    match pushItemSync interval node.queue node.os item with
    | .error abort => .error abort
    | .ok (ret, synced, queue, os) => .ok (.inr { queue, os }, { stored := ret = .putOk, synced })
  | .inr node, .pop item =>
    match mqQmPopItem node.queue node.os item with
    | .error abort => .error abort
    | .ok (_, _, queue, os) => .ok (.inr { queue, os }, {})
  | .inr node, .setMaxqueue maxque =>
    let (queue, os) := mqQmSetMaxqueue node.queue node.os maxque
    .ok (.inr { queue, os }, {})
  | state, _ => .ok (state, {})

def storedCount (answers : List SyncAnswer) : Nat := answers.countP SyncAnswer.stored

def syncCount (answers : List SyncAnswer) : Nat := answers.countP SyncAnswer.synced

def Stopped : Os ⊕ Node → Prop
  | .inl _ => True
  | .inr node => node.queue.syncIntv = 0

theorem pushItemSync_stopped (interval : Int) {queue : MqQueue} (os : Os) (item : MsgItem)
    (stopped : queue.syncIntv = 0) : pushItemSync interval queue os item =
      (mqQmPushItem queue os item).map fun result => (result.1, false, result.2) := by
  rw [pushItemSync, mqQmPushItem]
  split
  · rfl
  · cases putEq : mqSmPutData (stampItem item) queue os with
    | error abort => rfl
    | ok result =>
      obtain ⟨stored, next, after⟩ := result
      have still : next.syncIntv = 0 := (putData_sync putEq).trans stopped
      cases stored with
      | false => rfl
      | true => simp [Except.map, countDown, syncTick, still]

theorem pushItem_sync {queue next : MqQueue} {os after : Os} {ret : QueuePutRet}
    (stopped : queue.syncIntv = 0) (returned : mqQmPushItem queue os item = .ok (ret, next, after)) :
    next.syncIntv = 0 := by
  rw [mqQmPushItem] at returned
  split at returned
  · cases returned
    exact stopped
  · split at returned
    · cases returned
    · rename_i putEq
      cases returned
      exact (putData_sync putEq).trans stopped
    · rename_i putEq
      have still := (putData_sync putEq).trans stopped
      cases returned
      simp [syncTick, still]

theorem slotStep_stopped (interval : Int) (qname : List UInt8) {state next : Os ⊕ Node} {op : SlotOp}
    {answer : SyncAnswer} (stopped : Stopped state) (stepEq : slotStep interval qname state op = .ok (next, answer)) :
    Stopped next ∧ answer.synced = false := by
  cases state with
  | inl os =>
    cases op with
    | add =>
      rw [slotStep] at stepEq
      split at stepEq
      · rename_i made
        cases stepEq
        exact ⟨createQueue_sync made, rfl⟩
      · cases stepEq
        exact ⟨trivial, rfl⟩
    | openStore cwd listing =>
      rw [slotStep] at stepEq
      split at stepEq
      · rename_i loaded
        cases stepEq
        exact ⟨openQueue_sync loaded, rfl⟩
      · cases stepEq
        exact ⟨trivial, rfl⟩
    | _ =>
      cases stepEq
      exact ⟨trivial, rfl⟩
  | inr node =>
    cases op with
    | push item =>
      rw [slotStep, pushItemSync_stopped interval node.os item stopped] at stepEq
      cases pushEq : mqQmPushItem node.queue node.os item with
      | error abort =>
        rw [pushEq] at stepEq
        cases stepEq
      | ok result =>
        rw [pushEq] at stepEq
        cases stepEq
        exact ⟨pushItem_sync stopped pushEq, rfl⟩
    | pop item =>
      rw [slotStep] at stepEq
      split at stepEq
      · cases stepEq
      · rename_i popEq
        cases stepEq
        exact ⟨(offRead_syncIntv.popItem popEq).trans stopped, rfl⟩
    | closeStore =>
      cases stepEq
      exact ⟨trivial, rfl⟩
    | _ =>
      cases stepEq
      exact ⟨stopped, rfl⟩

theorem slotRun_stopped (interval : Int) (qname : List UInt8) {state final : Os ⊕ Node} {ops : List SlotOp}
    {answers : List SyncAnswer} (stopped : Stopped state)
    (runEq : run (slotStep interval qname) state ops = .ok (final, answers)) : syncCount answers = 0 := by
  rw [syncCount, List.countP_eq_zero]
  intro answer member
  rw [run_answers (fun _ _ _ _ => slotStep_stopped interval qname) stopped runEq answer member]
  exact Bool.false_ne_true

/-- Synced once for `sync_interval` messages as long as there are fewer. -/
theorem sync_interval_iff (interval : Int) (positive : 1 ≤ interval) (qname : List UInt8) (os : Os)
    (ops : List SlotOp) (final : Os ⊕ Node) (answers : List SyncAnswer)
    (runEq : run (slotStep interval qname) (.inl os) ops = .ok (final, answers)) :
    (storedCount answers : Int) / interval ≤ syncCount answers ↔ (storedCount answers : Int) < interval := by
  rw [@slotRun_stopped interval qname (.inl os) final ops answers trivial runEq]
  constructor
  · intro few
    by_contra many
    have one := Int.ediv_le_ediv (by omega : 0 < interval) (Int.not_lt.mp many)
    rw [Int.ediv_self (by omega)] at one
    omega
  · intro few
    rw [Int.ediv_eq_zero_of_lt (by omega) few]
    exact Int.le_refl 0

def helloSlotOps : List SlotOp := [.add, .push (newItem helloRecord.delay helloRecord.body)]

theorem slotRun_hello (interval : Int) (qname : List UInt8) : ∃ final,
    run (slotStep interval qname) (.inl {}) helloSlotOps = .ok (final, [{}, { stored := true }]) := by
  obtain ⟨node, createEq, rep⟩ := @createQueue_rep qname {} (fun _ => rfl) (fun _ _ => ⟨rfl, rfl⟩)
  obtain ⟨queue, os, pushEq, _⟩ := rep.push helloRecord (fun _ _ => by decide)
  have addEq : slotStep interval qname (.inl {}) .add = .ok (.inr node, {}) := by
    rw [slotStep, createEq]
  have stored : slotStep interval qname (.inr node) (.push (newItem helloRecord.delay helloRecord.body)) =
      .ok (.inr { queue, os }, { stored := true }) := by
    rw [slotStep, pushItemSync_stopped interval node.os _ (createQueue_sync createEq), pushEq,
      show (QueueModel.initial.push helloRecord).2 = .putOk by decide]
    rfl
  exact ⟨_, run_cons addEq (run_cons stored (run_nil _ _))⟩

theorem sync_interval_two : ∃ final answers,
    run (slotStep 2 []) (.inl {}) helloSlotOps = .ok (final, answers) ∧
      storedCount answers = 1 ∧ (storedCount answers : Int) / 2 ≤ syncCount answers := by
  obtain ⟨final, runEq⟩ := slotRun_hello 2 []
  exact ⟨final, _, runEq, rfl,
    (sync_interval_iff 2 (by decide) [] {} _ final _ runEq).mpr (by decide)⟩

theorem sync_interval_missed : ∃ final answers,
    run (slotStep 1 []) (.inl {}) helloSlotOps = .ok (final, answers) ∧
      storedCount answers = 1 ∧ syncCount answers = 0 ∧ ¬ (storedCount answers : Int) / 1 ≤ syncCount answers := by
  obtain ⟨final, runEq⟩ := slotRun_hello 1 []
  exact ⟨final, _, runEq, rfl, rfl, by decide⟩

end Libucmq
