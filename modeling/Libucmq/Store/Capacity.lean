import Libucmq.Store.Noted

/-! The limit of a queue. -/

namespace Libucmq

open Segments List Machine

def RoomSafe (node : Node) : QueueOp → Prop
  | .push _ => queueFull node.queue = false →
      (node.queue.putNum - node.queue.getNum).toNat + 2 < 18446744073709551616
  | _ => True

def CapacitySafe (store : Store) (op : StoreOp) : Prop :=
  SessionSafe store op ∧
    match op with
    | .add _ => True
    | .call qname op => ∀ node, mqQmFindQueue store qname = some node → RoomSafe node op
    | .reopen _ => ∀ qname node, mqQmFindQueue store qname = some node → Settled node

def NotLowered (store : Store) : StoreOp → Prop
  | .call qname (.setMaxqueue maxque) => ∀ node, mqQmFindQueue store qname = some node →
      maxque = 0 ∨ (node.queue.putNum - node.queue.getNum).toNat ≤ maxque.toNat
  | _ => True

variable {model : QueueModel}

namespace QueueModel

structure Tally (model : QueueModel) : Prop where
  difference : (model.putNum - model.getNum).toNat = model.unread.length
  room : model.unread.length + 1 < 18446744073709551616

theorem tally_initial : Tally initial := ⟨rfl, by decide⟩

theorem Tally.full_iff (tally : model.Tally) :
    model.full = true ↔ model.maxque ≠ 0 ∧ model.maxque.toNat ≤ model.unread.length := by
  rw [full_iff_of_difference tally.difference tally.room, Nat.lt_succ_iff]

theorem count_difference (model : QueueModel) :
    model.count.putNum - model.count.getNum = model.putNum - model.getNum - 1 := by
  rw [count_eq]
  by_cases reached : model.getNum + 1 ≥ model.maxque.toUInt64
  · simp only [reached, ↓reduceIte]
    grind
  · simp only [reached, ↓reduceIte]
    grind

theorem Tally.push (tally : model.Tally) (record : Record)
    (safe : model.full = false → (model.putNum - model.getNum).toNat + 2 < 18446744073709551616) :
    (model.push record).1.Tally := by
  rcases model.push_unread record with ⟨_, same⟩ | ⟨_, added, put, get, _, isOpen⟩
  · rw [same]
    exact tally
  · have bound := safe isOpen
    rw [tally.difference] at bound
    have more : model.putNum + 1 - model.getNum = model.putNum - model.getNum + 1 := by grind
    refine ⟨?_, by simpa [added] using bound⟩
    rw [put, get, added, more, UInt64.toNat_add, tally.difference, length_append]
    simp only [UInt64.reduceToNat, length_singleton]
    omega

theorem Tally.pop (tally : model.Tally) : model.pop.1.Tally := by
  rcases model.pop_unread with ⟨_, same, put, get, _⟩ | ⟨record, _, removed, get, put, _⟩
  · exact ⟨by rw [put, get, same]; exact tally.difference, by rw [same]; exact tally.room⟩
  · have length : model.unread.length = model.pop.1.unread.length + 1 := by
      rw [removed, length_cons]
    have counted := tally.difference
    have room := tally.room
    have positive : (1 : UInt64) ≤ model.putNum - model.getNum := by
      rw [UInt64.le_iff_toNat_le, counted, length]
      simp
    refine ⟨?_, by omega⟩
    rw [put, get, count_difference, UInt64.toNat_sub_of_le _ _ positive, counted, length]
    simp

def Within (model : QueueModel) : Prop :=
  model.maxque ≠ 0 → model.unread.length ≤ model.maxque.toNat

theorem Within.push (within : model.Within) (tally : model.Tally) (record : Record) :
    (model.push record).1.Within := by
  rcases model.push_unread record with ⟨_, same⟩ | ⟨_, added, _, _, max, isOpen⟩
  · rw [same]
    exact within
  · intro limited
    rw [max] at limited ⊢
    have below : ¬ model.maxque.toNat ≤ model.unread.length := fun reached => by
      rw [tally.full_iff.mpr ⟨limited, reached⟩] at isOpen
      cases isOpen
    rw [added, length_append, length_singleton]
    omega

theorem Within.pop (within : model.Within) : model.pop.1.Within := by
  intro limited
  rcases model.pop_unread with ⟨_, same, _, _, max, _⟩ | ⟨record, _, removed, _, _, max⟩
  · rw [max] at limited ⊢
    rw [same]
    exact within limited
  · rw [max] at limited ⊢
    have bound := within limited
    rw [removed, length_cons] at bound
    omega

end QueueModel

theorem Rep.tally_step {node : Node} (rep : Rep True node.queue node.os model)
    (tally : model.Tally) (op : QueueOp) (safe : RoomSafe node op) : (model.step op).1.Tally := by
  cases op with
  | push record =>
    refine tally.push record fun isOpen => ?_
    rw [← rep.putNum, ← rep.getNum]
    exact safe (rep.queueFull_eq.trans isOpen)
  | pop stack => exact tally.pop
  | setMaxqueue maxque => exact ⟨tally.difference, tally.room⟩

theorem Rep.within_step {store : Store} {qname : QueueName} {node : Node}
    (rep : Rep True node.queue node.os model) (found : mqQmFindQueue store qname = some node) (tally : model.Tally)
    (within : model.Within) (op : QueueOp) (kept : NotLowered store (.call qname op)) : (model.step op).1.Within := by
  cases op with
  | push record => exact within.push tally record
  | pop stack => exact within.pop
  | setMaxqueue maxque =>
    intro limited
    rcases kept node found with zero | high
    · exact absurd zero limited
    · rw [rep.putNum, rep.getNum, tally.difference] at high
      exact high

theorem storeRun_tally {ops : List StoreOp} (safe : Guarded storeStep CapacitySafe {} ops) :
    ∃ store, run storeStep {} ops = .ok (store, (storeModelRun {} ops).2) ∧
      Shows store (storeModelRun {} ops).1 ∧ (storeModelRun {} ops).1.All QueueModel.Tally :=
  @storeRun_all QueueModel.Tally CapacitySafe (fun _ _ _ _ _ allowed => allowed.1)
    QueueModel.tally_initial
    (fun _ _ op node _ allowed found rep tally => rep.tally_step tally op (allowed.2 node found))
    (fun _ _ qname node _ allowed found rep tally =>
      ((allowed.2 qname node found).reopened_eq rep).symm ▸ tally) ops safe

theorem storeRun_within {ops : List StoreOp} (safe : Guarded storeStep CapacitySafe {} ops)
    (kept : Guarded storeStep NotLowered {} ops) : (storeModelRun {} ops).1.All QueueModel.Within := by
  obtain ⟨_, _, _, all⟩ := @storeRun_all (fun model => model.Tally ∧ model.Within)
    (fun store op => CapacitySafe store op ∧ NotLowered store op)
    (fun _ _ _ _ _ allowed => allowed.1.1)
    ⟨QueueModel.tally_initial, fun _ => Nat.zero_le _⟩
    (fun _ _ op node _ allowed found rep good => ⟨rep.tally_step good.1 op (allowed.1.2 node found),
      rep.within_step found good.1 good.2 op allowed.2⟩)
    (fun _ _ qname node _ allowed found rep good =>
      ((allowed.1.2 qname node found).reopened_eq rep).symm ▸ good) _ (safe.and kept)
  exact fun qname queue present => (all qname queue present).2

theorem pushItem_full_iff {queue after : MqQueue} {os afterOs : Os} {item : MsgItem} :
    mqQmPushItem queue os item = .ok (.full, after, afterOs) ↔
      queueFull queue = true ∧ after = queue ∧ afterOs = os := by
  rw [mqQmPushItem]
  by_cases full : queueFull queue = true
  · rw [if_pos full]
    constructor
    · intro same
      cases same
      exact ⟨full, rfl, rfl⟩
    · rintro ⟨_, rfl, rfl⟩
      rfl
  · rw [if_neg full]
    refine ⟨fun refused => ?_, fun reason => absurd reason.1 full⟩
    split at refused <;> cases refused

/-- A push is refused exactly at the limit, and then changes nothing. -/
theorem queue_capacity (ops : List StoreOp) (safe : Guarded storeStep CapacitySafe {} ops) :
    ∃ store answers, run storeStep {} ops = .ok (store, answers) ∧
      ∀ qname node, mqQmFindQueue store qname = some node → ∃ waiting : List (List UInt8),
          acceptedOf qname ops answers = returnedOf qname ops answers ++ waiting ∧
          (∀ item queue os, mqQmPushItem node.queue node.os item = .ok (.full, queue, os) ↔
            (node.queue.maxque ≠ 0 ∧ node.queue.maxque.toNat ≤ waiting.length) ∧ queue = node.queue ∧ os = node.os) ∧
          (Guarded storeStep NotLowered {} ops → node.queue.maxque ≠ 0 →
            waiting.length ≤ node.queue.maxque.toNat) := by
  obtain ⟨store, runEq, showing, tally⟩ := storeRun_tally safe
  refine ⟨store, _, runEq, fun qname node found => ?_⟩
  obtain ⟨queue, present, rep⟩ := showing.of_found found
  have balance := storeModelRun_balance {} qname ops
  rw [StoreModel.bodies, StoreModel.bodies, present] at balance
  refine ⟨queue.bodies, balance, fun item after os => ?_, fun kept => ?_⟩
  · rw [pushItem_full_iff, rep.queueFull_eq, (tally qname queue present).full_iff, rep.maxque,
      QueueModel.bodies, length_map]
  · rw [rep.maxque, QueueModel.bodies, length_map]
    exact storeRun_within safe kept qname queue present

theorem capacitySafe_call {node : Node} (op : QueueOp) (rep : Rep True node.queue node.os model)
    (early : model.log.last < 100) (few : (model.putNum - model.getNum).toNat < 100) :
    CapacitySafe (single jobsName node) (.call jobsName op) := by
  have here : ∀ other, mqQmFindQueue (single jobsName node) jobsName = some other → node = other := by
    intro other found
    rw [find_single, if_pos rfl] at found
    exact Option.some.inj found
  constructor
  · intro other found
    obtain rfl := here other found
    cases op with
    | push record =>
        intro _
        rw [rep.writeIndex]
        omega
    | pop stack => trivial
    | setMaxqueue maxque => trivial
  · intro other found
    obtain rfl := here other found
    cases op with
    | push record =>
        intro _
        rw [rep.putNum, rep.getNum]
        omega
    | pop stack => trivial
    | setMaxqueue maxque => trivial

/-- The second push finds the queue at its limit. -/
theorem queue_capacity_hello : ∃ store answers node,
    run storeStep {} [.add jobsName, .call jobsName (.setMaxqueue 1), .call jobsName (.push helloRecord),
        .call jobsName (.push byeRecord)] = .ok (store, answers) ∧
      mqQmFindQueue store jobsName = some node ∧
      node.queue.maxque = 1 ∧
      answers = [.added true, .called .set, .called (.put .putOk), .called (.put .full)] ∧
      ∃ waiting : List (List UInt8), waiting = [helloRecord.body] ∧
        waiting.length ≤ node.queue.maxque.toNat ∧
        ∀ item, mqQmPushItem node.queue node.os item = .ok (.full, node.queue, node.os) := by
  obtain ⟨made, addEq, madeRep⟩ := add_single jobsName
  obtain ⟨limited, limitEq, limitRep⟩ := queueStep_rep (.setMaxqueue 1) madeRep trivial
  obtain ⟨pushed, pushEq, pushRep⟩ := queueStep_rep (.push helloRecord) limitRep (by
    intro _
    rw [limitRep.writeIndex]
    decide)
  obtain ⟨node, refuseEq, rep⟩ := queueStep_rep (.push byeRecord) pushRep (by
    intro _
    rw [pushRep.writeIndex]
    decide)
  have limitStep := call_single jobsName limitEq
  have pushStep := call_single jobsName pushEq
  have refuseStep := call_single jobsName refuseEq
  have runEq := run_cons addEq (run_cons limitStep (run_cons pushStep (run_cons refuseStep (run_nil _ _))))
  obtain ⟨store, answers, sameEq, limits⟩ := queue_capacity [.add jobsName, .call jobsName (.setMaxqueue 1),
    .call jobsName (.push helloRecord), .call jobsName (.push byeRecord)] (by
      refine (guarded_cons_iff addEq).mpr ⟨⟨trivial, trivial⟩, (guarded_cons_iff limitStep).mpr
        ⟨capacitySafe_call _ madeRep (by decide) (by decide), (guarded_cons_iff pushStep).mpr
        ⟨capacitySafe_call _ limitRep (by decide) (by decide), (guarded_cons_iff refuseStep).mpr
        ⟨capacitySafe_call _ pushRep (by decide) (by decide), trivial⟩⟩⟩⟩)
  rw [runEq] at sameEq
  cases sameEq
  have found : mqQmFindQueue (single jobsName node) jobsName = some node := by rw [find_single, if_pos rfl]
  have maxque : node.queue.maxque = 1 := rep.maxque.trans (by decide)
  obtain ⟨waiting, balance, full, within⟩ := limits jobsName node found
  have waits : waiting = [helloRecord.body] := (show [helloRecord.body] = [] ++ waiting from balance).symm
  refine ⟨_, _, node, runEq, found, maxque, by decide, waiting, waits, within ?_ (by simp [maxque]), fun item => ?_⟩
  · refine (guarded_cons_iff addEq).mpr ⟨trivial, (guarded_cons_iff limitStep).mpr ⟨fun other there => ?_,
      (guarded_cons_iff pushStep).mpr ⟨trivial, (guarded_cons_iff refuseStep).mpr ⟨trivial, trivial⟩⟩⟩⟩
    rw [find_single, if_pos rfl] at there
    obtain rfl := Option.some.inj there
    rw [madeRep.putNum, madeRep.getNum]
    decide
  · exact (full item node.queue node.os).mpr ⟨by simp [maxque, waits], rfl, rfl⟩

theorem capacity_lost : ∃ ops store answers node, run storeStep {} ops = .ok (store, answers) ∧
      mqQmFindQueue store jobsName = some node ∧ node.queue.maxque = 1 ∧
      acceptedOf jobsName ops answers = [helloRecord.body] ∧ returnedOf jobsName ops answers = [helloRecord.body] ∧
      ∀ item, mqQmPushItem node.queue node.os item = .ok (.full, node.queue, node.os) := by
  obtain ⟨node, reopened, next, listing, runEq, rep, _, reopenEq, found, nextRep⟩ := lowLimit_reopens
  have answers : (modelRun QueueModel.initial lowLimitOps).2 =
      [.set, .put .putOk, .got .getOk helloRecord.body] := by decide
  rw [answers] at runEq
  refine ⟨_, reopened, _, next, run_concat runEq reopenEq, found, ?_, rfl, rfl, fun item => ?_⟩
  · rw [nextRep.maxque]
    decide
  · rw [pushItem_full_iff, nextRep.queueFull_eq]
    exact ⟨by decide, rfl, rfl⟩

end Libucmq
