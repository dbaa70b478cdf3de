import Libucmq.Store.Create

/-! First in, first out, across all rollovers. -/

namespace Libucmq

open Segments List Machine

variable {model : QueueModel}

def accepted : List QueueOp → List QueueAnswer → List (List UInt8)
  | .push record :: ops, .put .putOk :: answers => record.body :: accepted ops answers
  | _ :: ops, _ :: answers => accepted ops answers
  | _, _ => []

def returned : List QueueAnswer → List (List UInt8)
  | .got .getOk body :: answers => body :: returned answers
  | _ :: answers => returned answers
  | [] => []

def QueueOp.Plain : QueueOp → Prop
  | .push _ | .pop _ => True
  | .setMaxqueue _ => False

namespace QueueModel

def bodies (model : QueueModel) : List (List UInt8) := model.unread.map Record.body

@[simp] theorem count_log (model : QueueModel) : model.count.log = model.log := by
  rw [count_eq]

theorem push_unread (model : QueueModel) (record : Record) :
    (model.push record).2 = .full ∧ (model.push record).1 = model ∨
      (model.push record).2 = .putOk ∧ (model.push record).1.unread = model.unread ++ [record] ∧
        (model.push record).1.putNum = model.putNum + 1 ∧ (model.push record).1.getNum = model.getNum ∧
        (model.push record).1.maxque = model.maxque ∧ model.full = false := by
  unfold push
  split
  · exact Or.inl ⟨rfl, rfl⟩
  · rename_i isOpen
    right
    split <;> simp [note, store, roll, unread, isOpen]

theorem push_open (isOpen : model.full = false) (record : Record) : (model.push record).2 = .putOk := by
  rw [push, isOpen]
  simp only [Bool.false_eq_true, ↓reduceIte]
  split <;> rfl

theorem pop_unread (model : QueueModel) :
    (model.pop.2 = none ∧ model.pop.1.unread = model.unread ∧ model.pop.1.putNum = model.putNum ∧
        model.pop.1.getNum = model.getNum ∧ model.pop.1.maxque = model.maxque ∧
        (model.putNum - model.getNum < 1 ∨ model.unread = [])) ∨
      ∃ record, model.pop.2 = some record ∧ model.unread = record :: model.pop.1.unread ∧
        model.pop.1.getNum = model.count.getNum ∧ model.pop.1.putNum = model.count.putNum ∧
        model.pop.1.maxque = model.maxque := by
  unfold pop
  split
  · rename_i none
    exact Or.inl ⟨rfl, rfl, rfl, rfl, rfl, Or.inl none⟩
  · cases taken : model.log.take with
    | none => exact Or.inl ⟨rfl, by simp [unread], rfl, rfl, rfl, Or.inr (Log.take_none.mp taken)⟩
    | some pair =>
      obtain ⟨record, log⟩ := pair
      right
      refine ⟨record, rfl, ?_, ?_, ?_, ?_⟩
      · simpa [unread] using Log.take_some taken
      all_goals simp [count_eq]

theorem step_balance (model : QueueModel) (op : QueueOp) : model.bodies ++ accepted [op] [(model.step op).2] =
      returned [(model.step op).2] ++ (model.step op).1.bodies := by
  cases op with
  | push record =>
    rcases model.push_unread record with ⟨ret, same⟩ | ⟨ret, added, _⟩
    · simp [step, ret, same, accepted, returned]
    · simp [step, ret, bodies, added, accepted, returned]
  | pop stack =>
    rcases model.pop_unread with ⟨absent, same, _⟩ | ⟨record, taken, removed, _⟩
    · simp [step, absent, same, bodies, accepted, returned]
    · simp [step, taken, removed, bodies, accepted, returned]
  | setMaxqueue maxque => simp [step, accepted, returned, setMaxqueue, note, bodies, unread]

end QueueModel

theorem accepted_cons (op : QueueOp) (answer : QueueAnswer) (ops : List QueueOp) (answers : List QueueAnswer) :
    accepted (op :: ops) (answer :: answers) = accepted [op] [answer] ++ accepted ops answers := by
  cases op with
  | push record =>
    cases answer with
    | put ret => cases ret <;> simp [accepted]
    | got ret body => simp [accepted]
    | set => simp [accepted]
  | pop stack => simp [accepted]
  | setMaxqueue maxque => simp [accepted]

theorem returned_cons (answer : QueueAnswer) (answers : List QueueAnswer) :
    returned (answer :: answers) = returned [answer] ++ returned answers := by
  cases answer with
  | put ret => simp [returned]
  | got ret body => cases ret <;> simp [returned]
  | set => simp [returned]

abbrev modelRun (model : QueueModel) (ops : List QueueOp) : QueueModel × List QueueAnswer :=
  specRun QueueModel.step model ops

theorem modelRun_balance (model : QueueModel) (ops : List QueueOp) :
    model.bodies ++ accepted ops (modelRun model ops).2 =
      returned (modelRun model ops).2 ++ (modelRun model ops).1.bodies := by
  induction ops generalizing model with
  | nil => simp [specRun, accepted, returned]
  | cons op ops ih =>
    have first := model.step_balance op
    have later := ih (model.step op).1
    simp only [specRun]
    rw [accepted_cons, returned_cons, ← append_assoc, first, append_assoc, later,
      append_assoc]

variable {model : QueueModel}

namespace QueueModel

def Counted (model : QueueModel) : Prop :=
  model.putNum.toNat = model.getNum.toNat + model.unread.length

theorem Counted.difference (counted : model.Counted) : (model.putNum - model.getNum).toNat = model.unread.length := by
  have order : model.getNum ≤ model.putNum := by
    rw [UInt64.le_iff_toNat_le, counted]
    omega
  rw [UInt64.toNat_sub_of_le _ _ order, counted]
  omega

theorem Counted.empty_iff (counted : model.Counted) : model.putNum - model.getNum < 1 ↔ model.unread = [] := by
  rw [UInt64.lt_iff_toNat_lt, counted.difference, ← length_eq_zero_iff]
  simp

theorem Counted.pop_none_iff (counted : model.Counted) : model.pop.2 = none ↔ model.unread = [] := by
  rcases model.pop_unread with ⟨absent, _, _, _, _, why⟩ | ⟨record, taken, removed, _⟩
  · rw [counted.empty_iff, or_self] at why
    simp [absent, why]
  · simp [taken, removed]

theorem full_iff_of_difference {number : Nat}
    (difference : (model.putNum - model.getNum).toNat = number) (bound : number + 1 < 18446744073709551616) :
    model.full = true ↔ model.maxque ≠ 0 ∧ model.maxque.toNat < number + 1 := by
  have sum : (model.putNum - model.getNum + 1).toNat = number + 1 := by
    rw [UInt64.toNat_add, difference]
    simp only [UInt64.reduceToNat]
    omega
  simp [full, UInt64.lt_iff_toNat_lt, sum]

theorem Counted.full_iff (counted : model.Counted) (bound : model.unread.length + 1 < 18446744073709551616) :
    model.full = true ↔ model.maxque ≠ 0 ∧ model.maxque.toNat < model.unread.length + 1 :=
  full_iff_of_difference counted.difference bound

theorem Counted.push (counted : model.Counted) (record : Record)
    (room : (model.push record).2 = .putOk → model.putNum.toNat + 1 < 18446744073709551616) :
    (model.push record).1.Counted := by
  rcases model.push_unread record with ⟨_, same⟩ | ⟨ok, added, put, get, _⟩
  · rw [same]
    exact counted
  · have bound := room ok
    rw [Counted, added, put, get, UInt64.toNat_add, counted]
    rw [counted] at bound
    simp only [UInt64.reduceToNat, length_append, length_singleton]
    omega

theorem count_toNat (below : model.getNum.toNat < model.putNum.toNat) :
    model.count.getNum.toNat = (if model.maxque.toNat ≤ model.getNum.toNat + 1 then
        model.getNum.toNat + 1 - model.maxque.toNat else model.getNum.toNat + 1) ∧
      model.count.putNum.toNat = (if model.maxque.toNat ≤ model.getNum.toNat + 1 then
        model.putNum.toNat - model.maxque.toNat else model.putNum.toNat) := by
  have bound := model.putNum.toNat_lt
  have next : (model.getNum + 1).toNat = model.getNum.toNat + 1 := by
    rw [UInt64.toNat_add]
    simp only [UInt64.reduceToNat]
    omega
  rw [count_eq]
  by_cases rebase : model.maxque.toNat ≤ model.getNum.toNat + 1
  · have reached : model.getNum + 1 ≥ model.maxque.toUInt64 := by
      rw [ge_iff_le, UInt64.le_iff_toNat_le, next]
      simpa using rebase
    have below : model.maxque.toUInt64 ≤ model.putNum := by
      rw [UInt64.le_iff_toNat_le]
      simp
      omega
    simp only [reached, ↓reduceIte, rebase]
    rw [UInt64.toNat_sub_of_le _ _ reached, UInt64.toNat_sub_of_le _ _ below, next]
    simp
  · have short : ¬ model.getNum + 1 ≥ model.maxque.toUInt64 := by
      rw [ge_iff_le, UInt64.le_iff_toNat_le, next]
      simpa using rebase
    simp only [short, ↓reduceIte, rebase, next]
    simp

theorem Counted.pop (counted : model.Counted) : model.pop.1.Counted := by
  rcases model.pop_unread with ⟨_, same, put, get, _⟩ | ⟨record, _, removed, get, put, _⟩
  · rw [Counted, same, put, get]
    exact counted
  · have counts : model.putNum.toNat = model.getNum.toNat + model.unread.length := counted
    have length : model.unread.length = model.pop.1.unread.length + 1 := by simp [removed]
    obtain ⟨newGet, newPut⟩ := count_toNat (show model.getNum.toNat < model.putNum.toNat by omega)
    rw [Counted, put, get, newGet, newPut]
    split <;> omega

structure Modest (model : QueueModel) : Prop where
  counted : model.Counted
  limit : model.maxque = defMaxQueue
  low : model.getNum.toNat < 100000000
  few : model.unread.length ≤ 100000000

theorem modest_initial : Modest initial where
  counted := rfl
  limit := rfl
  low := by decide
  few := by simp [initial, unread, Log.pending]

theorem Modest.step (modest : model.Modest) {op : QueueOp} (plain : op.Plain) : (model.step op).1.Modest := by
  obtain ⟨counted, limit, low, few⟩ := modest
  have counts : model.putNum.toNat = model.getNum.toNat + model.unread.length := counted
  have limitValue : model.maxque.toNat = 100000000 := by rw [limit]; rfl
  cases op with
  | push record =>
    have kept := counted.push record (fun _ => by omega)
    rcases model.push_unread record with ⟨_, same⟩ | ⟨_, added, put, get, max, isOpen⟩
    · simp only [QueueModel.step]
      rw [same]
      exact ⟨counted, limit, low, few⟩
    · refine ⟨kept, max.trans limit, by simpa [QueueModel.step, get] using low, ?_⟩
      have room := (counted.full_iff (by omega)).not.mp (by simp [isOpen])
      simp only [QueueModel.step, added, length_append, length_singleton]
      simp only [ne_eq, not_and, not_lt] at room
      have inside := room (by rw [limit]; decide)
      omega
  | pop stack =>
    have kept := counted.pop
    rcases model.pop_unread with ⟨_, same, put, get, max, _⟩ | ⟨record, _, removed, get, put, max⟩
    · exact ⟨kept, max.trans limit, by simpa [QueueModel.step, get] using low,
        by simpa [QueueModel.step, same] using few⟩
    · have length : model.unread.length = model.pop.1.unread.length + 1 := by simp [removed]
      obtain ⟨newGet, _⟩ := count_toNat (show model.getNum.toNat < model.putNum.toNat by omega)
      refine ⟨kept, max.trans limit, ?_, ?_⟩
      · simp only [QueueModel.step, get, newGet, limitValue]
        split <;> omega
      · simp only [QueueModel.step]
        omega
  | setMaxqueue maxque => exact absurd plain (by simp [QueueOp.Plain])

end QueueModel

theorem modelRun_modest {ops : List QueueOp} (modest : model.Modest)
    (plain : ∀ op ∈ ops, op.Plain) : (modelRun model ops).1.Modest := by
  induction ops generalizing model with
  | nil => exact modest
  | cons op ops ih =>
    exact ih (modest.step (plain op mem_cons_self))
      fun later member => plain later (mem_cons_of_mem op member)

namespace QueueModel

theorem push_last (model : QueueModel) (record : Record) : (model.push record).1.log.last ≤ model.log.last + 1 := by
  unfold push
  split
  · exact Nat.le_succ _
  · split <;> simp [note, store, roll, Log.last, Log.roll]
    omega

theorem step_last (model : QueueModel) (op : QueueOp) : (model.step op).1.log.last ≤ model.log.last + 1 := by
  cases op with
  | push record => exact model.push_last record
  | pop stack =>
    have settled := Log.settle_last model.log
    simp only [step, pop]
    split
    · exact Nat.le_succ _
    · cases taken : model.log.take with
      | none =>
        simp only
        omega
      | some pair =>
        have same := Log.take_last taken
        simp only [count_log]
        omega
  | setMaxqueue maxque => simp [step, setMaxqueue, note]

end QueueModel

theorem guarded_of_length {kept : Prop} {node : Node} {ops : List QueueOp}
    (rep : Rep kept node.queue node.os model) (few : model.log.last + ops.length < 18446744073709551616) :
    Guarded queueStep RollSafe node ops := by
  induction ops generalizing node model with
  | nil => trivial
  | cons op ops ih =>
    simp only [length_cons] at few
    have safe : RollSafe node op := by
      cases op with
      | push record =>
        intro _
        rw [rep.writeIndex]
        omega
      | pop stack => trivial
      | setMaxqueue maxque => trivial
    refine ⟨safe, ?_⟩
    intro next answer stepEq
    obtain ⟨reached, reachedEq, reachedRep⟩ := queueStep_rep op rep safe
    rw [stepEq] at reachedEq
    cases reachedEq
    have grown := model.step_last op
    exact ih reachedRep (by omega)

/-- What is returned is a prefix of what is accepted, up to the end. -/
theorem queue_fifo (qname : List UInt8) (leftover : QueueDir) (ops : List QueueOp) (plain : ∀ op ∈ ops, op.Plain) :
    ∃ node, createQueue qname { dir := leftover } = (some node, node.os) ∧
      (Guarded queueStep RollSafe node ops →
        ∃ final answers, run queueStep node ops = .ok (final, answers) ∧
          returned answers <+: accepted ops answers ∧
          ∀ stack, ∃ next ret body, queueStep final (.pop stack) = .ok (next, .got ret body) ∧
            (ret = .getEnd ↔ returned answers = accepted ops answers)) := by
  obtain ⟨node, createEq, rep⟩ := @createQueue_rep qname { dir := leftover } (fun _ => rfl)
    (fun _ _ => ⟨rfl, rfl⟩)
  refine ⟨node, createEq, ?_⟩
  intro safe
  obtain ⟨final, runEq, finalRep⟩ := queueRun_rep rep safe
  have modest := modelRun_modest QueueModel.modest_initial plain
  have balance := modelRun_balance QueueModel.initial ops
  simp only [show QueueModel.initial.bodies = [] from rfl, nil_append] at balance
  refine ⟨final, _, runEq, ⟨_, balance.symm⟩, ?_⟩
  intro stack
  obtain ⟨next, popEq, _⟩ := queueStep_rep (.pop stack) finalRep trivial
  have empty : (modelRun QueueModel.initial ops).1.bodies = [] ↔
      (modelRun QueueModel.initial ops).1.unread = [] := by
    simp [QueueModel.bodies]
  rw [balance, self_eq_append_right, empty, ← modest.counted.pop_none_iff]
  simp only [QueueModel.step] at popEq
  cases found : (modelRun QueueModel.initial ops).1.pop.2 with
  | none => exact ⟨next, .getEnd, [], by rw [popEq, found], by simp⟩
  | some record => exact ⟨next, .getOk, record.body, by rw [popEq, found], by simp⟩

def helloRecord : Record :=
  { delay := 0, body := [104, 105], nonempty := by decide, bounded := by decide }

def byeRecord : Record :=
  { delay := 0, body := [98, 121, 101], nonempty := by decide, bounded := by decide }

def zeroRecord (length : Nat) (nonempty : 0 < length) (bounded : length ≤ 67108724) : Record :=
  { delay := 0, body := List.replicate length 0, nonempty := by simpa using nonempty
    bounded := by simpa [dbFileHeadLen, msgHeadLen] using bounded }

theorem zeroRecord_size (length : Nat) (nonempty : 0 < length) (bounded : length ≤ 67108724) :
    (zeroRecord length nonempty bounded).size = length + 12 := by
  simp [Record.size, zeroRecord, msgHeadLen]

def wideRecord : Record := zeroRecord 67108724 (Nat.zero_lt_succ _) (Nat.le_refl _)

theorem queue_fifo_hello : ∃ node final answers, createQueue [113] {} = (some node, node.os) ∧
    run queueStep node [.push helloRecord, .push byeRecord, .pop {}, .pop {}] = .ok (final, answers) ∧
      returned answers = [helloRecord.body, byeRecord.body] ∧
      returned answers <+: accepted [.push helloRecord, .push byeRecord, .pop {}, .pop {}] answers ∧
      ∃ next body, queueStep final (.pop {}) = .ok (next, .got .getEnd body) := by
  obtain ⟨node, createEq, fifo⟩ := queue_fifo [113] {} [.push helloRecord, .push byeRecord, .pop {}, .pop {}]
    (by simp [QueueOp.Plain])
  obtain ⟨made, madeEq, rep⟩ := @createQueue_rep [113] {} (fun _ => rfl) (fun _ _ => ⟨rfl, rfl⟩)
  have same : made = node := Option.some.inj (congrArg Prod.fst (madeEq.symm.trans createEq))
  subst same
  have safe : Guarded queueStep RollSafe made [.push helloRecord, .push byeRecord, .pop {}, .pop {}] :=
    guarded_of_length rep (by simp [QueueModel.initial, Log.last])
  obtain ⟨final, answers, runEq, order, ends⟩ := fifo safe
  obtain ⟨_, knownEq, -⟩ := queueRun_rep rep safe
  rw [runEq] at knownEq
  obtain rfl := (Prod.mk.inj (Except.ok.inj knownEq)).2
  obtain ⟨next, ret, body, popEq, atEnd⟩ := ends {}
  obtain rfl := atEnd.mpr (by decide)
  exact ⟨made, final, _, createEq, runEq, by decide, order, next, body, popEq⟩

end Libucmq
