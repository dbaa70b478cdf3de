import Libucmq.Store.Sessions

/-! What the last line of the write tag is worth after a restart. -/

namespace Libucmq

open Segments List Machine

def CountSafe (node : Node) : QueueOp → Prop
  | .push _ => queueFull node.queue = false → node.queue.putNum.toNat + 1 < 18446744073709551616
  | _ => True

def StepSafe (store : Store) (op : StoreOp) : Prop :=
  SessionSafe store op ∧
    match op with
    | .call qname op => ∀ node, mqQmFindQueue store qname = some node → CountSafe node op
    | _ => True

namespace QueueModel

def Covered (model : QueueModel) : Prop :=
  model.getNum.toNat + model.unread.length ≤ model.putNum.toNat

variable {model : QueueModel}

theorem Covered.nonempty (covered : model.Covered) (waiting : model.unread ≠ []) :
    ¬ model.putNum - model.getNum < 1 := by
  have positive := length_pos_iff.mpr waiting
  have order : model.getNum ≤ model.putNum := by
    rw [UInt64.le_iff_toNat_le]
    rw [Covered] at covered
    omega
  rw [Covered] at covered
  rw [UInt64.lt_iff_toNat_lt, UInt64.toNat_sub_of_le _ _ order]
  simp only [UInt64.reduceToNat]
  omega

theorem Covered.pop (covered : model.Covered) {record : Record}
    {rest : List Record} (waiting : model.unread = record :: rest) :
    model.pop.2 = some record ∧ model.pop.1.unread = rest ∧ model.pop.1.Covered := by
  rcases model.pop_unread with ⟨_, _, _, _, _, why⟩ | ⟨found, popEq, removed, get, put, _⟩
  · rcases why with short | empty
    · exact absurd short (covered.nonempty (by simp [waiting]))
    · simp [waiting] at empty
  · obtain ⟨rfl, same⟩ := List.cons.inj (waiting.symm.trans removed)
    refine ⟨popEq, same.symm, ?_⟩
    rw [Covered, waiting, length_cons] at covered
    obtain ⟨newGet, newPut⟩ := count_toNat (show model.getNum.toNat < model.putNum.toNat by omega)
    rw [Covered, get, put, newGet, newPut, ← same]
    split <;> omega

theorem Covered.push (covered : model.Covered) (record : Record)
    (safe : (model.push record).2 = .putOk → model.putNum.toNat + 1 < 18446744073709551616) :
    (model.push record).1.Covered := by
  rcases model.push_unread record with ⟨_, same⟩ | ⟨ok, added, put, get, _⟩
  · rw [same]
    exact covered
  · have room := safe ok
    rw [Covered] at covered
    rw [Covered, added, put, get, UInt64.toNat_add]
    simp only [UInt64.reduceToNat, length_append, length_singleton]
    omega

structure Noted (model : QueueModel) : Prop where
  covered : model.Covered
  ahead : model.putNum.toNat ≤ model.noted.putNum.toNat
  pos : model.noted.pos.toNat = used model.log.tail ∨ model.log.more = [] ∧ model.log.tail = []

theorem noted_initial : Noted initial := ⟨Nat.le_refl _, Nat.le_refl _, Or.inr ⟨rfl, rfl⟩⟩

theorem note_pos (room : used model.log.tail ≤ 67108864) : model.note.noted.pos.toNat = used model.note.log.tail := by
  simp only [note, UInt32.toNat_ofNat']
  omega

theorem Noted.push (noted : model.Noted) (record : Record)
    (safe : (model.push record).2 = .putOk → model.putNum.toNat + 1 < 18446744073709551616) :
    (model.push record).1.Noted := by
  refine ⟨noted.covered.push record safe, ?_, ?_⟩
  · unfold QueueModel.push
    split
    · exact noted.ahead
    · split <;> exact Nat.le_refl _
  · unfold QueueModel.push
    split
    · exact noted.pos
    · have size := record.size_le
      left
      split
      · rename_i fits
        apply note_pos
        have room : used model.log.tail + record.size ≤ 67108864 := of_decide_eq_true fits
        simpa [store, Log.append_tail, used_concat] using room
      · apply note_pos
        simp only [store, roll, Log.append_tail, Log.roll_tail, nil_append]
        simpa [used, dbFileHeadLen] using (show 128 + record.size ≤ 67108864 by omega)

theorem pop_noted (model : QueueModel) : model.pop.1.noted = model.noted ∧ model.pop.1.lines = model.lines ∧
      model.pop.1.log.tail = model.log.tail ∧ model.pop.1.log.last = model.log.last ∧
      (model.log.more = [] → model.pop.1.log.more = []) := by
  unfold QueueModel.pop
  split
  · exact ⟨rfl, rfl, rfl, rfl, id⟩
  · cases taken : model.log.take with
    | none =>
      exact ⟨rfl, rfl, Log.settle_tail _, Log.settle_last _, fun alone => by simpa [Log.settle_alone alone]⟩
    | some pair =>
      obtain ⟨record, log⟩ := pair
      simp only [count_eq]
      refine ⟨trivial, trivial, Log.take_tail taken, Log.take_last taken, fun alone => ?_⟩
      obtain ⟨_, _, rfl⟩ := Log.take_settle taken
      simpa [Log.settle_alone alone] using alone

theorem Noted.pop (noted : model.Noted) : model.pop.1.Noted := by
  obtain ⟨line, _, tail, _, alone⟩ := model.pop_noted
  have ahead := noted.ahead
  have covered := noted.covered
  rw [Covered] at covered
  have place : model.pop.1.noted.pos.toNat = used model.pop.1.log.tail ∨
      model.pop.1.log.more = [] ∧ model.pop.1.log.tail = [] := by
    rw [line, tail]
    exact noted.pos.imp id fun ⟨more, empty⟩ => ⟨alone more, empty⟩
  rcases model.pop_unread with ⟨_, same, put, get, _⟩ | ⟨record, _, removed, get, put, _⟩
  · exact ⟨by rw [Covered, same, put, get]; exact covered, by rw [line, put]; exact ahead, place⟩
  · rw [removed, length_cons] at covered
    obtain ⟨newGet, newPut⟩ := count_toNat (show model.getNum.toNat < model.putNum.toNat by omega)
    refine ⟨?_, ?_, place⟩
    · rw [Covered, get, put, newGet, newPut]
      split <;> omega
    · rw [line, put, newPut]
      split <;> omega

theorem Noted.step (noted : model.Noted) (room : used model.log.tail ≤ 67108864) (op : QueueOp)
    (safe : (model.step op).2 = .put .putOk → model.putNum.toNat + 1 < 18446744073709551616) :
    (model.step op).1.Noted := by
  cases op with
  | push record => exact noted.push record fun ok => safe (by rw [QueueModel.step, ok])
  | pop stack => exact noted.pop
  | setMaxqueue maxque => exact ⟨noted.covered, Nat.le_refl _, Or.inl (note_pos room)⟩

theorem Noted.reopened (noted : model.Noted) : model.reopened.Noted :=
  ⟨Nat.le_trans noted.covered noted.ahead, Nat.le_refl _, noted.pos⟩

end QueueModel

theorem Rep.noted_step {node : Node} (rep : Rep True node.queue node.os model)
    (noted : model.Noted) (op : QueueOp) (safe : CountSafe node op) : (model.step op).1.Noted := by
  obtain ⟨file, _, holds⟩ := rep.tail_file
  refine noted.step holds.room op fun ok => ?_
  cases op with
  | push record =>
    rw [← rep.putNum]
    apply safe
    rw [rep.queueFull_eq]
    rcases model.push_unread record with ⟨full, _⟩ | ⟨_, _, _, _, _, isOpen⟩
    · simp [QueueModel.step, full] at ok
    · exact isOpen
  | pop stack =>
    simp only [QueueModel.step] at ok
    split at ok <;> cases ok
  | setMaxqueue maxque => cases ok

theorem storeRun_noted {ops : List StoreOp} (safe : Guarded storeStep StepSafe {} ops) :
    ∃ store, run storeStep {} ops = .ok (store, (storeModelRun {} ops).2) ∧
      Shows store (storeModelRun {} ops).1 ∧ (storeModelRun {} ops).1.All QueueModel.Noted :=
  storeRun_all (fun _ _ _ _ _ allowed => allowed.1) QueueModel.noted_initial
    (fun _ _ op node _ allowed found rep noted => rep.noted_step noted op (allowed.2 node found))
    (fun _ _ _ _ _ _ _ _ noted => noted.reopened) safe

def Delivers (node : Node) (waiting : List (List UInt8)) : Prop :=
  ∀ stack, ∃ final, run queueStep node (waiting.map fun _ => .pop stack) =
    .ok (final, waiting.map fun body => .got .getOk body)

theorem Rep.delivers {kept : Prop} {node : Node}
    (rep : Rep kept node.queue node.os model) (covered : model.Covered) : Delivers node model.bodies := by
  intro stack
  rw [QueueModel.bodies]
  generalize waiting : model.unread = records
  induction records generalizing node model with
  | nil => exact ⟨node, rfl⟩
  | cons record rest ih =>
    obtain ⟨popEq, later, stillCovered⟩ := covered.pop waiting
    obtain ⟨next, stepEq, nextRep⟩ := queueStep_rep (.pop stack) rep trivial
    obtain ⟨final, runEq⟩ := ih nextRep stillCovered later
    rw [QueueModel.step, popEq] at stepEq
    exact ⟨final, run_cons stepEq runEq⟩

end Libucmq
