import Libucmq.Store.Fifo

/-! The file index is a 64-bit number that may wrap round. -/

namespace Libucmq

open Segments List Machine

structure Wrapped (queue : MqQueue) (os : Os) : Prop where
  writeIndex : queue.curWdb.curIndex = 0
  readIndex : 0 < (queue.curRdb.curIndex + 1).toNat
  unread : ¬ queue.putNum - queue.getNum < 1
  atEnd : queue.curRdb.pos.toNat = 67108864
  readMap : ∃ address file, queue.curRdb.mapMem = some address ∧
    os.maps address = some queue.curRdb.curIndex ∧ os.dir.db queue.curRdb.curIndex = some file
  apart : queue.curRdb.curIndex ≠ 0

theorem Wrapped.pop {queue : MqQueue} {os : Os} (wrapped : Wrapped queue os) (stack : MsgItem) :
    ∃ item after, mqQmPopItem queue os stack = .ok (.getEnd, item, after, os) := by
  obtain ⟨address, file, map, mapped, found⟩ := wrapped.readMap
  have memory : (GetState.mk (stampItem stack) queue os).readMemory = .ok (some file.bytes) := by
    simp [GetState.readMemory, map, Os.mapped, mapped, found]
  have going : (GetState.mk (stampItem stack) queue os).atEnd = false := by
    simp [GetState.atEnd, wrapped.writeIndex, wrapped.apart]
  have ends : Loop.EndsIn getDataStep 0 { item := stampItem stack, queue, os }
      (.ok (false, { item := stampItem stack, os
                     queue := { queue with
                       curRdb := { queue.curRdb with curIndex := queue.curWdb.curIndex } } })) := by
    apply Loop.EndsIn.of_end
    rw [getDataStep, going, memory]
    simp only [Bool.false_eq_true, ↓reduceIte,
      parseMsg_past (stampItem stack) (Nat.le_add_right_of_le wrapped.atEnd.ge) wrapped.atEnd.le]
    rw [getDataNextFile, getNextReadFile_last]
    rw [wrapped.writeIndex, UInt64.lt_iff_toNat_lt]
    exact wrapped.readIndex
  have fuel : 0 < getDataFuel queue := by
    rw [getDataFuel]
    exact Nat.mul_pos (by omega) (by simp)
  rw [mqQmPopItem, if_neg wrapped.unread, mqSmGetData, Loop.run_of_endsIn ends fuel]
  exact ⟨_, _, rfl⟩

variable {model : QueueModel}

theorem Rep.push_wraps {queue : MqQueue} {os : Os} (rep : Rep True queue os model) (record : Record)
    (isOpen : model.full = false) (full : model.fits record = false) (last : queue.curWdb.curIndex + 1 = 0)
    (positive : 0 < model.log.first) (behind : queue.curRdb.curIndex ≠ queue.curWdb.curIndex) : ∃ pushed after,
      mqQmPushItem queue os (newItem record.delay record.body) = .ok (.putOk, pushed, after) ∧
      pushed.curWdb.curIndex = 0 ∧ pushed.curRdb = queue.curRdb ∧
      pushed.putNum = queue.putNum + 1 ∧ pushed.getNum = queue.getNum ∧
      ∃ address file, queue.curRdb.mapMem = some address ∧ after.maps address = some queue.curRdb.curIndex ∧
        after.dir.db queue.curRdb.curIndex = some file := by
  obtain ⟨writeAddress, writeMap, writeMapped⟩ := rep.writeMap
  obtain ⟨readAddress, readMap, readMapped⟩ := rep.readMap
  obtain ⟨file, found, _⟩ := rep.head_file
  have headed := rep.write_head queue.curWdb.optCount
  obtain ⟨tagFd, offset, append, tagSame, tagOpen⟩ := headed.wtagFd
  have missing := (headed.tags trivial).noneBefore (queue.curWdb.curIndex + 1) (by rw [last]; exact positive)
  obtain ⟨rolled, after, nextEq, write⟩ := getNextWriteFile_rolled headed.reliable headed.fresh missing
    (fun fd same => by
      rw [tagSame] at same
      cases same
      exact headed.fresh.fd_lt tagOpen)
  have readNe : queue.curRdb.curIndex ≠ queue.curWdb.curIndex + 1 := by
    rw [last]
    intro zero
    have value := rep.readIndex
    rw [zero] at value
    simp only [UInt64.reduceToNat] at value
    omega
  obtain ⟨noted, place, pushEq, goes, maps⟩ := pushItem_rolled (rep.queueFull_eq.trans isOpen)
    ((rep.makeRoom_eq full).trans nextEq) write (write.goes.reliable headed.reliable) rep.sync
  have queueEq := write.queue_eq
  have keptMap : noted.maps readAddress = some queue.curRdb.curIndex := by
    rw [maps]
    refine (write.otherMaps readAddress (headed.fresh.map_lt readMapped) ?_).trans readMapped
    intro _ same
    rw [writeMap] at same
    cases same
    rw [writeMapped] at readMapped
    exact behind (Option.some.inj readMapped).symm
  have keptDb : noted.dir.db queue.curRdb.curIndex = some file := by
    rw [goes.dir]
    simp [readNe, Rep.rolled_db missing rfl write, behind, found]
  exact ⟨_, noted, pushEq, by rw [queueEq]; exact last, by rw [queueEq], by rw [queueEq], by rw [queueEq],
    readAddress, file, readMap, keptMap, keptDb⟩

def laps (wide : Record) : Nat → List QueueOp
  | 0 => []
  | count + 1 => .push wide :: .pop {} :: laps wide count

structure Lapped (wide : Record) (index : Nat) (model : QueueModel) : Prop where
  log : model.log = { first := index, done := [wide], rest := [], more := [] }
  modest : model.Modest

structure Lapping (wide : Record) (index : Nat) (model : QueueModel) : Prop where
  log : model.log = { first := index, done := [wide], rest := [], more := [[wide]] }
  modest : model.Modest

theorem QueueModel.Modest.not_full (modest : model.Modest)
    (few : model.unread.length < 100000000) : model.full = false := by
  have limit : defMaxQueue.toNat = 100000000 := rfl
  rw [← Bool.not_eq_true, modest.counted.full_iff (by omega), modest.limit]
  omega

theorem QueueModel.Modest.pop_log (modest : model.Modest) {record : Record}
    {log : Log Record} (taken : model.log.take = some (record, log)) : model.pop.1.log = log := by
  have waiting : model.unread ≠ [] := by
    rw [QueueModel.unread, Log.take_some taken]
    simp
  rw [QueueModel.pop, if_neg (modest.counted.empty_iff.not.mpr waiting), taken]
  simp

section

variable {wide : Record} {index : Nat} {model : QueueModel} (size : wide.size = 67108736)

include size

theorem Lapped.push (lapped : Lapped wide index model) : Lapping wide index (model.step (.push wide)).1 := by
  refine ⟨?_, @QueueModel.Modest.step _ lapped.modest (.push wide) trivial⟩
  have isOpen := lapped.modest.not_full (by simp [QueueModel.unread, lapped.log, Log.pending])
  have full : model.fits wide = false := by
    simp [QueueModel.fits, lapped.log, Log.tail, Log.segment, used, size, dbFileHeadLen]
  simp [QueueModel.step, QueueModel.push, isOpen, full, QueueModel.roll, QueueModel.store,
    QueueModel.note, lapped.log, Log.roll, Log.append]

omit size in
theorem Lapping.pop (lapping : Lapping wide index model) (stack : MsgItem) :
    Lapped wide (index + 1) (model.step (.pop stack)).1 := by
  refine ⟨?_, @QueueModel.Modest.step _ lapping.modest (.pop stack) trivial⟩
  apply lapping.modest.pop_log
  rw [lapping.log, Log.take_step rfl rfl, Log.take_waiting rfl]
  rfl

theorem lapped_one (stack : MsgItem) :
    Lapped wide 1 ((QueueModel.initial.step (.push wide)).1.step (.pop stack)).1 := by
  have modest := @QueueModel.Modest.step _ QueueModel.modest_initial (.push wide) trivial
  refine ⟨?_, @QueueModel.Modest.step _ modest (.pop stack) trivial⟩
  have isOpen : QueueModel.initial.full = false := by decide
  have room : QueueModel.initial.fits wide = true := by
    simp [QueueModel.fits, QueueModel.initial, Log.tail, Log.segment, size]
  have pushed : (QueueModel.initial.step (.push wide)).1.log =
      { first := 1, done := [], rest := [wide], more := [] } := by
    simp only [QueueModel.step, QueueModel.push, isOpen, room, Bool.false_eq_true, ↓reduceIte]
    rfl
  apply modest.pop_log
  rw [pushed, Log.take_waiting rfl]
  rfl

omit size in
theorem modelRun_laps (model : QueueModel) (count : Nat) : (modelRun model (laps wide (count + 1))).1 =
      (modelRun ((model.step (.push wide)).1.step (.pop {})).1 (laps wide count)).1 := by
  simp only [laps, modelRun, specRun]

theorem laps_model (count : Nat) (lapped : Lapped wide index model) :
    Lapped wide (index + count) (modelRun model (laps wide count)).1 := by
  induction count generalizing index model with
  | zero => exact lapped
  | succ count ih =>
    rw [← Nat.succ_add_eq_add_succ, modelRun_laps]
    exact ih ((lapped.push size).pop {})

omit size in
theorem guarded_lap {node : Node} {rest : List QueueOp} (rep : Rep True node.queue node.os model)
    (safe : RollSafe node (.push wide)) (later : ∀ popped : Node,
      Rep True popped.queue popped.os ((model.step (.push wide)).1.step (.pop {})).1 →
      Guarded queueStep RollSafe popped rest) : Guarded queueStep RollSafe node (.push wide :: .pop {} :: rest) := by
  refine ⟨safe, fun pushed answer pushEq => ⟨trivial, fun popped answer popEq => later popped ?_⟩⟩
  obtain ⟨_, reachedEq, pushedRep⟩ := queueStep_rep (.push wide) rep safe
  cases reachedEq.symm.trans pushEq
  obtain ⟨_, reachedEq, poppedRep⟩ := queueStep_rep (.pop {}) pushedRep trivial
  cases reachedEq.symm.trans popEq
  exact poppedRep

theorem laps_guarded {node : Node} (count : Nat) (rep : Rep True node.queue node.os model)
    (lapped : Lapped wide index model) (bound : index + count < 18446744073709551616) :
    Guarded queueStep RollSafe node (laps wide count) := by
  induction count generalizing index model node with
  | zero => trivial
  | succ count ih =>
    have safe : RollSafe node (.push wide) := by
      intro _
      rw [rep.writeIndex, lapped.log]
      simp only [Log.last, length_nil]
      omega
    exact guarded_lap rep safe fun popped poppedRep =>
      ih poppedRep ((lapped.push size).pop {}) (by omega)

theorem Lapping.wraps {node : Node} (rep : Rep True node.queue node.os model)
    (lapping : Lapping wide 18446744073709551614 model) :
    ∃ pushed popped, queueStep node (.push wide) = .ok (pushed, .put .putOk) ∧
      queueStep pushed (.pop {}) = .ok (popped, .got .getEnd []) := by
  have unread : model.unread = [wide] := by simp [QueueModel.unread, lapping.log, Log.pending]
  have isOpen := lapping.modest.not_full (by simp [unread])
  have full : model.fits wide = false := by
    simp [QueueModel.fits, lapping.log, Log.tail, Log.segment, used, size, dbFileHeadLen]
  have readIndex : node.queue.curRdb.curIndex = 18446744073709551614 := by
    apply UInt64.toNat_inj.mp
    rw [rep.readIndex, lapping.log]
    rfl
  have writeIndex : node.queue.curWdb.curIndex = 18446744073709551615 := by
    apply UInt64.toNat_inj.mp
    rw [rep.writeIndex, lapping.log]
    rfl
  obtain ⟨queue, os, pushEq, wrapped, read, put, get, address, file, map, mapped, found⟩ :=
    rep.push_wraps wide isOpen full (by rw [writeIndex]; rfl) (by rw [lapping.log]; simp)
      (by rw [readIndex, writeIndex]; decide)
  have waiting : ¬ queue.putNum - queue.getNum < 1 := by
    have counted := lapping.modest.counted.difference
    rw [unread] at counted
    rw [put, get, rep.putNum, rep.getNum, UInt64.lt_iff_toNat_lt,
      show model.putNum + 1 - model.getNum = model.putNum - model.getNum + 1 by grind,
      UInt64.toNat_add, counted]
    simp
  have atEnd : queue.curRdb.pos.toNat = 67108864 := by
    have place := rep.readPos
    simp only [ReadPos, lapping.log, cons_ne_self, false_and, or_false] at place
    rw [read, place]
    simp [used, size, dbFileHeadLen]
  obtain ⟨item, after, popEq⟩ := @Wrapped.pop queue os
    ⟨wrapped, by rw [read, readIndex]; decide, waiting, atEnd,
      ⟨address, file, by rw [read]; exact map, by rw [read]; exact mapped, by rw [read]; exact found⟩,
      by rw [read, readIndex]; decide⟩ {}
  exact ⟨{ queue, os }, { queue := after, os }, by rw [queueStep, pushEq], by rw [queueStep, popEq]; rfl⟩

end

theorem accepted_concat {ops : List QueueOp} {answers : List QueueAnswer}
    (length : answers.length = ops.length) (op : QueueOp) (answer : QueueAnswer) :
    accepted (ops ++ [op]) (answers ++ [answer]) = accepted ops answers ++ accepted [op] [answer] := by
  induction ops generalizing answers with
  | nil =>
    obtain rfl := length_eq_zero_iff.mp length
    simp [accepted]
  | cons first ops ih =>
    obtain ⟨head, rest, rfl⟩ := exists_cons_of_length_eq_add_one length
    rw [cons_append, cons_append, accepted_cons, accepted_cons first head ops rest, ih (by simpa using length),
      append_assoc]

theorem returned_append (front back : List QueueAnswer) :
    returned (front ++ back) = returned front ++ returned back := by
  induction front with
  | nil => rfl
  | cons answer front ih =>
    rw [cons_append, returned_cons, returned_cons answer front, ih, append_assoc]

theorem modelRun_length (model : QueueModel) (ops : List QueueOp) : (modelRun model ops).2.length = ops.length := by
  induction ops generalizing model with
  | nil => rfl
  | cons op ops ih => simp [specRun, ih]

theorem laps_lose {wide : Record} (size : wide.size = 67108736) {count : Nat}
    (all : count + 3 = 18446744073709551616) (qname : List UInt8) :
    ∃ node final next answers, createQueue qname {} = (some node, node.os) ∧
      run queueStep node ((laps wide (count + 1) ++ [.push wide]) ++ [.push wide]) = .ok (final, answers) ∧
      queueStep final (.pop {}) = .ok (next, .got .getEnd []) ∧
      returned answers ≠ accepted ((laps wide (count + 1) ++ [.push wide]) ++ [.push wide]) answers := by
  obtain ⟨node, createEq, rep⟩ := @createQueue_rep qname {} (fun _ => rfl) (fun _ _ => ⟨rfl, rfl⟩)
  have lapped : Lapped wide 18446744073709551614 (modelRun QueueModel.initial (laps wide (count + 1))).1 := by
    rw [show 18446744073709551614 = 1 + count by omega, modelRun_laps]
    exact laps_model size count (lapped_one size {})
  have safe : RollSafe node (.push wide) := by
    intro _
    rw [rep.writeIndex]
    decide
  have guarded : Guarded queueStep RollSafe node (laps wide (count + 1)) :=
    guarded_lap rep safe fun popped poppedRep =>
      laps_guarded size count poppedRep (lapped_one size {}) (by omega)
  obtain ⟨reached, runEq, reachedRep⟩ := queueRun_rep rep guarded
  obtain ⟨last, lastEq, lastRep⟩ := queueStep_rep (.push wide) reachedRep (by
    intro _
    rw [reachedRep.writeIndex, lapped.log]
    simp [Log.last])
  obtain ⟨final, next, pushEq, popEq⟩ := (lapped.push size).wraps size lastRep
  refine ⟨node, final, next, _, createEq, run_concat (run_concat runEq lastEq) pushEq,
    popEq, ?_⟩
  have length := modelRun_length QueueModel.initial (laps wide (count + 1))
  have balance := modelRun_balance QueueModel.initial (laps wide (count + 1))
  rw [show QueueModel.initial.bodies = [] from rfl, nil_append,
    show (modelRun QueueModel.initial (laps wide (count + 1))).1.bodies = [] by
      simp [QueueModel.bodies, QueueModel.unread, lapped.log, Log.pending], append_nil] at balance
  rw [accepted_concat (by simp [length]), accepted_concat length, returned_append, returned_append, balance]
  simp [accepted, returned, QueueModel.step]

theorem queue_fifo_wraps : ∃ node final next answers, createQueue [113] {} = (some node, node.os) ∧
      run queueStep node
        ((laps wideRecord (18446744073709551613 + 1) ++ [.push wideRecord]) ++ [.push wideRecord]) =
          .ok (final, answers) ∧ queueStep final (.pop {}) = .ok (next, .got .getEnd []) ∧ returned answers ≠
        accepted ((laps wideRecord (18446744073709551613 + 1) ++ [.push wideRecord]) ++ [.push wideRecord]) answers :=
  laps_lose (zeroRecord_size _ _ _) (by decide) [113]

end Libucmq
