import Libucmq.Store.Pop

/-! A new queue stands for the empty model, and every call is a step of it. -/

namespace Libucmq

open Segments Machine

theorem creatDb_spec (qname : List UInt8) {os : Os} (reliable : os.Reliable) (fresh : os.Fresh) :
    ∃ after, mqSmCreatDb { qname } os = (true,
          { qname, rtagFd := some os.nextHandle, wtagFd := some (os.nextHandle + 1)
            maxque := defMaxQueue
            curRdb := { fd := some (os.nextHandle + 2), flag := 1, mapMem := some (os.nextHandle + 3),
                        curIndex := 1 }
            curWdb := { fd := some (os.nextHandle + 2), flag := 1, mapMem := some (os.nextHandle + 3),
                        curIndex := 1 } }, after) ∧
      after.Reliable ∧ after.Fresh ∧
      after.fds os.nextHandle = some (.tag .rtag 1 (rtagItem 0 0).length false) ∧
      after.fds (os.nextHandle + 1) = some (.tag .wtag 1 (wtagItem 0 0 defMaxQueue).length false) ∧
      after.fds (os.nextHandle + 2) = some (.db 1) ∧
      after.maps (os.nextHandle + 3) = some 1 ∧
      (∀ index, after.dir.db index = if index = 1 then some blankFile else none) ∧
      (∀ index, after.dir.tag .rtag index = if index = 1 then some (rtagItem 0 0) else none) ∧
      (∀ index, after.dir.tag .wtag index =
        if index = 1 then some (wtagItem 0 0 defMaxQueue) else none) := by
  obtain ⟨created, createEq, goes, dirEq, fdsEq, mapsEq, nextEq⟩ :=
    @openDbFile_create
      ((((((((os.tick.emit .wipe).tick).tick.emit (.createTag .rtag 1)).setFd os.nextHandle
        (some (.tag .rtag 1 0 false))).allot.tick.emit (.createTag .wtag 1)).setFd (os.nextHandle + 1)
        (some (.tag .wtag 1 0 false))).allot)) 1 (by simpa using reliable) (by simp [QueueDir.apply])
  have createdReliable : created.Reliable := goes.reliable (by simpa using reliable)
  simp only [Os.allot_nextHandle, Os.setFd_nextHandle, Os.emit_nextHandle, Os.tick_nextHandle,
    Nat.add_assoc, Nat.reduceAdd] at createEq fdsEq mapsEq nextEq
  have rtagFd : created.fds os.nextHandle = some (.tag .rtag 1 0 false) := by simp [fdsEq]
  have wtagFd : created.fds (os.nextHandle + 1) = some (.tag .wtag 1 0 false) := by simp [fdsEq]
  simp only [mqSmCreatDb, Os.attempt_reliable reliable]
  rw [Os.attempt_reliable (by simpa using reliable)]
  simp only [Bool.not_true, Bool.false_eq_true, ↓reduceIte]
  rw [openTag_create _ _ (by simpa using reliable)]
  simp only
  rw [openTag_create _ _ (by simpa using reliable)]
  simp only [Os.allot_nextHandle, Os.setFd_nextHandle, Os.emit_nextHandle, Os.tick_nextHandle]
  rw [createEq]
  simp only [mqSmRtagWriteItem, mqSmWtagWriteItem]
  rw [writeN_reliable _ createdReliable rtagFd]
  rw [writeN_reliable _ (by simpa using createdReliable) (by simpa using wtagFd)]
  refine ⟨_, rfl, by simpa using createdReliable, ?_, ?_, ?_, ?_, ?_, ?_, ?_, ?_⟩
  · intro handle late
    simp only [Os.setFd_nextHandle, Os.emit_nextHandle, Os.tick_nextHandle, nextEq] at late
    have unused := fresh handle (by omega)
    have later : handle ≠ os.nextHandle ∧ handle ≠ os.nextHandle + 1 ∧
        handle ≠ os.nextHandle + 2 ∧ handle ≠ os.nextHandle + 3 := by omega
    simp [fdsEq, mapsEq, unused, later]
  · simp
  · simp
  · simp [fdsEq]
  · simp [mapsEq]
  · intro index
    simp [dirEq, QueueDir.apply]
  · intro index
    by_cases one : index = 1 <;> simp [dirEq, QueueDir.apply_createTag_tag, overwrite, one]
  · intro index
    by_cases one : index = 1 <;> simp [dirEq, QueueDir.apply_createTag_tag, overwrite, one]

theorem createQueue_rep (qname : List UInt8) {os : Os} (reliable : os.Reliable) (fresh : os.Fresh) :
    ∃ node, createQueue qname os = (some node, node.os) ∧ Rep True node.queue node.os QueueModel.initial := by
  obtain ⟨after, createEq, afterReliable, afterFresh, rtagFd, wtagFd, dbFd, map, db, rtag, wtag⟩ :=
    creatDb_spec (qname.take maxQueueNameLen) reliable fresh
  refine ⟨_, by rw [createQueue, createEq], ?_⟩
  exact
    { reliable := afterReliable
      fresh := afterFresh
      readIndex := rfl
      writeIndex := rfl
      readMap := ⟨_, rfl, map⟩
      writeMap := ⟨_, rfl, map⟩
      readFd := ⟨_, rfl, dbFd⟩
      writeFd := ⟨_, rfl, dbFd⟩
      rtagFd := ⟨_, _, _, rfl, rtagFd⟩
      wtagFd := ⟨_, _, _, rfl, wtagFd⟩
      files := by
        intro index lower upper
        have one : index = 1 := by
          apply UInt64.toNat_inj.mp
          simp only [QueueModel.initial, Log.last, List.length_nil] at lower upper
          simp only [UInt64.reduceToNat]
          omega
        refine ⟨blankFile, by rw [db, if_pos one], ?_⟩
        simpa [one, QueueModel.initial, Log.segment] using blankFile_holds
      absent := by
        intro index late
        rw [db, if_neg]
        rintro rfl
        simp [QueueModel.initial, Log.last] at late
      readPos := Or.inl rfl
      writePos := rfl
      putNum := rfl
      getNum := rfl
      maxque := rfl
      sync := rfl
      tags := fun _ =>
        { rtag := ⟨[], 0, Or.inr ⟨rfl, by simp⟩, by simp [rtagItem_length, QueueModel.initial],
            by rw [rtag]; rfl, _, _, _, rfl, rtagFd, fun _ => rfl⟩
          wtag := ⟨_, by simp [wtagItem_length, QueueModel.initial], by rw [wtag]; rfl, _, _, _, rfl,
            wtagFd, fun _ => rfl⟩
          rtagAlone := fun index other => (rtag index).trans (if_neg other)
          wtagAlone := fun index other => (wtag index).trans (if_neg other)
          noneBefore := by
            intro index early
            rw [db, if_neg]
            rintro rfl
            simp [QueueModel.initial] at early
          line := ⟨[], by rw [wtag]; rfl⟩ } }

def RollSafe (node : Node) : QueueOp → Prop
  | .push record => writeFull node.queue record.item = true →
      node.queue.curWdb.curIndex.toNat + 1 < 18446744073709551616
  | _ => True

theorem queueStep_rep {kept : Prop} {node : Node} {model : QueueModel} (op : QueueOp)
    (rep : Rep kept node.queue node.os model) (safe : RollSafe node op) :
    ∃ next, queueStep node op = .ok (next, (model.step op).2) ∧ Rep kept next.queue next.os (model.step op).1 := by
  cases op with
  | push record =>
    obtain ⟨queue, os, pushEq, pushed⟩ := rep.push record (fun _ full => by
      rw [← rep.writeIndex]
      exact safe (by rw [rep.writeFull_eq, full]; rfl))
    exact ⟨{ queue, os }, by rw [queueStep, pushEq]; rfl, pushed⟩
  | pop stack =>
    obtain ⟨item, queue, os, popEq, popped, itemEq⟩ := rep.pop stack
    refine ⟨{ queue, os }, ?_, popped⟩
    rw [queueStep, popEq]
    simp only [QueueModel.step]
    cases found : model.pop.2 with
    | none => simp
    | some record => simp [itemEq record found]
  | setMaxqueue maxque => exact ⟨_, rfl, rep.setMaxqueue maxque⟩

theorem queueRun_rep {kept : Prop} {node : Node} {model : QueueModel} {ops : List QueueOp}
    (rep : Rep kept node.queue node.os model) (safe : Guarded queueStep RollSafe node ops) :
    ∃ final, run queueStep node ops = .ok (final, (specRun QueueModel.step model ops).2) ∧
      Rep kept final.queue final.os (specRun QueueModel.step model ops).1 :=
  @Machine.run_simulation _ _ _ _ _ queueStep RollSafe QueueModel.step
    (fun node model => Rep kept node.queue node.os model)
    (fun _ _ op related guard => queueStep_rep op related guard) node model ops rep safe

end Libucmq
