import Libucmq.Store.Counters

/-! What `mq_store_get` has done when it does not hand out a message. -/

namespace Libucmq

open Segments Machine

inductive GetEnd
  | copied (msg : List UInt8)
  | refused
  | asserted
deriving DecidableEq, Repr

def storeGetEnds (api : Api) (qname : List UInt8) (stack : MsgItem) (msgLen : UInt32) :
    Except Abort (GetEnd × Api) :=
  if check : qnameCheck qname = true then
    match mqQmFindQueue api.store ⟨qname, check⟩ with
    | none => .ok (.refused, api)
    | some node =>
      match mqQmPopItem node.queue node.os stack with
      | .error abort => .error abort
      | .ok (.getOk, item, queue, os) =>
        let after : Api :=
          { store := api.store.put ⟨qname, check⟩ { queue, os }
            info := { api.info with get := api.info.get + 1, count := api.info.count - 1 } }
        .ok (if msgLen = item.len then .copied item.msg else .asserted, after)
      | .ok (_, _, queue, os) =>
        .ok (.refused, { api with store := api.store.put ⟨qname, check⟩ { queue, os } })
  else .ok (.refused, api)

theorem storeGetEnds_eq (api : Api) (qname : List UInt8) (stack : MsgItem) (msgLen : UInt32) :
    mqStoreGet api qname stack msgLen =
      match storeGetEnds api qname stack msgLen with
      | .error abort => .error abort
      | .ok (.copied msg, after) => .ok (some msg, after)
      | .ok (.refused, after) => .ok (none, after)
      | .ok (.asserted, _) => .error .assertion := by
  rw [mqStoreGet, storeGetEnds]
  by_cases check : qnameCheck qname = true
  · rw [dif_pos check, dif_pos check]
    cases mqQmFindQueue api.store ⟨qname, check⟩ with
    | none => rfl
    | some node =>
      cases popEq : mqQmPopItem node.queue node.os stack with
      | error abort => simp only [popEq]
      | ok result =>
        obtain ⟨ret, item, queue, os⟩ := result
        cases ret with
        | getOk => by_cases size : msgLen = item.len <;> simp only [popEq, size, ↓reduceIte]
        | getEnd => simp only [popEq]
        | getError => simp only [popEq]
  · rw [dif_neg check, dif_neg check]

def Drains (node : Node) (waiting : List (List UInt8)) : Prop :=
  ∀ stack, ∃ final, run queueStep node (waiting.map (fun _ => .pop stack) ++ [.pop stack]) =
    .ok (final, waiting.map (.got .getOk) ++ [.got .getEnd []])

structure SameUnread (node next : Node) : Prop where
  unread : ∀ waiting, Drains node waiting ↔ Drains next waiting
  rtag : ∀ index, next.os.dir.tag .rtag index = node.os.dir.tag .rtag index

theorem SameUnread.refl (node : Node) : SameUnread node node := ⟨fun _ => Iff.rfl, fun _ => rfl⟩

structure Unconsumed (api after : Api) : Prop where
  queues : ∀ qname, Option.Rel SameUnread (mqQmFindQueue api.store qname) (mqQmFindQueue after.store qname)
  count : after.info.count = api.info.count

/-- The first unread record has the length asked for; with none left, the counters or the read file say so. -/
structure GetSafe (model : QueueModel) (msgLen : UInt32) : Prop where
  length : ∀ record rest, model.unread = record :: rest → model.putNum ≠ model.getNum → msgLen = record.item.len
  stays : model.unread = [] → model.putNum = model.getNum ∨ model.log.first = model.log.last

theorem same_of_found {found : Option Node} : Option.Rel SameUnread found found := by
  cases found with
  | none => exact .none
  | some node => exact .some (SameUnread.refl node)

theorem unconsumed_put {api : Api} {qname : QueueName} {node next : Node}
    (found : mqQmFindQueue api.store qname = some node) (same : SameUnread node next) :
    Unconsumed api { api with store := api.store.put qname next } := by
  refine ⟨fun query => ?_, rfl⟩
  rw [find_put, found]
  by_cases here : query = qname
  · rw [if_pos here, here, found]
    exact .some same
  · rw [if_neg here]
    exact same_of_found

theorem Unconsumed.of_put {api : Api} {info : AppInfo} {qname : QueueName} {node next : Node}
    (found : mqQmFindQueue api.store qname = some node)
    (kept : Unconsumed api { store := api.store.put qname next, info }) : SameUnread node next := by
  have here := kept.queues qname
  rw [find_put, if_pos rfl, found] at here
  cases here with
  | some same => exact same

theorem difference_none {put get : UInt64} : put - get < 1 ↔ put = get := by
  constructor
  · intro short
    rw [UInt64.lt_iff_toNat_lt] at short
    have zero : put - get = 0 := UInt64.toNat_inj.mp (by simp only [UInt64.reduceToNat] at short ⊢; omega)
    grind
  · rintro rfl
    rw [UInt64.sub_self]
    decide

theorem QueueModel.pop_cases (model : QueueModel) :
    (model.pop.2 = none ∧ (model.putNum = model.getNum ∨ model.unread = [])) ∨
      ∃ record rest, model.pop.2 = some record ∧ model.putNum ≠ model.getNum ∧ model.unread = record :: rest := by
  rw [QueueModel.pop]
  split
  · next short => exact .inl ⟨rfl, .inl (difference_none.mp short)⟩
  · next long =>
      cases taken : model.log.take with
      | none => exact .inl ⟨rfl, .inr (Log.take_none.mp taken)⟩
      | some result =>
          exact .inr ⟨result.1, _, rfl, fun same => long (difference_none.mpr same), Log.take_some taken⟩

namespace Rep

variable {node next : Node} {model : QueueModel}

section

variable (rep : Rep True node.queue node.os model)

include rep

theorem drains_none (absent : model.pop.2 = none)
    (waiting : List (List UInt8)) : Drains node waiting ↔ waiting = [] := by
  have ends : ∀ stack, ∃ next, queueStep node (.pop stack) = .ok (next, .got .getEnd []) := by
    intro stack
    obtain ⟨next, stepEq, _⟩ := queueStep_rep (.pop stack) rep trivial
    rw [QueueModel.step, absent] at stepEq
    exact ⟨next, stepEq⟩
  constructor
  · intro drains
    cases waiting with
    | nil => rfl
    | cons body rest =>
      obtain ⟨final, runEq⟩ := drains {}
      obtain ⟨next, stepEq⟩ := ends {}
      obtain ⟨_, answer, _, firstEq, _, answersEq⟩ := run_cons_ok runEq
      rw [stepEq] at firstEq
      cases firstEq
      cases answersEq
  · rintro rfl stack
    obtain ⟨next, stepEq⟩ := ends stack
    exact ⟨next, run_cons stepEq (run_nil _ _)⟩

theorem drains_some {record : Record} {waiting : List (List UInt8)} (taken : model.pop.2 = some record)
    (later : ∀ next : Node, Rep True next.queue next.os model.pop.1 → Drains next waiting) :
    Drains node (record.body :: waiting) := by
  intro stack
  obtain ⟨next, stepEq, nextRep⟩ := queueStep_rep (.pop stack) rep trivial
  rw [QueueModel.step, taken] at stepEq
  obtain ⟨final, runEq⟩ := later next nextRep stack
  exact ⟨final, run_cons stepEq runEq⟩

theorem rtag_moved {after : QueueModel}
    (nextRep : Rep True next.queue next.os after) (moved : after.log.first ≠ model.log.first) :
    next.os.dir.tag .rtag node.queue.curRdb.curIndex ≠ node.os.dir.tag .rtag node.queue.curRdb.curIndex := by
  obtain ⟨front, pos, _, _, here, _⟩ := (rep.tags trivial).rtag
  have gone := (nextRep.tags trivial).rtagAlone node.queue.curRdb.curIndex (by
    intro same
    rw [← nextRep.readIndex, ← rep.readIndex, same] at moved
    exact moved rfl)
  rw [gone, here]
  exact (Option.some_ne_none _).symm

theorem same_file_iff : node.queue.curRdb.curIndex = node.queue.curWdb.curIndex ↔ model.log.more = [] := by
  rw [← UInt64.toNat_inj, rep.readIndex, rep.writeIndex, Log.last, ← List.length_eq_zero_iff]
  omega

theorem pop_end (absent : model.pop.2 = none) (stack : MsgItem) :
    ∃ item next, mqQmPopItem node.queue node.os stack = .ok (.getEnd, item, next.queue, next.os) ∧
      (SameUnread node next ↔
        node.queue.putNum = node.queue.getNum ∨ node.queue.curRdb.curIndex = node.queue.curWdb.curIndex) := by
  by_cases short : node.queue.putNum - node.queue.getNum < 1
  · refine ⟨stampItem stack, node, by rw [mqQmPopItem, if_pos short], ?_⟩
    exact iff_of_true (SameUnread.refl node) (Or.inl (difference_none.mp short))
  · have taken : model.log.take = none := by
      rw [rep.putNum, rep.getNum] at short
      rw [QueueModel.pop, if_neg short] at absent
      cases taken : model.log.take with
      | none => rfl
      | some pair => simp [taken] at absent
    rw [rep.same_file_iff]
    by_cases alone : model.log.more = []
    · have rest : model.log.rest = [] := by
        have exhausted := Log.take_none.mp taken
        rw [Log.pending, alone] at exhausted
        simpa using exhausted
      obtain ⟨count, few, finish⟩ := rep.ends rest alone (stampItem stack)
      have getEq := rep.mqSmGetData_of_ends finish (by rw [alone]; simp; omega)
      refine ⟨stampItem stack, ⟨node.queue.seek node.queue.curWdb.pos, node.os⟩, ?_, ?_⟩
      · rw [mqQmPopItem, if_neg short, getEq]
        rfl
      · refine iff_of_true ⟨fun waiting => ?_, fun _ => rfl⟩ (Or.inr alone)
        have atWrite := rep.atWrite rest alone
        rw [rep.drains_none absent,
          @drains_none ⟨node.queue.seek node.queue.curWdb.pos, node.os⟩ model atWrite absent]
    · obtain ⟨item, popped, os, popEq, poppedRep, _⟩ := rep.pop stack
      rw [absent] at popEq
      refine ⟨item, ⟨popped, os⟩, popEq, iff_of_false (fun same => ?_) ?_⟩
      · have first : model.pop.1.log.first ≠ model.log.first := by
          have rest : model.log.settle.rest = [] := by
            rw [Log.take] at taken
            split at taken
            · assumption
            · cases taken
          have popped : model.pop.1 = { model with log := model.log.settle } := by
            rw [rep.putNum, rep.getNum] at short
            rw [QueueModel.pop, if_neg short, taken]
          rw [popped, Log.settle_first rest, Log.last]
          have positive := List.length_pos_iff.mpr alone
          omega
        exact @rtag_moved node ⟨popped, os⟩ model rep _ poppedRep first (same.rtag _)
      · rintro (equal | single)
        · exact short (difference_none.mpr equal)
        · exact alone single

theorem pop_some {record : Record} (taken : model.pop.2 = some record) (stack : MsgItem) :
    ∃ next : Node, mqQmPopItem node.queue node.os stack = .ok (.getOk, record.item, next.queue, next.os) ∧
      Rep True next.queue next.os model.pop.1 := by
  obtain ⟨item, popped, os, popEq, poppedRep, itemEq⟩ := rep.pop stack
  rw [taken, itemEq record taken] at popEq
  exact ⟨⟨popped, os⟩, popEq, poppedRep⟩

theorem rtag_grown {after : QueueModel} (nextRep : Rep True next.queue next.os after)
    (same : after.log.first = model.log.first) (grown : after.log.done.length ≠ model.log.done.length) :
    next.os.dir.tag .rtag node.queue.curRdb.curIndex ≠ node.os.dir.tag .rtag node.queue.curRdb.curIndex := by
  obtain ⟨front, pos, _, length, here, _⟩ := (rep.tags trivial).rtag
  obtain ⟨nextFront, nextPos, _, nextLength, there, _⟩ := (nextRep.tags trivial).rtag
  have index : next.queue.curRdb.curIndex = node.queue.curRdb.curIndex := by
    rw [← UInt64.toNat_inj, nextRep.readIndex, rep.readIndex, same]
  rw [← index, there, index, here]
  intro equal
  rw [Option.some.inj equal, length] at nextLength
  omega

end

end Rep

/-- Nothing is consumed uncopied, but for another length or wrong counters. -/
theorem get_unconsumed_iff (api : Api) (models : QueueName → QueueModel)
    (sound : ∀ qname node, mqQmFindQueue api.store qname = some node →
      Rep True node.queue node.os (models qname)) (qname : List UInt8) (stack : MsgItem) (msgLen : UInt32) :
    (∃ ends after, storeGetEnds api qname stack msgLen = .ok (ends, after) ∧
      ((∀ msg, ends ≠ .copied msg) → Unconsumed api after)) ↔
      ∀ check node, mqQmFindQueue api.store ⟨qname, check⟩ = some node → GetSafe (models ⟨qname, check⟩) msgLen := by
  have idle : Unconsumed api api := ⟨fun _ => same_of_found, rfl⟩
  rw [storeGetEnds]
  by_cases check : qnameCheck qname = true
  · rw [dif_pos check]
    cases found : mqQmFindQueue api.store ⟨qname, check⟩ with
    | none => exact iff_of_true ⟨_, _, rfl, fun _ => idle⟩ (fun _ _ other => by rw [found] at other; cases other)
    | some node =>
      have only : (∀ check node, mqQmFindQueue api.store ⟨qname, check⟩ = some node →
          GetSafe (models ⟨qname, check⟩) msgLen) ↔ GetSafe (models ⟨qname, check⟩) msgLen :=
        ⟨fun all => all check node found, fun safe _ _ _ => safe⟩
      rw [only]
      have rep := sound _ node found
      rcases (models ⟨qname, check⟩).pop_cases with ⟨taken, ends⟩ | ⟨record, rest, taken, waits, unread⟩
      · obtain ⟨item, next, popEq, same⟩ := rep.pop_end taken stack
        rw [rep.putNum, rep.getNum, ← UInt64.toNat_inj (a := node.queue.curRdb.curIndex), rep.readIndex,
          rep.writeIndex] at same
        simp only [popEq]
        constructor
        · rintro ⟨_, _, ⟨⟩, kept⟩
          have stays := same.mp (Unconsumed.of_put found (kept (fun _ copied => by cases copied)))
          refine ⟨fun record rest unread waits => ?_, fun _ => stays⟩
          rw [ends.resolve_left waits] at unread
          cases unread
        · intro safe
          exact ⟨_, _, rfl, fun _ => unconsumed_put found (same.mpr (ends.elim .inl safe.stays))⟩
      · obtain ⟨next, popEq, _⟩ := rep.pop_some taken stack
        simp only [popEq]
        by_cases size : msgLen = record.item.len
        · rw [if_pos size]
          refine iff_of_true ⟨_, _, rfl, fun copied => absurd rfl (copied _)⟩ ⟨?_, ?_⟩
          · intro other more same _
            obtain rfl := (List.cons.inj (unread.symm.trans same)).1
            exact size
          · intro empty
            rw [unread] at empty
            cases empty
        · rw [if_neg size]
          refine iff_of_false ?_ (fun safe => size (safe.length record rest unread waits))
          rintro ⟨_, _, ⟨⟩, kept⟩
          have count : api.info.count - 1 = api.info.count := (kept (fun _ copied => by cases copied)).count
          grind
  · rw [dif_neg check]
    exact iff_of_true ⟨_, _, rfl, fun _ => idle⟩ (fun named => absurd named check)

def mailName : QueueName := ⟨[109, 97, 105, 108], by decide⟩

/-- A get from a new queue beside one with a message. -/
theorem get_unconsumed_new : ∃ store answers after mail,
    run storeStep {} [.add jobsName, .add mailName, .call mailName (.push helloRecord)] = .ok (store, answers) ∧
      mqQmFindQueue store mailName = some mail ∧
      Drains mail [[104, 105]] ∧
      storeGetEnds { store } jobsName.1 {} 2 = .ok (.refused, after) ∧
      Unconsumed { store } after := by
  have shows : ∀ {ops : List StoreOp}, Guarded storeStep SessionSafe {} ops → ∃ store,
      run storeStep {} ops = .ok (store, (storeModelRun {} ops).2) ∧ Shows store (storeModelRun {} ops).1 := by
    intro ops safe
    obtain ⟨store, runEq, showing, -⟩ := @storeRun_all (fun _ => True) SessionSafe (fun _ _ _ _ _ safe => safe) trivial
      (fun _ _ _ _ _ _ _ _ _ => trivial) (fun _ _ _ _ _ _ _ _ _ => trivial) ops safe
    exact ⟨store, runEq, showing⟩
  obtain ⟨store, runEq, showing⟩ := @shows [.add jobsName, .add mailName, .call mailName (.push helloRecord)] (by
    refine ⟨trivial, fun first _ firstEq => ⟨trivial, fun second _ secondEq => ⟨fun node found _ => ?_,
      fun _ _ _ => trivial⟩⟩⟩
    obtain ⟨same, sameEq, showing⟩ := @shows [.add jobsName, .add mailName]
      ⟨trivial, fun _ _ _ => ⟨trivial, fun _ _ _ => trivial⟩⟩
    rw [run_cons firstEq (run_cons secondEq (run_nil _ _))] at sameEq
    obtain rfl := (Prod.mk.inj (Except.ok.inj sameEq)).1
    obtain ⟨queue, present, rep⟩ := showing.of_found found
    obtain rfl : QueueModel.initial = queue := Option.some.inj present
    rw [rep.writeIndex]
    decide)
  obtain ⟨jobs, jobsFound, jobsRep⟩ : ∃ jobs, mqQmFindQueue store jobsName = some jobs ∧
      Rep True jobs.queue jobs.os QueueModel.initial := showing.of_present rfl
  obtain ⟨mail, mailFound, mailRep⟩ : ∃ mail, mqQmFindQueue store mailName = some mail ∧
      Rep True mail.queue mail.os (QueueModel.initial.step (.push helloRecord)).1 := showing.of_present rfl
  obtain ⟨ends, after, endsEq, kept⟩ := (get_unconsumed_iff { store }
    (fun qname => ((storeModelRun {} _).1.queues qname).getD QueueModel.initial) (fun qname node found => by
      obtain ⟨queue, present, rep⟩ := showing.of_found found
      rw [present]
      exact rep) jobsName.1 {} 2).mpr (fun _ _ _ => ⟨fun _ _ unread => (List.cons_ne_nil _ _ unread.symm).elim, fun _ => .inl rfl⟩)
  have refused : ends = .refused := by
    obtain ⟨_, _, endEq, _⟩ := @Rep.pop_end jobs _ jobsRep (by rfl) {}
    rw [storeGetEnds, dif_pos jobsName.2, jobsFound] at endsEq
    simp only [endEq, Except.ok.injEq, Prod.mk.injEq] at endsEq
    exact endsEq.1.symm
  subst refused
  refine ⟨store, _, after, mail, runEq, mailFound, ?_, endsEq, kept (fun _ copied => by cases copied)⟩
  exact @Rep.drains_some mail _ mailRep helloRecord [] (by rfl)
    fun _ emptied => (emptied.drains_none (by rfl) []).mpr rfl

theorem get_consumes : ∃ api after node next, apiStep {} (.put jobsName.1 0 [104, 105]) = .ok (api, .put true) ∧
      mqStoreGet api jobsName.1 {} 1 = .error .assertion ∧ storeGetEnds api jobsName.1 {} 1 = .ok (.asserted, after) ∧
      mqQmFindQueue api.store jobsName = some node ∧ mqQmFindQueue after.store jobsName = some next ∧
      Drains node [[104, 105]] ∧ Drains next [] ∧
      next.os.dir.tag .rtag node.queue.curRdb.curIndex ≠ node.os.dir.tag .rtag node.queue.curRdb.curIndex ∧
      after.info.count ≠ api.info.count := by
  obtain ⟨node, info, putEq, rep⟩ := put_new jobsName helloRecord
  obtain ⟨next, popEq, nextRep⟩ := @Rep.pop_some node _ rep helloRecord (by rfl) {}
  have endsEq : storeGetEnds { store := single jobsName node, info } jobsName.1 {} 1 =
      .ok (.asserted, { store := single jobsName next
                        info := { info with get := info.get + 1, count := info.count - 1 } }) := by
    rw [storeGetEnds, dif_pos jobsName.2, find_single, if_pos rfl]
    simp only [popEq]
    rw [if_neg (by decide), single_put]
  refine ⟨_, _, node, next, putEq, by rw [storeGetEnds_eq, endsEq], endsEq, by rw [find_single, if_pos rfl],
    by rw [find_single, if_pos rfl], ?_, (nextRep.drains_none (by rfl) []).mpr rfl,
    rep.rtag_grown nextRep (by rfl) (by decide), ?_⟩
  · exact @Rep.drains_some node _ rep helloRecord [] (by rfl)
      fun _ emptied => (emptied.drains_none (by rfl) []).mpr rfl
  · intro same
    replace same : info.count - 1 = info.count := same
    grind

end Libucmq
