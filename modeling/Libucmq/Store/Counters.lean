import Mathlib.Data.UInt
import Libucmq.Store.Noted

/-! The counters of the queues over whole sessions. -/

namespace Libucmq

open Segments List Machine

variable {qname : QueueName} {node : Node} {msg : List UInt8} {queue : QueueModel}

theorem getStoreCount_eq (store : Store) :
    mqQmGetStoreCount store = (store.qlist.map fun entry => mqSmGetMsgCount entry.2.queue).sum := by
  rw [mqQmGetStoreCount, sum_eq_foldl, foldl_map]

theorem getStoreCount_put {store : Store} (sound : Sound store)
    (found : mqQmFindQueue store qname = some node) (next : Node) :
    mqQmGetStoreCount (store.put qname next) + mqSmGetMsgCount node.queue =
      mqQmGetStoreCount store + mqSmGetMsgCount next.queue := by
  rw [getStoreCount_eq, getStoreCount_eq]
  exact Table.sum_replace (fun node : Node => mqSmGetMsgCount node.queue) sound.distinct found

theorem getStoreCount_added {store : Store}
    {leftover : QueueName → Option QueueDir} (empty : mqSmGetMsgCount node.queue = 0) :
    mqQmGetStoreCount { qlist := store.qlist ++ [(qname, node)], leftover } = mqQmGetStoreCount store := by
  rw [getStoreCount_eq, getStoreCount_eq]
  simp [empty]

def ApiOp.stores (qname : QueueName) : ApiOp × ApiAnswer → Bool
  | (.put name _ _, .put true) => name = qname.1
  | _ => false

def ApiOp.takes (qname : QueueName) : ApiOp × ApiAnswer → Bool
  | (.get name _ _, .got (some _)) => name = qname.1
  | _ => false

def storedIn (qname : QueueName) (history : List (ApiOp × ApiAnswer)) : Nat :=
  history.countP (ApiOp.stores qname)

def takenFrom (qname : QueueName) (history : List (ApiOp × ApiAnswer)) : Nat :=
  history.countP (ApiOp.takes qname)

theorem accepted_nonempty (positive : 0 < toCInt msg.length) : 0 < (msg.take (toCInt msg.length).toNat).length := by
  have size : msg.length ≠ 0 := fun zero => by simp [zero, toCInt] at positive
  rw [length_take]
  omega

theorem accepted_bounded (small : toCInt msg.length ≤ 67108724) :
    (msg.take (toCInt msg.length).toNat).length ≤ maxDbFileSize - dbFileHeadLen - msgHeadLen := by
  rw [length_take]
  simp only [maxDbFileSize_eq, dbFileHeadLen, msgHeadLen]
  omega

def putRecord (delay : UInt32) (msg : List UInt8) : Option Record :=
  if range : 0 < toCInt msg.length ∧ toCInt msg.length ≤ 67108724 then
    some
      { delay, body := msg.take (toCInt msg.length).toNat
        nonempty := accepted_nonempty range.1, bounded := accepted_bounded range.2 }
  else none

def ApiSafe (api : Api) : ApiOp → Prop
  | .put qname delay msg => ∀ (name : QueueName) node record, name.1 = qname →
      mqQmFindQueue api.store name = some node → putRecord delay msg = some record →
      RollSafe node (.push record) ∧ CountSafe node (.push record)
  | _ => True

structure Accounts (history : List (ApiOp × ApiAnswer)) (api : Api) (model : StoreModel) : Prop where
  showing : Shows api.store model
  counted : model.All QueueModel.Counted
  balance : ∀ qname, storedIn qname history = takenFrom qname history + (model.bodies qname).length
  count : api.info.count = mqQmGetStoreCount api.store

namespace Accounts

variable {history : List (ApiOp × ApiAnswer)} {api : Api} {model : StoreModel}

theorem start : Accounts [] {} {} :=
  ⟨shows_empty, fun _ _ absent => (Option.some_ne_none _ absent.symm).elim, fun _ => rfl, rfl⟩

section

variable (accounts : Accounts history api model)

include accounts

theorem idle {entry : ApiOp × ApiAnswer}
    (stores : ∀ qname, ApiOp.stores qname entry = false) (takes : ∀ qname, ApiOp.takes qname entry = false) :
    Accounts (history ++ [entry]) api model :=
  { accounts with
    balance := fun qname => by
      have before := accounts.balance qname
      simpa [storedIn, takenFrom, stores, takes] using before }

theorem replaced {next : Node}
    {old : QueueModel} {info : AppInfo} {entry : ApiOp × ApiAnswer}
    (found : mqQmFindQueue api.store qname = some node) (present : model.queues qname = some old)
    (rep : Rep True next.queue next.os queue) (counted : queue.Counted)
    (moved : old.unread.length + [entry].countP (ApiOp.stores qname) =
      [entry].countP (ApiOp.takes qname) + queue.unread.length)
    (others : ∀ query, query ≠ qname → ApiOp.stores query entry = false ∧ ApiOp.takes query entry = false)
    (count : info.count + mqSmGetMsgCount node.queue = api.info.count + mqSmGetMsgCount next.queue) :
    Accounts (history ++ [entry]) { store := api.store.put qname next, info } (model.put qname queue) where
  showing := accounts.showing.replaced found rep
  counted := accounts.counted.put qname counted
  balance := by
    intro query
    have before := accounts.balance query
    rw [storedIn, takenFrom, countP_append, countP_append, StoreModel.bodies_put]
    rw [storedIn, takenFrom] at before
    by_cases same : query = qname
    · subst same
      simp only [StoreModel.bodies, present, QueueModel.bodies, length_map, ↓reduceIte] at before ⊢
      omega
    · obtain ⟨stores, takes⟩ := others query same
      simpa [same, stores, takes] using before
  count := by
    have total := getStoreCount_put accounts.showing.sound found next
    rw [← accounts.count, ← count] at total
    exact (add_right_cancel total).symm

theorem findOrAdd (qname : QueueName) :
    Libucmq.findOrAdd api.store qname = (none, api.store) ∨
      ∃ node store after queue, Libucmq.findOrAdd api.store qname = (some node, store) ∧
        mqQmFindQueue store qname = some node ∧ after.queues qname = some queue ∧
        Rep True node.queue node.os queue ∧ Accounts history { api with store } after ∧
        (mqQmFindQueue api.store qname = some node ∨ queue = QueueModel.initial) := by
  rw [Libucmq.findOrAdd]
  rcases accounts.showing.find qname with ⟨missing, absent⟩ | ⟨node, queue, found, present, rep⟩
  · rw [missing]
    rcases addQueue_spec api.store qname with ⟨_, addEq⟩ | ⟨node, _, rep, addEq⟩
    · exact Or.inl addEq
    · refine Or.inr ⟨node, _, _, _, addEq, ?_, ?_, rep, ⟨accounts.showing.added missing rep, ?_, ?_, ?_⟩, Or.inr rfl⟩
      · simp [find_added missing]
      · simp [StoreModel.put]
      · exact accounts.counted.put qname rfl
      · intro query
        rw [accounts.balance query]
        by_cases same : query = qname
        · simp [StoreModel.bodies, StoreModel.put, same, absent, QueueModel.bodies, QueueModel.initial,
            QueueModel.unread, Log.pending]
        · simp [StoreModel.bodies, StoreModel.put, same]
      · rw [getStoreCount_added (by rw [mqSmGetMsgCount, rep.putNum, rep.getNum]; rfl)]
        exact accounts.count
  · rw [found]
    exact Or.inr ⟨node, api.store, model, queue, rfl, found, present, rep, accounts, Or.inl rfl⟩

end

end Accounts

theorem mqStorePut_eq (api : Api) (qname : QueueName) {delay : UInt32} {record : Record}
    (valid : putRecord delay msg = some record) : mqStorePut api qname.1 delay msg =
      match findOrAdd api.store qname with
      | (none, store) => .ok (false, { api with store })
      | (some node, store) =>
        match mqQmPushItem node.queue node.os (newItem record.delay record.body) with
        | .error abort => .error abort
        | .ok (.putOk, queue, os) =>
          .ok (true,
            { store := store.put qname { queue, os }
              info :=
                { api.info with
                  putSize := api.info.putSize + UInt64.ofInt (toCInt msg.length)
                  put := api.info.put + 1, count := api.info.count + 1 } })
        | .ok (_, queue, os) => .ok (false, { api with store := store.put qname { queue, os } }) := by
  rw [putRecord] at valid
  split at valid
  · rename_i range
    obtain rfl := Option.some.inj valid
    rw [mqStorePut, dif_pos qname.2]
    exact (if_neg (not_le.mpr range.1)).trans (if_neg (not_lt.mpr range.2))
  · cases valid

theorem mqStorePut_refused (api : Api) (qname : List UInt8) {delay : UInt32}
    (invalid : putRecord delay msg = none) : mqStorePut api qname delay msg = .ok (false, api) := by
  rw [putRecord] at invalid
  split at invalid
  · cases invalid
  · rename_i range
    rw [mqStorePut]
    split
    · by_cases short : toCInt msg.length ≤ 0
      · simp only [short, ↓reduceIte]
      · have long : toCInt msg.length > 67108724 := by omega
        simp only [short, long, ↓reduceIte]
    · rfl

namespace Accounts

variable {history : List (ApiOp × ApiAnswer)} {api : Api} {model : StoreModel}

theorem others_idle {query : QueueName} (other : query ≠ qname) (answer : ApiAnswer) (delay : UInt32)
    (msg : List UInt8) (stack : MsgItem) (msgLen : UInt32) :
    ApiOp.stores query (.put qname.1 delay msg, answer) = false ∧
      ApiOp.takes query (.get qname.1 stack msgLen, answer) = false := by
  have differ : qname.1 ≠ query.1 := fun same => other (Subtype.ext same.symm)
  cases answer with
  | put ok => cases ok <;> simp [ApiOp.stores, ApiOp.takes, differ]
  | got found => cases found <;> simp [ApiOp.stores, ApiOp.takes, differ]
  | set found => simp [ApiOp.stores, ApiOp.takes]

section

variable (accounts : Accounts history api model)

include accounts

theorem pushed (found : mqQmFindQueue api.store qname = some node) (present : model.queues qname = some queue)
    (rep : Rep True node.queue node.os queue) (record : Record) (roll : RollSafe node (.push record))
    (count : CountSafe node (.push record)) (delay : UInt32) (msg : List UInt8) :
    ∃ ret next os, mqQmPushItem node.queue node.os (newItem record.delay record.body) = .ok (ret, next, os) ∧
      (ret = .full ∧ Accounts (history ++ [(.put qname.1 delay msg, .put false)])
          { api with store := api.store.put qname { queue := next, os } } (model.put qname queue) ∨
        ret = .putOk ∧ ∀ info : AppInfo, info.count = api.info.count + 1 →
          Accounts (history ++ [(.put qname.1 delay msg, .put true)])
            { store := api.store.put qname { queue := next, os }, info }
            (model.put qname (queue.push record).1)) := by
  have counts := accounts.counted qname queue present
  obtain ⟨next, os, pushEq, pushedRep⟩ := rep.push record (fun _ full => by
    rw [← rep.writeIndex]
    exact roll (by rw [rep.writeFull_eq, full]; rfl))
  refine ⟨_, next, os, pushEq, ?_⟩
  rcases queue.push_unread record with ⟨full, same⟩ | ⟨ok, longer, put, get, _, isOpen⟩
  · rw [same] at pushedRep
    refine Or.inl ⟨full, accounts.replaced found present pushedRep counts ?_ ?_ ?_⟩
    · simp [ApiOp.stores, ApiOp.takes]
    · exact fun query other => ⟨(others_idle other _ delay msg {} 0).1, rfl⟩
    · rw [mqSmGetMsgCount, mqSmGetMsgCount, rep.putNum, rep.getNum, pushedRep.putNum, pushedRep.getNum]
  · refine Or.inr ⟨ok, fun info more => accounts.replaced found present pushedRep ?_ ?_ ?_ ?_⟩
    · exact counts.push record fun _ => by
        rw [← rep.putNum]
        exact count (by rw [rep.queueFull_eq, isOpen])
    · simp [ApiOp.stores, ApiOp.takes, longer]
    · exact fun query other => ⟨(others_idle other _ delay msg {} 0).1, rfl⟩
    · rw [mqSmGetMsgCount, mqSmGetMsgCount, rep.putNum, rep.getNum, pushedRep.putNum, pushedRep.getNum, put, get, more]
      grind

theorem put {qname : List UInt8} {delay : UInt32} (safe : ApiSafe api (.put qname delay msg)) :
    ∃ next answer after, apiStep api (.put qname delay msg) = .ok (next, answer) ∧
      Accounts (history ++ [(.put qname delay msg, answer)]) next after := by
  have refuse : Accounts (history ++ [(.put qname delay msg, .put false)]) api model :=
    accounts.idle (fun _ => rfl) (fun _ => rfl)
  rw [apiStep]
  by_cases check : qnameCheck qname = true
  · cases valid : putRecord delay msg with
    | none =>
      rw [mqStorePut_refused api qname valid]
      exact ⟨api, _, model, rfl, refuse⟩
    | some record =>
      rw [mqStorePut_eq api ⟨qname, check⟩ valid]
      rcases accounts.findOrAdd ⟨qname, check⟩ with
        full | ⟨node, store, after, queue, addEq, found, present, rep, kept, origin⟩
      · rw [full]
        exact ⟨_, _, model, rfl, refuse⟩
      · have room : RollSafe node (.push record) ∧ CountSafe node (.push record) := by
          rcases origin with old | rfl
          · exact safe ⟨qname, check⟩ node record rfl old valid
          · refine ⟨fun _ => ?_, fun _ => ?_⟩
            · rw [rep.writeIndex]
              decide
            · rw [rep.putNum]
              decide
        obtain ⟨ret, next, os, pushEq, ⟨rfl, done⟩ | ⟨rfl, done⟩⟩ :=
          kept.pushed found present rep record room.1 room.2 delay msg
        · exact ⟨_, _, _, by simp only [addEq, pushEq], done⟩
        · refine ⟨_, _, _, ?_, done { api.info with
            putSize := api.info.putSize + UInt64.ofInt (toCInt msg.length)
            put := api.info.put + 1, count := api.info.count + 1 } rfl⟩
          simp only [addEq, pushEq]
  · rw [mqStorePut, dif_neg check]
    exact ⟨api, _, model, rfl, refuse⟩

theorem get (qname : List UInt8) (stack : MsgItem) (msgLen : UInt32) :
    (∃ next answer after, apiStep api (.get qname stack msgLen) = .ok (next, answer) ∧
      Accounts (history ++ [(.get qname stack msgLen, answer)]) next after) ∨
      apiStep api (.get qname stack msgLen) = .error .assertion := by
  have miss : Accounts (history ++ [(.get qname stack msgLen, .got none)]) api model :=
    accounts.idle (fun _ => rfl) (fun _ => rfl)
  rw [apiStep, mqStoreGet]
  by_cases check : qnameCheck qname = true
  · rw [dif_pos check]
    rcases accounts.showing.find ⟨qname, check⟩ with ⟨missing, _⟩ | ⟨node, queue, found, present, rep⟩
    · rw [missing]
      exact Or.inl ⟨api, _, model, rfl, miss⟩
    · have counts := accounts.counted _ queue present
      obtain ⟨item, popped, os, popEq, poppedRep, itemEq⟩ := rep.pop stack
      simp only [found, popEq]
      rcases queue.pop_unread with ⟨nothing, same, put, get, _⟩ | ⟨record, taken, removed, get, put, _⟩
      · left
        refine ⟨{ api with store := api.store.put ⟨qname, check⟩ { queue := popped, os } }, .got none, _,
          by simp [nothing], accounts.replaced found present poppedRep counts.pop ?_ ?_ ?_⟩
        · simp [ApiOp.stores, ApiOp.takes, same]
        · exact fun query other => ⟨rfl, rfl⟩
        · rw [mqSmGetMsgCount, mqSmGetMsgCount, rep.putNum, rep.getNum, poppedRep.putNum, poppedRep.getNum, put, get]
      · by_cases size : msgLen = item.len
        · left
          refine ⟨{ store := api.store.put ⟨qname, check⟩ { queue := popped, os }
                    info := { api.info with get := api.info.get + 1, count := api.info.count - 1 } },
            .got (some item.msg), _, by simp [taken, size],
            accounts.replaced found present poppedRep counts.pop ?_ ?_ ?_⟩
          · simp [ApiOp.stores, ApiOp.takes, removed, Nat.add_comm]
          · exact fun query other => ⟨rfl, (others_idle other (.got (some item.msg)) 0 [] stack msgLen).2⟩
          · rw [mqSmGetMsgCount, mqSmGetMsgCount, rep.putNum, rep.getNum, poppedRep.putNum, poppedRep.getNum,
              put, get, QueueModel.count_eq]
            split <;> grind
        · right
          simp [taken, size]
  · rw [dif_neg check]
    exact Or.inl ⟨api, _, model, rfl, miss⟩

theorem setMaxqueue (qname : QueueName) (maxque : UInt32) :
    ∃ next answer after, apiStep api (.setMaxqueue qname maxque) = .ok (next, answer) ∧
      Accounts (history ++ [(.setMaxqueue qname maxque, answer)]) next after := by
  rw [apiStep, setMaxqueueOf]
  rcases accounts.showing.find qname with ⟨missing, _⟩ | ⟨node, queue, found, present, rep⟩
  · rw [missing]
    exact ⟨api, _, model, rfl, accounts.idle (fun _ => rfl) (fun _ => rfl)⟩
  · rw [found]
    have set := rep.setMaxqueue maxque
    refine ⟨{ api with store := api.store.put qname _ }, .set true, _, rfl,
      accounts.replaced found present set (accounts.counted qname queue present) ?_ ?_ ?_⟩
    · exact (Nat.zero_add _).symm
    · exact fun query other => ⟨rfl, rfl⟩
    · rfl

theorem step {op : ApiOp} (safe : ApiSafe api op) :
    (∃ next answer, apiStep api op = .ok (next, answer) ∧ ∃ after, Accounts (history ++ [(op, answer)]) next after) ∨
      ∃ stop, apiStep api op = .error stop ∧ stop = .assertion := by
  cases op with
  | put qname delay msg =>
    obtain ⟨next, answer, after, stepEq, kept⟩ := accounts.put safe
    exact Or.inl ⟨next, answer, stepEq, after, kept⟩
  | get qname stack msgLen =>
    rcases accounts.get qname stack msgLen with ⟨next, answer, after, stepEq, kept⟩ | abort
    · exact Or.inl ⟨next, answer, stepEq, after, kept⟩
    · exact Or.inr ⟨_, abort, rfl⟩
  | setMaxqueue qname maxque =>
    obtain ⟨next, answer, after, stepEq, kept⟩ := accounts.setMaxqueue qname maxque
    exact Or.inl ⟨next, answer, stepEq, after, kept⟩

end

end Accounts

structure CountsOn (before after : MqQueue) : Prop where
  get : (after.getNum.toNat : Int) = before.getNum.toNat + 1 -
    if before.maxque.toNat ≤ before.getNum.toNat + 1 then before.maxque.toNat else 0
  put : (after.putNum.toNat : Int) = before.putNum.toNat -
    if before.maxque.toNat ≤ before.getNum.toNat + 1 then before.maxque.toNat else 0

theorem Rep.countsOn {queue : MqQueue} {os : Os} {model : QueueModel} (rep : Rep True queue os model)
    (counted : model.Counted) {item : MsgItem} {state : GetState}
    (getEq : mqSmGetData item queue os = .ok (true, state)) : CountsOn queue state.queue := by
  obtain ⟨found, final, finalEq, gets, _⟩ := rep.mqSmGetData_eq item
  rw [getEq] at finalEq
  cases finalEq
  cases taken : model.log.take with
  | none => cases (gets.empty taken).1
  | some pair =>
    obtain ⟨record, log⟩ := pair
    obtain ⟨_, _, _, _, after⟩ := gets.waiting record log taken
    have waiting : model.unread = record :: log.pending := Log.take_some taken
    have below : model.getNum.toNat < model.putNum.toNat := by
      have counts : model.putNum.toNat = model.getNum.toNat + model.unread.length := counted
      rw [waiting, length_cons] at counts
      omega
    obtain ⟨get, put⟩ := QueueModel.count_toNat below
    have getEq : state.queue.getNum = model.count.getNum := by
      rw [after.getNum, QueueModel.count_eq, QueueModel.count_eq]
    have putEq : state.queue.putNum = model.count.putNum := by
      rw [after.putNum, QueueModel.count_eq, QueueModel.count_eq]
    constructor
    · rw [getEq, get, rep.getNum, rep.maxque]
      split <;> omega
    · rw [putEq, put, rep.getNum, rep.putNum, rep.maxque]
      split <;> omega

/-- The counters count as integers while nothing is at its last value. -/
theorem store_counters (ops : List ApiOp) (safe : Guarded apiStep ApiSafe {} ops) :
    (∃ final answers, run apiStep {} ops = .ok (final, answers) ∧
      (∀ qname node, mqQmFindQueue final.store qname = some node → node.queue.getNum ≤ node.queue.putNum ∧
        storedIn qname (ops.zip answers) =
          takenFrom qname (ops.zip answers) + (node.queue.putNum - node.queue.getNum).toNat ∧
        ∀ item state, mqSmGetData item node.queue node.os = .ok (true, state) → CountsOn node.queue state.queue) ∧
      final.info.count = mqQmGetStoreCount final.store) ∨ run apiStep {} ops = .error .assertion := by
  have outcome := @Machine.run_history _ _ _ _ apiStep ApiSafe
    (fun history api => ∃ model, Accounts history api model) (fun stop => stop = .assertion)
    (by
      rintro history api op ⟨model, accounts⟩ safe
      exact accounts.step safe) [] {} ops ⟨{}, Accounts.start⟩ safe
  rcases outcome with ⟨final, answers, runEq, model, accounts⟩ | ⟨stop, runEq, rfl⟩
  · refine Or.inl ⟨final, answers, runEq, fun qname node found => ?_, accounts.count⟩
    obtain ⟨queue, present, rep⟩ := accounts.showing.of_found found
    have counted := accounts.counted qname queue present
    have counts : queue.putNum.toNat = queue.getNum.toNat + queue.unread.length := counted
    refine ⟨?_, ?_, fun item state getEq => rep.countsOn counted getEq⟩
    · rw [rep.getNum, rep.putNum, UInt64.le_iff_toNat_le]
      omega
    · have balance := accounts.balance qname
      rw [nil_append, StoreModel.bodies, present] at balance
      rw [balance, rep.getNum, rep.putNum, counted.difference]
      simp [QueueModel.bodies]
  · exact Or.inr runEq

theorem putRecord_self (record : Record) : putRecord record.delay record.body = some record := by
  have bounded := record.bounded
  have nonempty := record.nonempty
  simp only [maxDbFileSize_eq, dbFileHeadLen, msgHeadLen] at bounded
  have size : toCInt record.body.length = record.body.length := toCInt_of_lt (by omega)
  rw [putRecord, dif_pos (by omega)]
  simp [size]

theorem single_put (qname : QueueName) (node next : Node) :
    (single qname node).put qname next = single qname next := by
  simp [single, Store.put, Table.replace]

theorem put_single (qname : QueueName) {node : Node} {queue : QueueModel} (info : AppInfo) (record : Record)
    (rep : Rep True node.queue node.os queue) (isOpen : queue.full = false)
    (room : queue.log.last + 1 < 18446744073709551616) :
    ∃ next later, apiStep { store := single qname node, info } (.put qname.1 record.delay record.body) =
        .ok ({ store := single qname next, info := later }, .put true) ∧
      Rep True next.queue next.os (queue.push record).1 := by
  obtain ⟨next, os, pushEq, pushed⟩ := rep.push record fun _ _ => room
  refine ⟨{ queue := next, os },
    { info with putSize := info.putSize + UInt64.ofInt (toCInt record.body.length)
                put := info.put + 1, count := info.count + 1 }, ?_, pushed⟩
  rw [apiStep, mqStorePut_eq _ qname (putRecord_self record), findOrAdd, find_single, if_pos rfl]
  simp only [pushEq, QueueModel.push_open isOpen record, single_put]

theorem get_single (qname : QueueName) {node : Node} {queue : QueueModel} (info : AppInfo) {record : Record}
    (rep : Rep True node.queue node.os queue) (taken : queue.pop.2 = some record) :
    ∃ next later, apiStep { store := single qname node, info } (.get qname.1 {} record.item.len) =
        .ok ({ store := single qname next, info := later }, .got (some record.item.msg)) ∧
      Rep True next.queue next.os queue.pop.1 := by
  obtain ⟨item, next, os, popEq, popped, itemEq⟩ := rep.pop {}
  refine ⟨{ queue := next, os }, { info with get := info.get + 1, count := info.count - 1 }, ?_, popped⟩
  rw [apiStep, mqStoreGet, dif_pos qname.2, find_single, if_pos rfl]
  simp only [popEq, taken, itemEq record taken, single_put, Option.isSome_some, ↓reduceIte]

structure Ahead (record : Record) (count : Nat) (queue : QueueModel) : Prop where
  unread : queue.unread = [record, record]
  put : queue.putNum = UInt64.ofNat (count + 2)
  get : queue.getNum = UInt64.ofNat count
  limit : queue.maxque = 0
  last : queue.log.last ≤ count + 1

theorem Ahead.pop {record : Record} {count : Nat} {queue : QueueModel} (ahead : Ahead record count queue) :
    queue.pop.2 = some record ∧ queue.pop.1.unread = [record] ∧ queue.pop.1.full = false ∧
      queue.pop.1.putNum = UInt64.ofNat (count + 2) ∧ queue.pop.1.getNum = UInt64.ofNat (count + 1) ∧
      queue.pop.1.maxque = 0 ∧ queue.pop.1.log.last ≤ count + 1 := by
  have two : ¬ queue.putNum - queue.getNum < 1 := by
    have difference : queue.putNum - queue.getNum = 2 := by
      rw [ahead.put, ahead.get, UInt64.ofNat_add]
      grind
    rw [difference]
    decide
  have last := queue.pop_noted.2.2.2.1
  rcases queue.pop_unread with ⟨_, _, _, _, _, short | empty⟩ | ⟨found, taken, removed, get, put, limit⟩
  · exact absurd short two
  · simp [ahead.unread] at empty
  · rw [ahead.unread] at removed
    obtain ⟨rfl, rest⟩ := List.cons.inj removed
    refine ⟨taken, rest.symm, ?_, ?_, ?_, limit.trans ahead.limit, by rw [last]; exact ahead.last⟩
    · simp [QueueModel.full, limit, ahead.limit]
    · simp [put, QueueModel.count_eq, ahead.limit, ahead.put]
    · simp [get, QueueModel.count_eq, ahead.limit, ahead.get]

theorem Ahead.lap {record : Record} {count : Nat} (ahead : Ahead record count queue) :
    Ahead record (count + 1) (queue.pop.1.push record).1 := by
  obtain ⟨_, unread, isOpen, put, get, limit, last⟩ := ahead.pop
  have grown := queue.pop.1.push_last record
  rcases queue.pop.1.push_unread record with ⟨full, _⟩ | ⟨_, longer, morePut, sameGet, sameLimit, _⟩
  · rw [QueueModel.push_open isOpen] at full
    cases full
  · exact
      { unread := by rw [longer, unread]; rfl
        put := by rw [morePut, put, ← UInt64.ofNat_one, ← UInt64.ofNat_add]
        get := by rw [sameGet, get]
        limit := by rw [sameLimit, limit]
        last := by omega }

def lapOps (qname : QueueName) (record : Record) : Nat → List ApiOp
  | 0 => []
  | count + 1 =>
    .get qname.1 {} record.item.len :: .put qname.1 record.delay record.body :: lapOps qname record count

theorem laps_single (qname : QueueName) (record : Record) (laps : Nat) {count : Nat}
    (few : count + laps + 1 < 18446744073709551616) (info : AppInfo)
    (rep : Rep True node.queue node.os queue) (ahead : Ahead record count queue) :
    ∃ next later answers after, run apiStep { store := single qname node, info }
        (lapOps qname record laps) = .ok ({ store := single qname next, info := later }, answers) ∧
      Rep True next.queue next.os after ∧ Ahead record (count + laps) after := by
  induction laps generalizing node queue info count with
  | zero => exact ⟨node, info, [], queue, rfl, rep, ahead⟩
  | succ laps ih =>
    obtain ⟨taken, _, isOpen, _, _, _, last⟩ := ahead.pop
    obtain ⟨popped, poppedInfo, getEq, poppedRep⟩ := get_single qname info rep taken
    obtain ⟨pushed, pushedInfo, putEq, pushedRep⟩ := put_single qname poppedInfo record poppedRep isOpen (by omega)
    obtain ⟨next, later, answers, after, runEq, nextRep, nextAhead⟩ :=
      ih (by omega) pushedInfo pushedRep ahead.lap
    refine ⟨next, later, _, after, run_cons getEq (run_cons putEq runEq), nextRep, ?_⟩
    rw [show count + (laps + 1) = count + 1 + laps by omega]
    exact nextAhead

theorem put_new (qname : QueueName) (record : Record) :
    ∃ next later, apiStep {} (.put qname.1 record.delay record.body) =
        .ok ({ store := single qname next, info := later }, .put true) ∧
      Rep True next.queue next.os (QueueModel.initial.push record).1 := by
  rcases addQueue_spec {} qname with ⟨full, _⟩ | ⟨node, _, rep, addEq⟩
  · simp [defMaxQlistItems] at full
  · have added : findOrAdd {} qname = (some node, single qname node) := by
      rw [findOrAdd, show mqQmFindQueue {} qname = none from rfl]
      simp only [addEq, single]
      simp
    obtain ⟨next, os, pushEq, pushed⟩ := rep.push record fun _ _ => by decide
    refine ⟨{ queue := next, os }, { putSize := 0 + UInt64.ofInt (toCInt record.body.length), put := 1, count := 1 },
      ?_, pushed⟩
    rw [apiStep, mqStorePut_eq _ qname (putRecord_self record), added]
    simp only [pushEq, QueueModel.push_open (show QueueModel.initial.full = false by decide) record, single_put]
    rfl

theorem store_counters_hello : ∃ final answers node,
    run apiStep {} [.put jobsName.1 0 [104, 105], .put jobsName.1 0 [98, 121, 101], .get jobsName.1 {} 2] =
        .ok (final, answers) ∧
      mqQmFindQueue final.store jobsName = some node ∧
      node.queue.getNum ≤ node.queue.putNum ∧
      (node.queue.putNum - node.queue.getNum).toNat = 1 ∧
      (∀ item state, mqSmGetData item node.queue node.os = .ok (true, state) → CountsOn node.queue state.queue) ∧
      final.info.count = mqQmGetStoreCount final.store := by
  obtain ⟨stored, info, putEq, rep⟩ := put_new jobsName helloRecord
  obtain ⟨both, more, againEq, bothRep⟩ := put_single jobsName info byeRecord rep (by decide) (by decide)
  obtain ⟨taken, later, getEq, _⟩ := @get_single jobsName _ _ more helloRecord bothRep (by rfl)
  have runEq := run_cons putEq (run_cons againEq (run_cons getEq (run_nil _ _)))
  have here : ∀ (name : QueueName) node, name.1 = jobsName.1 →
      mqQmFindQueue (single jobsName stored) name = some node → stored = node := by
    intro name node same found
    rw [Subtype.ext same, find_single, if_pos rfl] at found
    exact Option.some.inj found
  have safe : Guarded apiStep ApiSafe {}
      [.put jobsName.1 0 [104, 105], .put jobsName.1 0 [98, 121, 101], .get jobsName.1 {} 2] := by
    refine (guarded_cons_iff putEq).mpr ⟨fun _ _ _ _ found => (Option.some_ne_none _ found.symm).elim,
      (guarded_cons_iff againEq).mpr ⟨fun name node record same found valid => ?_,
        (guarded_cons_iff getEq).mpr ⟨trivial, trivial⟩⟩⟩
    obtain rfl := here name node same found
    refine ⟨fun _ => ?_, ?_⟩
    · rw [rep.writeIndex]
      decide
    · intro _
      rw [rep.putNum]
      decide
  rcases store_counters _ safe with ⟨final, answers, finalEq, queues, count⟩ | abort
  · have same := finalEq.symm.trans runEq
    cases same
    have found : mqQmFindQueue (single jobsName taken) jobsName = some taken := by rw [find_single, if_pos rfl]
    obtain ⟨order, balance, counts⟩ := queues jobsName taken found
    refine ⟨_, _, taken, finalEq, found, order, ?_, counts, count⟩
    have left : 2 = 1 + (taken.queue.putNum - taken.queue.getNum).toNat := balance
    omega
  · have same := abort.symm.trans runEq
    cases same

def aheadOps (laps : Nat) : List ApiOp :=
  .put jobsName.1 helloRecord.delay helloRecord.body :: .setMaxqueue jobsName 0 ::
    .put jobsName.1 helloRecord.delay helloRecord.body :: lapOps jobsName helloRecord laps

theorem aheadOps_run {laps : Nat} (few : laps + 1 < 18446744073709551616) :
    ∃ node info answers queue, run apiStep {} (aheadOps laps) =
        .ok ({ store := single jobsName node, info }, answers) ∧
      Rep True node.queue node.os queue ∧ Ahead helloRecord laps queue := by
  obtain ⟨first, firstInfo, firstEq, firstRep⟩ := put_new jobsName helloRecord
  have limited := firstRep.setMaxqueue 0
  have limitEq : apiStep { store := single jobsName first, info := firstInfo } (.setMaxqueue jobsName 0) =
      .ok ({ store := single jobsName (Node.mk (mqQmSetMaxqueue first.queue first.os 0).1
        (mqQmSetMaxqueue first.queue first.os 0).2), info := firstInfo }, .set true) := by
    rw [apiStep, setMaxqueueOf, find_single, if_pos rfl]
    simp only [single_put]
  obtain ⟨second, secondInfo, secondEq, secondRep⟩ :=
    @put_single jobsName (Node.mk _ _) _ firstInfo helloRecord limited rfl (by decide)
  have ahead : Ahead helloRecord 0
      (((QueueModel.initial.push helloRecord).1.setMaxqueue 0).push helloRecord).1 :=
    ⟨rfl, rfl, rfl, rfl, by decide⟩
  obtain ⟨node, info, answers, queue, runEq, rep, final⟩ :=
    laps_single jobsName helloRecord laps (by omega) secondInfo secondRep ahead
  rw [Nat.zero_add] at final
  exact ⟨node, info, _, queue,
    run_cons firstEq (run_cons limitEq (run_cons secondEq runEq)), rep, final⟩

theorem store_counters_wrap : ∃ final answers node,
    run apiStep {} (aheadOps 18446744073709551614) = .ok (final, answers) ∧
      mqQmFindQueue final.store jobsName = some node ∧ node.queue.putNum < node.queue.getNum := by
  obtain ⟨node, info, answers, queue, runEq, rep, ahead⟩ :=
    @aheadOps_run 18446744073709551614 (by decide)
  refine ⟨_, answers, node, runEq, by rw [find_single, if_pos rfl], ?_⟩
  rw [rep.putNum, rep.getNum, ahead.put, ahead.get]
  decide

end Libucmq
