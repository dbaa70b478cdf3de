import Libucmq.Library.Table
import Libucmq.Store.Model

/-! The table of queues of `mq_queue_manage.c` and the entry points of `mq_api.c`. -/

namespace Libucmq

open Function

def qnameLoop : Nat → List UInt8 → Bool
  | _, [] => true
  | place, char :: rest =>
    if !(48 ≤ char && char ≤ 57) && (!(97 ≤ char && char ≤ 122) && !(65 ≤ char && char ≤ 90)) then
      if char ≠ 95 || place = 0 || rest = [] then false else qnameLoop (place + 1) rest
    else qnameLoop (place + 1) rest

def qnameCheck (qname : List UInt8) : Bool :=
  if qname.length = 0 || qname.length > maxQueueNameLen then false else qnameLoop 0 qname

/-- A name that has passed `qname_check`, as every name of a queue has. -/
abbrev QueueName := { qname : List UInt8 // qnameCheck qname = true }

structure Store where
  qlist : List (QueueName × Node) := []
  leftover : QueueName → Option QueueDir := fun _ => none

def mqQmFindQueue (store : Store) (qname : QueueName) : Option Node := Table.find store.qlist qname

def Store.put (store : Store) (qname : QueueName) (node : Node) : Store :=
  { store with qlist := Table.replace store.qlist qname node }

def mqQmAddQueue (store : Store) (qname : QueueName) : Option Node × Store :=
  if defMaxQlistItems ≤ store.qlist.length then (none, store)
  else
    match createQueue qname { dir := (store.leftover qname).getD {} } with
    | (some node, _) =>
      (some node,
        { qlist := store.qlist ++ [(qname, node)]
          leftover := update store.leftover qname none })
    | (none, os) => (none, { store with leftover := update store.leftover qname (some os.dir) })

def mqQmGetStoreCount (store : Store) : UInt64 :=
  store.qlist.foldl (fun count entry => count + mqSmGetMsgCount entry.2.queue) 0

def mqQmCloseStore (store : Store) (qname : QueueName) : Option Os :=
  match mqQmFindQueue store qname with
  | some node => some (closeQueue node)
  | none => (store.leftover qname).map fun dir => { dir }

structure Listing where
  names : List QueueName
  files : QueueName → List FileName
  cwd : FileName → Bool

def openStoreStep (listing : Listing) (disk : QueueName → Option Os) (store : Store) (qname : QueueName) : Store :=
  match disk qname with
  | none => store
  | some os =>
    match openQueue qname listing.cwd (listing.files qname) os with
    | some node =>
      { qlist := store.qlist ++ [(qname, node)]
        leftover := update store.leftover qname none }
    | none => store

def mqQmOpenStore (listing : Listing) (disk : QueueName → Option Os) : Store :=
  listing.names.foldl (openStoreStep listing disk)
    { leftover := fun qname => (disk qname).map Os.dir }

inductive StoreOp
  | add (qname : QueueName)
  | call (qname : QueueName) (op : QueueOp)
  | reopen (listing : Listing)

inductive StoreAnswer
  | added (found : Bool)
  | called (answer : QueueAnswer)
  | missing
  | reopened
deriving DecidableEq, Repr

/-- A queue is added, or called, only when it is not found, or found. -/
def storeStep (store : Store) : StoreOp → Except Abort (Store × StoreAnswer)
  | .add qname =>
    match mqQmFindQueue store qname with
    | some _ => .ok (store, .added true)
    | none =>
      match mqQmAddQueue store qname with
      | (some _, store) => .ok (store, .added true)
      | (none, store) => .ok (store, .added false)
  | .call qname op =>
    match mqQmFindQueue store qname with
    | none => .ok (store, .missing)
    | some node =>
      match queueStep node op with
      | .error abort => .error abort
      | .ok (next, answer) => .ok (store.put qname next, .called answer)
  | .reopen listing => .ok (mqQmOpenStore listing (mqQmCloseStore store), .reopened)

structure AppInfo where
  put : UInt32 := 0
  get : UInt32 := 0
  count : UInt64 := 0
  putSize : UInt64 := 0
deriving DecidableEq, Repr

structure Api where
  store : Store := {}
  info : AppInfo := {}

def findOrAdd (store : Store) (qname : QueueName) : Option Node × Store :=
  match mqQmFindQueue store qname with
  | some node => (some node, store)
  | none => mqQmAddQueue store qname

/-- The first `msg_len` bytes at `msg`; `delay` is what the stack holds. -/
def mqStorePut (api : Api) (qname : List UInt8) (delay : UInt32) (msg : List UInt8) :
    Except Abort (Bool × Api) :=
  if check : qnameCheck qname = true then
    let msgLen := toCInt msg.length
    if msgLen ≤ 0 then .ok (false, api)
    else if msgLen > 67108724 then .ok (false, api)
    else
      match findOrAdd api.store ⟨qname, check⟩ with
      | (none, store) => .ok (false, { api with store })
      | (some node, store) =>
        match mqQmPushItem node.queue node.os (newItem delay (msg.take msgLen.toNat)) with
        | .error abort => .error abort
        | .ok (.putOk, queue, os) =>
          let info :=
            { api.info with
              putSize := api.info.putSize + UInt64.ofInt msgLen
              put := api.info.put + 1, count := api.info.count + 1 }
          .ok (true, { store := store.put ⟨qname, check⟩ { queue, os }, info })
        | .ok (_, queue, os) =>
          .ok (false, { api with store := store.put ⟨qname, check⟩ { queue, os } })
  else .ok (false, api)

def mqStoreGet (api : Api) (qname : List UInt8) (stack : MsgItem) (msgLen : UInt32) :
    Except Abort (Option (List UInt8) × Api) :=
  if check : qnameCheck qname = true then
    match mqQmFindQueue api.store ⟨qname, check⟩ with
    | none => .ok (none, api)
    | some node =>
      match mqQmPopItem node.queue node.os stack with
      | .error abort => .error abort
      | .ok (.getOk, item, queue, os) =>
        if msgLen = item.len then
          .ok (some item.msg,
            { store := api.store.put ⟨qname, check⟩ { queue, os }
              info := { api.info with get := api.info.get + 1, count := api.info.count - 1 } })
        else .error .assertion
      | .ok (_, _, queue, os) =>
        .ok (none, { api with store := api.store.put ⟨qname, check⟩ { queue, os } })
  else .ok (none, api)

def setMaxqueueOf (api : Api) (qname : QueueName) (maxque : UInt32) : Bool × Api :=
  match mqQmFindQueue api.store qname with
  | none => (false, api)
  | some node =>
    let (queue, os) := mqQmSetMaxqueue node.queue node.os maxque
    (true, { api with store := api.store.put qname { queue, os } })

inductive ApiOp
  | put (qname : List UInt8) (delay : UInt32) (msg : List UInt8)
  | get (qname : List UInt8) (stack : MsgItem) (msgLen : UInt32)
  | setMaxqueue (qname : QueueName) (maxque : UInt32)

inductive ApiAnswer
  | put (ok : Bool)
  | got (msg : Option (List UInt8))
  | set (found : Bool)
deriving DecidableEq, Repr

def apiStep (api : Api) : ApiOp → Except Abort (Api × ApiAnswer)
  | .put qname delay msg =>
    match mqStorePut api qname delay msg with
    | .error abort => .error abort
    | .ok (ok, api) => .ok (api, .put ok)
  | .get qname stack msgLen =>
    match mqStoreGet api qname stack msgLen with
    | .error abort => .error abort
    | .ok (msg, api) => .ok (api, .got msg)
  | .setMaxqueue qname maxque =>
    let (found, api) := setMaxqueueOf api qname maxque
    .ok (api, .set found)

end Libucmq
