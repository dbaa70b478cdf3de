import Libucmq.Store.Manage

/-! The queue operations of `mq_queue_manage.c` and the entry points of `mq_api.c`. -/

namespace Libucmq

def stampItem (item : MsgItem) : MsgItem :=
  { item with magicNum1 := msgHeadOfFirstMagicNum, magicNum2 := msgHeadOfSecondMagicNum }

def newItem (delay : UInt32) (body : List UInt8) : MsgItem :=
  { delay, len := UInt32.ofNat body.length, msg := body }

def queueFull (queue : MqQueue) : Bool :=
  queue.maxque ≠ 0 && queue.putNum - queue.getNum + 1 > queue.maxque.toUInt64

def syncTick (queue : MqQueue) : MqQueue :=
  if queue.syncIntv > 0 then
    if queue.syncIntv = 1 then
      { queue with syncIntv := if defSyncInterval ≤ 0 then 10 else defSyncInterval }
    else { queue with syncIntv := queue.syncIntv - 1 }
  else queue

def mqQmPushItem (queue : MqQueue) (os : Os) (item : MsgItem) :
    Except Abort (QueuePutRet × MqQueue × Os) :=
  if queueFull queue then .ok (.full, queue, os)
  else
    match mqSmPutData (stampItem item) queue os with
    | .error abort => .error abort
    | .ok (false, queue, os) => .ok (.putError, queue, os)
    | .ok (true, queue, os) =>
      let (_, os) := mqSmWtagWriteItem queue os
      .ok (.putOk, syncTick queue, os)

def mqQmPopItem (queue : MqQueue) (os : Os) (item : MsgItem) :
    Except Abort (QueueGetRet × MsgItem × MqQueue × Os) :=
  if queue.putNum - queue.getNum < 1 then .ok (.getEnd, stampItem item, queue, os)
  else
    match mqSmGetData (stampItem item) queue os with
    | .error abort => .error abort
    | .ok (false, state) => .ok (.getEnd, state.item, state.queue, state.os)
    | .ok (true, state) =>
      let (_, os) := mqSmRtagWriteItem state.queue state.os
      .ok (.getOk, state.item, state.queue, os)

def mqQmSetMaxqueue (queue : MqQueue) (os : Os) (maxque : UInt32) : MqQueue × Os :=
  let queue := { queue with maxque }
  let (_, os) := mqSmWtagWriteItem queue os
  (queue, os)

def initQueue (queue : MqQueue) : MqQueue :=
  { queue with
    curRdb := { queue.curRdb with pos := 128, optCount := 0 }
    curWdb := { queue.curWdb with pos := 128, optCount := 0 }
    maxque := defMaxQueue, putNum := 0, getNum := 0 }

structure Node where
  queue : MqQueue
  os : Os

def createQueue (qname : List UInt8) (os : Os) : Option Node × Os :=
  match mqSmCreatDb { qname := qname.take maxQueueNameLen } os with
  | (true, queue, os) => (some { queue := initQueue queue, os }, os)
  | (false, _, os) => (none, os)

def closeQueue (node : Node) : Os :=
  let os := mqSmTagCloseFile node.queue.wtagFd (mqSmTagCloseFile node.queue.rtagFd node.os)
  (mqSmCloseDb node.queue os).2

/-- One directory of `mq_qm_open_store`; `none` when the queue is skipped. -/
def openQueue (qname : List UInt8) (cwd : FileName → Bool) (listing : List FileName) (os : Os) :
    Option Node :=
  match findHandleFile cwd listing with
  | some handle =>
    match handle.rtagFname, handle.wtagFname with
    | .tag .rtag rtagFile, .tag .wtag wtagFile =>
      match mqSmTagOpenFile .rtag rtagFile os with
      | (none, _) => none
      | (some rtagFd, os) =>
        match mqSmTagOpenFile .wtag wtagFile os with
        | (none, _) => none
        | (some wtagFd, os) =>
          let queue : MqQueue :=
            { qname := qname.take maxQueueNameLen, rtagFd := some rtagFd, wtagFd := some wtagFd }
          match mqSmRtagReadItem queue os with
          | (false, _, _) => none
          | (true, queue, os) =>
            match mqSmWtagReadItem queue os with
            | (false, _, _) => none
            | (true, queue, os) =>
              match mqSmOpenDb queue handle os with
              | (false, _, _) => none
              | (true, queue, os) => some { queue, os }
    | _, _ => none
  | none => none

end Libucmq
