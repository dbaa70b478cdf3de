import Libucmq.Library.Segments
import Libucmq.Library.Machine
import Libucmq.Store.Layout

/-! What one queue is for: first in, first out, with a limit, in numbered files. -/

namespace Libucmq

open Segments

structure WtagLine where
  putNum : UInt64
  pos : UInt32
  maxque : UInt32
deriving DecidableEq, Repr

structure QueueModel where
  log : Log Record
  putNum : UInt64
  getNum : UInt64
  maxque : UInt32
  noted : WtagLine
  lines : Nat

/-- The item a pop fills in starts with what the caller's stack holds. -/
inductive QueueOp
  | push (record : Record)
  | pop (stack : MsgItem)
  | setMaxqueue (maxque : UInt32)

inductive QueueAnswer
  | put (ret : QueuePutRet)
  | got (ret : QueueGetRet) (body : List UInt8)
  | set
deriving DecidableEq, Repr

def queueStep (node : Node) : QueueOp → Except Abort (Node × QueueAnswer)
  | .push record =>
    match mqQmPushItem node.queue node.os (newItem record.delay record.body) with
    | .error abort => .error abort
    | .ok (ret, queue, os) => .ok ({ queue, os }, .put ret)
  | .pop stack =>
    match mqQmPopItem node.queue node.os stack with
    | .error abort => .error abort
    | .ok (ret, item, queue, os) =>
      .ok ({ queue, os }, .got ret (if ret = .getOk then item.msg else []))
  | .setMaxqueue maxque =>
    let (queue, os) := mqQmSetMaxqueue node.queue node.os maxque
    .ok ({ queue, os }, .set)

namespace QueueModel

/-- The line in the write tag was written before the position was set. -/
def initial : QueueModel where
  log := { first := 1, done := [], rest := [], more := [] }
  putNum := 0
  getNum := 0
  maxque := defMaxQueue
  noted := { putNum := 0, pos := 0, maxque := defMaxQueue }
  lines := 1

def full (model : QueueModel) : Bool :=
  model.maxque ≠ 0 && model.putNum - model.getNum + 1 > model.maxque.toUInt64

def fits (model : QueueModel) (record : Record) : Bool :=
  used model.log.tail + record.size ≤ maxDbFileSize

def roll (model : QueueModel) : QueueModel :=
  { model with
    log := model.log.roll
    noted := { putNum := model.putNum, pos := 128, maxque := model.maxque }
    lines := 1 }

def note (model : QueueModel) : QueueModel :=
  { model with
    noted := { putNum := model.putNum, pos := UInt32.ofNat (used model.log.tail), maxque := model.maxque }
    lines := model.lines + 1 }

def store (model : QueueModel) (record : Record) : QueueModel :=
  { model with log := model.log.append record, putNum := model.putNum + 1 }

def count (model : QueueModel) : QueueModel :=
  let getNum := model.getNum + 1
  let maxque := model.maxque.toUInt64
  if getNum ≥ maxque then
    { model with getNum := getNum - maxque, putNum := model.putNum - maxque }
  else { model with getNum }

theorem count_eq (model : QueueModel) : model.count =
      { model with
        getNum := if model.getNum + 1 ≥ model.maxque.toUInt64 then
          model.getNum + 1 - model.maxque.toUInt64 else model.getNum + 1
        putNum := if model.getNum + 1 ≥ model.maxque.toUInt64 then
          model.putNum - model.maxque.toUInt64 else model.putNum } := by
  simp only [count]
  split <;> rfl

def push (model : QueueModel) (record : Record) : QueueModel × QueuePutRet :=
  if model.full then (model, .full)
  else if model.fits record then ((model.store record).note, .putOk)
  else ((model.roll.store record).note, .putOk)

def pop (model : QueueModel) : QueueModel × Option Record :=
  if model.putNum - model.getNum < 1 then (model, none)
  else
    match model.log.take with
    | none => ({ model with log := model.log.settle }, none)
    | some (record, log) => ({ model with log }.count, some record)

def setMaxqueue (model : QueueModel) (maxque : UInt32) : QueueModel := { model with maxque }.note

def step (model : QueueModel) : QueueOp → QueueModel × QueueAnswer
  | .push record => ((model.push record).1, .put (model.push record).2)
  | .pop _ =>
    (model.pop.1,
      match model.pop.2 with
      | none => .got .getEnd []
      | some record => .got .getOk record.body)
  | .setMaxqueue maxque => (model.setMaxqueue maxque, .set)

def unread (model : QueueModel) : List Record := model.log.pending

end QueueModel

end Libucmq
