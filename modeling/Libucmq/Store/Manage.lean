import Libucmq.Library.Loop
import Libucmq.Store.File

/-! The message and data file operations of `mq_store_manage.c`. -/

namespace Libucmq

def writeFull (queue : MqQueue) (item : MsgItem) : Bool :=
  queue.curWdb.pos + item.len + 12 > maxDbFilePos

def mqSmDbMakeRoom (queue : MqQueue) (os : Os) (item : MsgItem) :
    Except Abort (Bool × MqQueue × Os) :=
  if writeFull queue item then
    match queue.curWdb.mapMem with
    | none => getNextWriteFile queue os
    | some _ =>
      match mqSmDbWriteFileHead queue os with
      | .error abort => .error abort
      | .ok os => getNextWriteFile queue os
  else .ok (true, queue, os)

def mqSmDbStoreMsg (queue : MqQueue) (os : Os) (item : MsgItem) :
    Except Abort (Bool × MqQueue × Os) :=
  match queue.curWdb.mapMem with
  | none => .error .segv
  | some address =>
    match os.memcpy address queue.curWdb.pos.toNat (itemBytes item) with
    | .error abort => .error abort
    | .ok os =>
      let curWdb :=
        { queue.curWdb with
          pos := queue.curWdb.pos + (item.len + 12)
          optCount := queue.curWdb.optCount + 1 }
      .ok (true, { queue with curWdb, putNum := queue.putNum + 1 }, os)

def mqSmDbWriteMsg (queue : MqQueue) (os : Os) (item : MsgItem) :
    Except Abort (Bool × MqQueue × Os) :=
  match mqSmDbMakeRoom queue os item with
  | .error abort => .error abort
  | .ok (false, queue, os) => .ok (false, queue, os)
  | .ok (true, queue, os) => mqSmDbStoreMsg queue os item

def mqSmPutData (item : MsgItem) (queue : MqQueue) (os : Os) :
    Except Abort (Bool × MqQueue × Os) :=
  match mqSmDbBuildMsgCrc16 item.msg item.len with
  | none => .ok (false, queue, os)
  | some crc16 => mqSmDbWriteMsg queue os { item with crc16 }

structure GetState where
  item : MsgItem
  queue : MqQueue
  os : Os

namespace GetState

def skip (state : GetState) (count : UInt32) : GetState :=
  { state with
    queue := { state.queue with
      curRdb := { state.queue.curRdb with pos := state.queue.curRdb.pos + count } } }

/-- The counters go up, and both down by `maxque` when `get_num` reaches it. -/
def take (state : GetState) (item : MsgItem) : GetState :=
  let queue := state.queue
  let curRdb :=
    { queue.curRdb with
      pos := queue.curRdb.pos + (item.len + 12), optCount := queue.curRdb.optCount + 1 }
  let getNum := queue.getNum + 1
  let maxque := queue.maxque.toUInt64
  if getNum ≥ maxque then
    { state with
      item, queue := { queue with curRdb, getNum := getNum - maxque, putNum := queue.putNum - maxque } }
  else { state with item, queue := { queue with curRdb, getNum } }

def atEnd (state : GetState) : Bool :=
  state.queue.curRdb.curIndex = state.queue.curWdb.curIndex &&
    state.queue.curRdb.pos + 12 ≥ state.queue.curWdb.pos

/-- `none` for `NULL`; an address with nothing mapped is a `SIGSEGV`. -/
def readMemory (state : GetState) : Except Abort (Option Memory.Bytes) :=
  match state.queue.curRdb.mapMem with
  | none => .ok none
  | some address =>
    match state.os.mapped address with
    | some memory => .ok (some memory)
    | none => .error .segv

end GetState

abbrev GetResult := Except Abort (Bool × GetState)

def getDataNextFile (state : GetState) : GetState ⊕ GetResult :=
  match getNextReadFile state.queue state.os with
  | (true, queue, os) => .inl { state with queue, os }
  | (false, queue, os) => .inr (.ok (false, { state with queue, os }))

def getDataStep (state : GetState) : GetState ⊕ GetResult :=
  if state.atEnd then
    let curRdb := { state.queue.curRdb with pos := state.queue.curWdb.pos }
    .inr (.ok (false, { state with queue := { state.queue with curRdb } }))
  else
    match state.readMemory with
    | .error abort => .inr (.error abort)
    | .ok memory =>
      match mqSmDbParseMsg memory state.queue.curRdb.pos state.item with
      | (.ok, item) => .inr (.ok (true, state.take item))
      | (.magNumErr, item) => .inl ({ state with item }.skip 1)
      | (.parseErr, item) => .inl ({ state with item }.skip 2)
      | (.crcErr, item) => .inl ({ state with item }.skip 2)
      | (.msgErr, item) => getDataNextFile { state with item }
      | (.lenBey, item) => getDataNextFile { state with item }

def getDataFuel (queue : MqQueue) : Nat :=
  (queue.curWdb.curIndex.toNat - queue.curRdb.curIndex.toNat + 1) * (maxDbFileSize + 2)

def mqSmGetData (item : MsgItem) (queue : MqQueue) (os : Os) : GetResult :=
  (Loop.run getDataStep (getDataFuel queue) { item, queue, os }).getD (.error .unfinished)

def mqSmCloseDbFile (mapMem : Option Nat) (fd : Fd) (os : Os) : Os := (os.munmap mapMem).close fd

def mqSmOpenDb (queue : MqQueue) (handle : Handle) (os : Os) : Bool × MqQueue × Os :=
  match handle.readFname, handle.writeFname with
  | .db readFile, .db writeFile =>
    let curRdb := { queue.curRdb with curIndex := handle.readFid }
    let curWdb := { queue.curWdb with curIndex := handle.writeFid }
    if curWdb.flag ≠ 0 then (false, { queue with curRdb, curWdb }, os)
    else
      match mqSmOpenDbFile writeFile false os with
      | (none, fd, os) =>
        (false, { queue with curRdb, curWdb := { curWdb with mapMem := none, fd } }, os)
      | (some address, fd, os) =>
        let curWdb := { curWdb with mapMem := some address, fd }
        if curRdb.curIndex = curWdb.curIndex then
          (true,
            { queue with
              curRdb := { curRdb with mapMem := some address, fd, flag := 1 }
              curWdb := { curWdb with flag := 1 } }, os)
        else if curRdb.flag ≠ 0 then
          (false, { queue with curRdb, curWdb }, mqSmCloseDbFile curWdb.mapMem curWdb.fd os)
        else
          match mqSmOpenDbFile readFile false os with
          | (none, readFd, os) =>
            (false,
              { queue with curRdb := { curRdb with mapMem := none, fd := readFd }, curWdb },
              mqSmCloseDbFile curWdb.mapMem curWdb.fd os)
          | (some readAddress, readFd, os) =>
            (true,
              { queue with
                curRdb := { curRdb with mapMem := some readAddress, fd := readFd, flag := 1 }
                curWdb := { curWdb with flag := 1 } }, os)
  | _, _ => (false, queue, os)

def mqSmCloseDb (queue : MqQueue) (os : Os) : MqQueue × Os :=
  let os :=
    if queue.curRdb.curIndex ≠ queue.curWdb.curIndex then
      mqSmCloseDbFile queue.curRdb.mapMem queue.curRdb.fd os
    else os
  ({ queue with
      curRdb := { queue.curRdb with flag := 0 }, curWdb := { queue.curWdb with flag := 0 } },
    mqSmCloseDbFile queue.curWdb.mapMem queue.curWdb.fd os)

/-- What an earlier queue of this name left behind is removed. -/
def mqSmCreatDb (queue : MqQueue) (os : Os) : Bool × MqQueue × Os :=
  let (space, os) := os.attempt
  if !space then (false, queue, os)
  else
    let (made, os) := (os.emit .wipe).attempt
    if !made then (false, queue, os)
    else
      match os.openTag .rtag 1 true false with
      | (none, os) => (false, { queue with rtagFd := none }, os)
      | (some rtagFd, os) =>
        let queue := { queue with rtagFd := some rtagFd }
        match os.openTag .wtag 1 true false with
        | (none, os) => (false, { queue with wtagFd := none }, os)
        | (some wtagFd, os) =>
          let queue := { queue with wtagFd := some wtagFd }
          match mqSmOpenDbFile 1 true os with
          | (none, fd, os) =>
            (false, { queue with curWdb := { queue.curWdb with mapMem := none, fd } },
              os.close queue.rtagFd)
          | (some address, fd, os) =>
            let curWdb := { queue.curWdb with mapMem := some address, fd }
            let queue := { queue with curWdb, maxque := defMaxQueue }
            let (_, os) := mqSmRtagWriteItem queue os
            let (_, os) := mqSmWtagWriteItem queue os
            (true,
              { queue with
                curWdb := { curWdb with curIndex := 1, flag := 1 }
                curRdb := { queue.curRdb with
                  curIndex := 1, flag := 1, mapMem := some address, fd } }, os)

def mqSmGetMsgCount (queue : MqQueue) : UInt64 := queue.putNum - queue.getNum

end Libucmq
