import Libucmq.Store.Msg
import Libucmq.Store.Tag

/-! The files of `mq_store_file.c`: opening, the two rollovers, the search. -/

namespace Libucmq

open CString

def FileName.text : FileName → List UInt8
  | .db index => ascii "db_" ++ Decimal.padded 12 index.toNat
  | .tag .rtag index => ascii "rtag_" ++ Decimal.padded 12 index.toNat
  | .tag .wtag index => ascii "wtag_" ++ Decimal.padded 12 index.toNat

def extendFileSize (index : UInt64) (length : Nat) (os : Os) : Bool × Os :=
  let (granted, os) := os.attempt
  let os := if granted then os.emit (.resizeDb index length) else os
  match os.dir.db index with
  | none => (false, os)
  | some file =>
    if file.size = 0 then (false, os)
    else
      let (granted, os) := os.attempt
      (true, if granted then os.emit (.writeDb index (file.size - 1) [48]) else os)

def mqSmOpenDbFile (index : UInt64) (create : Bool) (os : Os) : Option Nat × Fd × Os :=
  match os.openDb index create with
  | (none, os) => (none, none, os)
  | (some fd, os) =>
    let (sized, os) :=
      if create then extendFileSize index maxDbFileSize os
      else (decide (((os.dir.db index).map fun file => toCInt file.size) = some 67108864), os)
    if sized then
      match os.mmap index with
      | (some address, os) => (some address, some fd, os)
      | (none, os) => (none, some fd, os.close (some fd))
    else (none, some fd, os.close (some fd))

/-- Steps 3 to 5 of `get_next_read_file`: new tag, then the `old` files go. -/
def retireReadFile (old queue : MqQueue) (os : Os) : Os :=
  let (_, os) := mqSmRtagWriteItem queue os
  let os := (os.close old.rtagFd).emit (.unlinkTag .rtag old.curRdb.curIndex)
  ((os.munmap old.curRdb.mapMem).close old.curRdb.fd).emit (.unlinkDb old.curRdb.curIndex)

def getNextReadFile (queue : MqQueue) (os : Os) : Bool × MqQueue × Os :=
  let nextIndex := queue.curRdb.curIndex + 1
  if nextIndex > queue.curWdb.curIndex then
    (false, { queue with curRdb := { queue.curRdb with curIndex := queue.curWdb.curIndex } }, os)
  else
    match mqSmTagOpenNextFile .rtag nextIndex os with
    | (none, os) =>
      (false, { queue with curRdb := { queue.curRdb with flag := 0 }, rtagFd := none }, os)
    | (some fd, os) =>
      let curRdb := { queue.curRdb with flag := 0, curIndex := nextIndex, optCount := 0, pos := 128 }
      let next := { queue with rtagFd := some fd, curRdb }
      let os := retireReadFile queue next os
      if nextIndex = queue.curWdb.curIndex then
        let curRdb := { curRdb with mapMem := queue.curWdb.mapMem, fd := queue.curWdb.fd, flag := 1 }
        (true, { next with curRdb }, os)
      else
        match mqSmOpenDbFile nextIndex false os with
        | (none, dbFd, os) =>
          (false, { next with curRdb := { curRdb with mapMem := none, fd := dbFd } },
            os.close next.rtagFd)
        | (some address, dbFd, os) =>
          let curRdb := { curRdb with mapMem := some address, fd := dbFd, flag := 1 }
          (true, { next with curRdb }, os)

def detachWriteFile (queue : MqQueue) (os : Os) : MqDbMap × Os :=
  if queue.curWdb.curIndex > queue.curRdb.curIndex then
    ({ queue.curWdb with flag := 0 }, (os.munmap queue.curWdb.mapMem).close queue.curWdb.fd)
  else (queue.curWdb, os)

def getNextWriteFile (queue : MqQueue) (os : Os) : Except Abort (Bool × MqQueue × Os) :=
  let (space, os) := os.attempt
  if !space then .ok (false, queue, os)
  else
    let oldIndex := queue.curWdb.curIndex
    let nextIndex := oldIndex + 1
    let oldWtagFd := queue.wtagFd
    let (curWdb, os) := detachWriteFile queue os
    match mqSmTagOpenNextFile .wtag nextIndex os with
    | (none, os) => .ok (false, { queue with curWdb, wtagFd := none }, os)
    | (some fd, os) =>
      match mqSmOpenDbFile nextIndex true os with
      | (none, dbFd, os) =>
        .ok (false,
          { queue with curWdb := { curWdb with mapMem := none, fd := dbFd }
                       wtagFd := some fd }, os)
      | (some address, dbFd, os) =>
        let curWdb :=
          { curWdb with
            mapMem := some address, fd := dbFd
            optCount := 0, flag := 1, pos := 128, curIndex := nextIndex }
        let queue := { queue with curWdb, wtagFd := some fd }
        match mqSmDbWriteFileHead queue os with
        | .error abort => .error abort
        | .ok os =>
          let (_, os) := mqSmWtagWriteItem queue os
          .ok (true, queue, (os.close oldWtagFd).emit (.unlinkTag .wtag oldIndex))

def getIdByFname (fname : List UInt8) : UInt64 :=
  (tokens 95 fname).foldl (fun _ token => UInt64.ofInt (atoll token)) 0

structure QueueFile where
  readFname : Option FileName := none
  writeFname : Option FileName := none
  rtagFname : Option FileName := none
  wtagFname : Option FileName := none
deriving DecidableEq, Repr

/-- The size of `ent` is asked for by its bare name, hence `cwd`. -/
def pickTag (cwd : FileName → Bool) (ent : FileName) : Option FileName → FileName
  | none => ent
  | some kept => if cwd ent && decide (kept.text < ent.text) then ent else kept

def findHandleStep (cwd : FileName → Bool) (found : QueueFile) (ent : FileName) : QueueFile :=
  match ent with
  | .db _ =>
    { found with
      readFname := some (match found.readFname with
        | none => ent
        | some kept => if ent.text < kept.text then ent else kept)
      writeFname := some (match found.writeFname with
        | none => ent
        | some kept => if kept.text < ent.text then ent else kept) }
  | .tag .rtag _ => { found with rtagFname := some (pickTag cwd ent found.rtagFname) }
  | .tag .wtag _ => { found with wtagFname := some (pickTag cwd ent found.wtagFname) }

structure Handle where
  readFname : FileName
  writeFname : FileName
  rtagFname : FileName
  wtagFname : FileName
  readFid : UInt64
  writeFid : UInt64
deriving DecidableEq, Repr

def findHandleFile (cwd : FileName → Bool) (listing : List FileName) : Option Handle :=
  match listing.foldl (findHandleStep cwd) {} with
  | { readFname := some readFname, writeFname := some writeFname,
      rtagFname := some rtagFname, wtagFname := some wtagFname } =>
      let readFid := getIdByFname readFname.text
      let writeFid := getIdByFname writeFname.text
      if getIdByFname rtagFname.text ≠ readFid then none
      else if getIdByFname wtagFname.text ≠ writeFid then none
      else some { readFname, writeFname, rtagFname, wtagFname, readFid, writeFid }
  | _ => none

end Libucmq
