import Libucmq.Library.Memory
import Libucmq.Library.Decimal

/-! The data model of the message store and the system calls it makes. -/

namespace Libucmq

open Memory Function

def dbFileMaxSize : Nat := 64
def maxDbFileSize : Nat := dbFileMaxSize * 1024 * 1024
def dbFileHeadLen : Nat := 128
def dbFileVersion : Nat := 1
def msgHeadLen : Nat := 12
def msgHeadOfFirstMagicNum : UInt8 := 0xFE
def msgHeadOfSecondMagicNum : UInt8 := 0xAC
def defMaxQueue : UInt32 := 100000000
def defMaxQlistItems : Nat := 32
def defSyncInterval : Int := 100
def maxQueueNameLen : Nat := 32

def maxDbFilePos : UInt32 := UInt32.ofNat maxDbFileSize

@[simp] theorem maxDbFileSize_eq : maxDbFileSize = 67108864 := rfl

@[simp] theorem maxDbFilePos_toNat : maxDbFilePos.toNat = 67108864 := rfl

/-- A descriptor; `none` is the negative value a failed `open` returns. -/
abbrev Fd := Option Nat

/-- `mapMem` is the address of the mapping, `none` for `NULL`. -/
structure MqDbMap where
  fd : Fd := some 0
  flag : Nat := 0
  mapMem : Option Nat := none
  pos : UInt32 := 0
  optCount : UInt32 := 0
  curIndex : UInt64 := 0
deriving DecidableEq, Repr

structure MqQueue where
  qname : List UInt8 := []
  rtagFd : Fd := some 0
  wtagFd : Fd := some 0
  syncIntv : Int := 0
  maxque : UInt32 := 0
  putNum : UInt64 := 0
  getNum : UInt64 := 0
  curRdb : MqDbMap := {}
  curWdb : MqDbMap := {}
deriving DecidableEq, Repr

/-- `msg_item_t`; `msg` stands for the `len` bytes the pointer designates. -/
structure MsgItem where
  magicNum1 : UInt8 := 0
  magicNum2 : UInt8 := 0
  delay : UInt32 := 0
  crc16 : UInt16 := 0
  len : UInt32 := 0
  msg : List UInt8 := []
deriving DecidableEq, Repr

inductive MsgCheckRet
  | ok | msgErr | magNumErr | parseErr | crcErr | lenBey
deriving DecidableEq, Repr

inductive QueuePutRet
  | putOk | full | wlock | putError
deriving DecidableEq, Repr

inductive QueueGetRet
  | getOk | getEnd | getError
deriving DecidableEq, Repr

/-- A stray access, a failed `assert`, or a loop out of fuel. -/
inductive Abort
  | segv | assertion | unfinished
deriving DecidableEq, Repr

def toCInt (size : Nat) : Int :=
  if size % 4294967296 < 2147483648 then (size % 4294967296 : Nat)
  else (size % 4294967296 : Nat) - 4294967296

theorem toCInt_of_lt {size : Nat} (bound : size < 2147483648) : toCInt size = size := by
  rw [toCInt, if_pos] <;> omega

structure DbFile where
  size : Nat
  bytes : Bytes

inductive TagKind
  | rtag | wtag
deriving DecidableEq, Repr

inductive FileName
  | db (index : UInt64)
  | tag (kind : TagKind) (index : UInt64)
deriving DecidableEq, Repr

structure QueueDir where
  db : UInt64 → Option DbFile := fun _ => none
  tag : TagKind → UInt64 → Option (List UInt8) := fun _ _ => none

def overwrite (content : List UInt8) (offset : Nat) (data : List UInt8) : List UInt8 :=
  content.take offset ++ List.replicate (offset - content.length) 0 ++ data ++
    content.drop (offset + data.length)

inductive Effect
  | createDb (index : UInt64)
  | resizeDb (index : UInt64) (size : Nat)
  | writeDb (index : UInt64) (pos : Nat) (data : List UInt8)
  | unlinkDb (index : UInt64)
  | createTag (kind : TagKind) (index : UInt64)
  | writeTag (kind : TagKind) (index : UInt64) (offset : Nat) (data : List UInt8)
  | unlinkTag (kind : TagKind) (index : UInt64)
  | wipe

namespace QueueDir

def setDb (dir : QueueDir) (index : UInt64) (file : Option DbFile) : QueueDir :=
  { dir with db := update dir.db index file }

def setTag (dir : QueueDir) (kind : TagKind) (index : UInt64) (content : Option (List UInt8)) :
    QueueDir :=
  { dir with tag := update dir.tag kind (update (dir.tag kind) index content) }

def apply (dir : QueueDir) : Effect → QueueDir
  | .createDb index =>
    match dir.db index with
    | some _ => dir
    | none => dir.setDb index (some { size := 0, bytes := fun _ => 0 })
  | .resizeDb index size =>
    dir.setDb index ((dir.db index).map fun file =>
      { size, bytes := fun pos => if pos < file.size then file.bytes pos else 0 })
  | .writeDb index pos data =>
    dir.setDb index ((dir.db index).map fun file =>
      { file with bytes := store file.bytes pos data })
  | .unlinkDb index => dir.setDb index none
  | .createTag kind index =>
    match dir.tag kind index with
    | some _ => dir
    | none => dir.setTag kind index (some [])
  | .writeTag kind index offset data =>
    dir.setTag kind index ((dir.tag kind index).map fun content => overwrite content offset data)
  | .unlinkTag kind index => dir.setTag kind index none
  | .wipe => {}

section

variable (dir : QueueDir)

include dir

@[simp] theorem setDb_db (index query : UInt64) (file : Option DbFile) :
    (dir.setDb index file).db query = if query = index then file else dir.db query := by
  simp [setDb, update_apply]

@[simp] theorem setDb_tag (index : UInt64) (file : Option DbFile) :
    (dir.setDb index file).tag = dir.tag := rfl

@[simp] theorem setDb_setDb (index : UInt64) (file other : Option DbFile) :
    (dir.setDb index file).setDb index other = dir.setDb index other := by
  simp [setDb]

@[simp] theorem setTag_db (kind : TagKind) (index : UInt64)
    (content : Option (List UInt8)) : (dir.setTag kind index content).db = dir.db := rfl

@[simp] theorem setTag_tag (kind other : TagKind) (index query : UInt64)
    (content : Option (List UInt8)) : (dir.setTag kind index content).tag other query =
      if other = kind ∧ query = index then content else dir.tag other query := by
  by_cases same : other = kind
  · subst same
    simp [setTag, update_apply]
  · simp [setTag, same]

@[simp] theorem apply_wipe : dir.apply .wipe = {} := rfl

end

theorem apply_createDb_absent {dir : QueueDir} {index : UInt64} (absent : dir.db index = none) :
    dir.apply (.createDb index) = dir.setDb index (some { size := 0, bytes := fun _ => 0 }) := by
  simp [apply, absent]

theorem apply_createTag_absent {dir : QueueDir} {kind : TagKind} {index : UInt64}
    (absent : dir.tag kind index = none) : dir.apply (.createTag kind index) = dir.setTag kind index (some []) := by
  simp [apply, absent]

section

variable (dir : QueueDir)

include dir

@[simp] theorem apply_createTag_db (kind : TagKind) (index : UInt64) :
    (dir.apply (.createTag kind index)).db = dir.db := by
  simp only [apply]
  split <;> rfl

@[simp] theorem apply_writeTag_db (kind : TagKind) (index : UInt64) (offset : Nat)
    (data : List UInt8) : (dir.apply (.writeTag kind index offset data)).db = dir.db := rfl

@[simp] theorem apply_unlinkTag_db (kind : TagKind) (index : UInt64) :
    (dir.apply (.unlinkTag kind index)).db = dir.db := rfl

@[simp] theorem apply_unlinkDb_db (index query : UInt64) :
    (dir.apply (.unlinkDb index)).db query = if query = index then none else dir.db query := by
  simp [apply]

@[simp] theorem apply_writeDb_db (index query : UInt64) (pos : Nat) (data : List UInt8) :
    (dir.apply (.writeDb index pos data)).db query =
      if query = index then
        (dir.db index).map fun file => { file with bytes := store file.bytes pos data }
      else dir.db query := by
  simp [apply]

@[simp] theorem apply_resizeDb_db (index query : UInt64) (size : Nat) :
    (dir.apply (.resizeDb index size)).db query =
      if query = index then
        (dir.db index).map fun file =>
          { size, bytes := fun pos => if pos < file.size then file.bytes pos else 0 }
      else dir.db query := by
  simp [apply]

@[simp] theorem apply_writeTag_tag (kind other : TagKind) (index query : UInt64)
    (offset : Nat) (data : List UInt8) : (dir.apply (.writeTag kind index offset data)).tag other query =
      if other = kind ∧ query = index then
        (dir.tag kind index).map fun content => overwrite content offset data
      else dir.tag other query := by
  simp [apply]

@[simp] theorem apply_unlinkTag_tag (kind other : TagKind) (index query : UInt64) :
    (dir.apply (.unlinkTag kind index)).tag other query =
      if other = kind ∧ query = index then none else dir.tag other query := by
  simp [apply]

theorem apply_createTag_tag (kind other : TagKind) (index query : UInt64) :
    (dir.apply (.createTag kind index)).tag other query =
      if other = kind ∧ query = index then some ((dir.tag kind index).getD [])
      else dir.tag other query := by
  simp only [apply]
  split
  · rename_i found
    split
    · rename_i same
      rw [same.1, same.2, found]
      rfl
    · rfl
  · rename_i missing
    simp [missing]

@[simp] theorem apply_createDb_tag (index : UInt64) : (dir.apply (.createDb index)).tag = dir.tag := by
  simp only [apply]
  split <;> rfl

@[simp] theorem apply_resizeDb_tag (index : UInt64) (size : Nat) :
    (dir.apply (.resizeDb index size)).tag = dir.tag := rfl

@[simp] theorem apply_writeDb_tag (index : UInt64) (pos : Nat)
    (data : List UInt8) : (dir.apply (.writeDb index pos data)).tag = dir.tag := rfl

@[simp] theorem apply_unlinkDb_tag (index : UInt64) :
    (dir.apply (.unlinkDb index)).tag = dir.tag := rfl

end

end QueueDir

inductive OpenFile
  | db (index : UInt64)
  | tag (kind : TagKind) (index : UInt64) (offset : Nat) (append : Bool)
deriving DecidableEq, Repr

/-- The system as one queue sees it: effects in order, and which calls fail. -/
structure Os where
  dir : QueueDir := {}
  trace : List Effect := []
  fds : Nat → Option OpenFile := fun _ => none
  maps : Nat → Option UInt64 := fun _ => none
  nextHandle : Nat := 3
  faults : Nat → Bool := fun _ => false
  calls : Nat := 0
  closes : List Nat := []
  unmaps : List Nat := []

namespace Os

@[simps]
def emit (os : Os) (effect : Effect) : Os :=
  { os with dir := os.dir.apply effect, trace := os.trace ++ [effect] }

@[simps]
def tick (os : Os) : Os := { os with calls := os.calls + 1 }

@[simps]
def setFd (os : Os) (fd : Nat) (file : Option OpenFile) : Os :=
  { os with fds := update os.fds fd file }

@[simps]
def setMap (os : Os) (address : Nat) (index : Option UInt64) : Os :=
  { os with maps := update os.maps address index }

@[simps]
def allot (os : Os) : Os := { os with nextHandle := os.nextHandle + 1 }

def attempt (os : Os) : Bool × Os := (!os.faults os.calls, os.tick)

def openTag (os : Os) (kind : TagKind) (index : UInt64) (create append : Bool) : Fd × Os :=
  let (granted, os) := os.attempt
  if granted && (create || (os.dir.tag kind index).isSome) then
    let os := if create then os.emit (.createTag kind index) else os
    (some os.nextHandle, (os.setFd os.nextHandle (some (.tag kind index 0 append))).allot)
  else (none, os)

def openDb (os : Os) (index : UInt64) (create : Bool) : Fd × Os :=
  let (granted, os) := os.attempt
  if granted && (create || (os.dir.db index).isSome) then
    let os := if create then os.emit (.createDb index) else os
    (some os.nextHandle, (os.setFd os.nextHandle (some (.db index))).allot)
  else (none, os)

def close (os : Os) (fd : Fd) : Os :=
  match fd with
  | some fd => { os.setFd fd none with closes := os.closes ++ [fd] }
  | none => os

def mmap (os : Os) (index : UInt64) : Option Nat × Os :=
  let (granted, os) := os.attempt
  if granted then (some os.nextHandle, (os.setMap os.nextHandle (some index)).allot)
  else (none, os)

def munmap (os : Os) (address : Option Nat) : Os :=
  match address with
  | some address => { os.setMap address none with unmaps := os.unmaps ++ [address] }
  | none => os

def mapped (os : Os) (address : Nat) : Option Bytes :=
  (os.maps address).bind fun index => (os.dir.db index).map DbFile.bytes

def memcpy (os : Os) (address pos : Nat) (data : List UInt8) : Except Abort Os :=
  match os.maps address with
  | some index =>
    if pos + data.length ≤ maxDbFileSize then .ok (os.emit (.writeDb index pos data))
    else .error .segv
  | none => .error .segv

def writeN (os : Os) (fd : Fd) (data : List UInt8) : Bool × Os :=
  let (granted, os) := os.attempt
  match fd with
  | none => (false, os)
  | some fd =>
    match os.fds fd with
    | some (.tag kind index offset append) =>
      if granted then
        let place := if append then ((os.dir.tag kind index).getD []).length else offset
        let os := os.emit (.writeTag kind index place data)
        (true, os.setFd fd (some (.tag kind index (place + data.length) append)))
      else (false, os)
    | _ => (false, os)

def Reliable (os : Os) : Prop := ∀ call, os.faults call = false

end Os

end Libucmq
