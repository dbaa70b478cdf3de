import Libucmq.Store.Push

/-! The check of one record over memory that traps. -/

namespace Libucmq

open Memory

structure Region where
  bytes : Bytes
  low : Nat
  high : Nat

namespace Region

def read {α : Type} (region : Region) (offset count : Nat) (value : Bytes → α) : Except Abort α :=
  if region.low ≤ offset ∧ offset + count ≤ region.high then .ok (value region.bytes)
  else .error .segv

def crc16Append (region : Region) (offset : Nat) : Nat → UInt16 → Except Abort UInt16
  | 0, c16 => .ok c16
  | count + 1, c16 => do
    let byte ← region.read offset 1 (· offset)
    crc16Append region (offset + 1) count (crc16Step c16 byte)

/-- The length is a signed `int`; a negative one is refused. -/
def mqSmDbBuildMsgCrc16 (region : Region) (offset : Nat) (len : UInt32) : Except Abort (Option UInt16) :=
  if 2147483648 ≤ len.toNat then .ok none
  else do
    let crc ← region.crc16Append offset len.toNat 0
    return some crc

def mqSmDbParseMsgHead (region : Region) (head : Nat) (item : MsgItem) : Except Abort MsgItem := do
  let magicNum1 ← region.read head 1 (· head)
  let magicNum2 ← region.read (head + 1) 1 (· (head + 1))
  let delay ← region.read (head + 2) 4 (read32 · (head + 2))
  let crc16 ← region.read (head + 6) 2 (read16 · (head + 6))
  let len ← region.read (head + 8) 4 (read32 · (head + 8))
  return { item with magicNum1, magicNum2, delay, crc16, len }

/-- The verdict, the item left, and where an accepted body starts. -/
def mqSmDbParseMsg (region : Region) (curPos : UInt32) (item : MsgItem) :
    Except Abort (MsgCheckRet × MsgItem × Option Nat) :=
  if curPos + 12 ≥ maxDbFilePos then .ok (.lenBey, item, none)
  else do
    let first ← region.read curPos.toNat 1 (· curPos.toNat)
    let second ← region.read (curPos.toNat + 1) 1 (· (curPos.toNat + 1))
    if first ≠ msgHeadOfFirstMagicNum ∨ second ≠ msgHeadOfSecondMagicNum then
      return (.magNumErr, item, none)
    let item ← region.mqSmDbParseMsgHead curPos.toNat item
    if curPos + item.len + 12 > maxDbFilePos then
      return (.lenBey, item, none)
    let body := curPos.toNat + msgHeadLen
    match ← region.mqSmDbBuildMsgCrc16 body item.len with
    | some crc =>
      if item.crc16 = crc then return (.ok, item, some body) else return (.crcErr, item, none)
    | none => return (.crcErr, item, none)

variable {region : Region}

theorem read_inside {α : Type} {offset count : Nat} (value : Bytes → α) (low : region.low ≤ offset)
    (high : offset + count ≤ region.high) : region.read offset count value = .ok (value region.bytes) := by
  rw [read, if_pos ⟨low, high⟩]

theorem crc16Append_inside {offset count : Nat} (c16 : UInt16) (low : region.low ≤ offset)
    (high : offset + count ≤ region.high) :
    region.crc16Append offset count c16 = .ok ((load region.bytes offset count).foldl crc16Step c16) := by
  induction count generalizing offset c16 with
  | zero => rfl
  | succ count ih =>
    rw [crc16Append, read_inside _ low (by omega)]
    exact ih _ (by omega) (by omega)

theorem parseMsgHead_inside {head : Nat} (item : MsgItem) (low : region.low ≤ head) (high : head + 12 ≤ region.high) :
    region.mqSmDbParseMsgHead head item = .ok (Libucmq.mqSmDbParseMsgHead region.bytes head item) := by
  rw [mqSmDbParseMsgHead, read_inside _ low (by omega), read_inside _ (by omega) (by omega),
    read_inside _ (by omega) (by omega), read_inside _ (by omega) (by omega),
    read_inside _ (by omega) (by omega)]
  rfl

theorem buildMsgCrc16_inside {offset : Nat} {len : UInt32} (low : region.low ≤ offset)
    (high : len.toNat < 2147483648 → offset + len.toNat ≤ region.high) : region.mqSmDbBuildMsgCrc16 offset len =
      .ok (Libucmq.mqSmDbBuildMsgCrc16 (load region.bytes offset len.toNat) len) := by
  rw [mqSmDbBuildMsgCrc16, Libucmq.mqSmDbBuildMsgCrc16]
  by_cases negative : 2147483648 ≤ len.toNat
  · rw [if_pos negative, if_pos negative]
  · rw [if_neg negative, if_neg negative, crc16Append_inside 0 low (high (by omega))]
    rfl

end Region

theorem body_inside {pos len : UInt32} (bound : pos.toNat + 12 < 67108864)
    (inside : ¬ pos + len + 12 > maxDbFilePos) (positive : len.toNat < 2147483648) :
    pos.toNat + 12 + len.toNat ≤ 67108864 := by
  have sum : (pos + len + 12).toNat = pos.toNat + len.toNat + 12 := by
    rw [UInt32.toNat_add, UInt32.toNat_add]
    simp only [UInt32.reduceToNat]
    omega
  rw [gt_iff_lt, UInt32.lt_iff_toNat_lt, sum, maxDbFilePos_toNat] at inside
  omega

theorem head_inside {pos : UInt32} (bound : pos.toNat ≤ 67108864) (early : ¬ pos + 12 ≥ maxDbFilePos) :
    pos.toNat + 12 < 67108864 := by
  rw [ge_iff_le, UInt32.le_iff_toNat_le, pos_add_toNat (by simp only [UInt32.reduceToNat]; omega),
    maxDbFilePos_toNat] at early
  simp only [UInt32.reduceToNat] at early
  omega

theorem parseMsg_accepts {bytes : Bytes} {pos : UInt32} {item : MsgItem} (bound : pos.toNat ≤ 67108864)
    (accepted : (mqSmDbParseMsg (some bytes) pos item).1 = .ok) :
    pos.toNat + 12 + (read32 bytes (pos.toNat + 8)).toNat ≤ 67108864 ∧
    crc16Append 0 (load bytes (pos.toNat + 12) (read32 bytes (pos.toNat + 8)).toNat) =
      read16 bytes (pos.toNat + 6) := by
  rw [mqSmDbParseMsg] at accepted
  by_cases late : pos + 12 ≥ maxDbFilePos
  · simp [late] at accepted
  have early := head_inside bound late
  rw [if_neg late] at accepted
  split at accepted
  · simp at accepted
  have len : (mqSmDbParseMsgHead bytes pos.toNat item).len = read32 bytes (pos.toNat + 8) := rfl
  have crc : (mqSmDbParseMsgHead bytes pos.toNat item).crc16 = read16 bytes (pos.toNat + 6) := rfl
  generalize mqSmDbParseMsgHead bytes pos.toNat item = head at accepted len crc
  by_cases beyond : pos + head.len + 12 > maxDbFilePos
  · simp [beyond] at accepted
  by_cases negative : 2147483648 ≤ head.len.toNat
  · simp [beyond, mqSmDbBuildMsgCrc16, negative] at accepted
  simp only [if_neg beyond, mqSmDbBuildMsgCrc16, if_neg negative] at accepted
  by_cases same : head.crc16 = crc16Append 0 (load bytes (pos.toNat + msgHeadLen) head.len.toNat)
  · rw [← len, ← crc]
    exact ⟨body_inside early beyond (by omega), same.symm⟩
  · simp [same] at accepted

/-- No byte before `cur_pos` or past the file is touched. -/
theorem recordCheck_inside (bytes : Bytes) (pos : UInt32) (item : MsgItem) (bound : pos.toNat ≤ maxDbFileSize) :
    (∃ seen body, Region.mqSmDbParseMsg ⟨bytes, pos.toNat, maxDbFileSize⟩ pos item =
        .ok ((mqSmDbParseMsg (some bytes) pos item).1, seen, body) ∧
      mqSmDbParseMsg (some bytes) pos item = ((mqSmDbParseMsg (some bytes) pos item).1,
        match body with
        | some start => { seen with msg := load bytes start seen.len.toNat }
        | none => seen)) ∧
    ((mqSmDbParseMsg (some bytes) pos item).1 = .ok →
      pos.toNat + 12 + (read32 bytes (pos.toNat + 8)).toNat ≤ maxDbFileSize ∧
      crc16Append 0 (load bytes (pos.toNat + 12) (read32 bytes (pos.toNat + 8)).toNat) =
        read16 bytes (pos.toNat + 6)) := by
  rw [maxDbFileSize_eq] at bound ⊢
  refine ⟨?_, parseMsg_accepts bound⟩
  rw [mqSmDbParseMsg, Region.mqSmDbParseMsg]
  by_cases late : pos + 12 ≥ maxDbFilePos
  · exact ⟨item, none, by simp [late], by simp [late]⟩
  have early := head_inside bound late
  rw [if_neg late, if_neg late, Region.read_inside _ (le_refl _) (by simp only; omega),
    Region.read_inside _ (by simp only; omega) (by simp only; omega),
    Region.parseMsgHead_inside item (le_refl _) (by simp only; omega)]
  simp only [bind, Except.bind]
  by_cases magic : bytes pos.toNat ≠ msgHeadOfFirstMagicNum ∨
      bytes (pos.toNat + 1) ≠ msgHeadOfSecondMagicNum
  · simp only [if_pos magic]
    exact ⟨item, none, rfl, rfl⟩
  simp only [if_neg magic]
  set read := mqSmDbParseMsgHead bytes pos.toNat item with readEq
  by_cases beyond : pos + read.len + 12 > maxDbFilePos
  · simp only [if_pos beyond]
    exact ⟨read, none, rfl, rfl⟩
  simp only [if_neg beyond, msgHeadLen]
  rw [Region.buildMsgCrc16_inside (by simp only; omega)
    (fun positive => by have := body_inside early beyond positive; simp only; omega)]
  simp only
  cases mqSmDbBuildMsgCrc16 (load bytes (pos.toNat + 12) read.len.toNat) read.len with
  | none => exact ⟨read, none, rfl, rfl⟩
  | some crc =>
    by_cases same : read.crc16 = crc
    · simp only [if_pos same]
      exact ⟨read, some (pos.toNat + 12), rfl, rfl⟩
    · simp only [if_neg same]
      exact ⟨read, none, rfl, rfl⟩

def wrappedRecord : Bytes :=
  store (fun _ => 0) 128
    (itemBytes { newItem 0 [] with
      magicNum1 := msgHeadOfFirstMagicNum, magicNum2 := msgHeadOfSecondMagicNum, len := 0xFFFFFF80 })

theorem wrappedRecord_checked : (128 : UInt32) + 0xFFFFFF80 + 12 = 12 ∧
    ∃ seen body, Region.mqSmDbParseMsg ⟨wrappedRecord, 128, maxDbFileSize⟩ 128 (newItem 0 []) =
      .ok (.crcErr, seen, body) := by
  have verdict : (mqSmDbParseMsg (some wrappedRecord) 128 (newItem 0 [])).1 = .crcErr := by decide
  obtain ⟨⟨seen, body, run, _⟩, _⟩ := recordCheck_inside wrappedRecord 128 (newItem 0 []) (by decide)
  rw [verdict] at run
  exact ⟨by decide, seen, body, run⟩

def sealItem (delay : UInt32) (body : List UInt8) : MsgItem :=
  { magicNum1 := msgHeadOfFirstMagicNum
    magicNum2 := msgHeadOfSecondMagicNum
    delay
    crc16 := crc16Append 0 body
    len := UInt32.ofNat body.length
    msg := body }

theorem sealItem_len {body : List UInt8} (delay : UInt32) (bound : body.length < 2147483648) :
    (sealItem delay body).len.toNat = body.length := by
  simp only [sealItem, UInt32.toNat_ofNat']
  omega

theorem sealItem_sealed {body : List UInt8} (delay : UInt32) (nonempty : 0 < body.length)
    (bound : body.length < 2147483648) : Sealed (sealItem delay body) where
  first := rfl
  second := rfl
  len := sealItem_len delay bound
  nonempty := nonempty
  crc := by
    rw [mqSmDbBuildMsgCrc16, if_neg (by rw [sealItem_len delay bound]; omega)]
    rfl

theorem sealItem_length (delay : UInt32) (body : List UInt8) :
    (itemBytes (sealItem delay body)).length = 12 + body.length := by
  simp [itemBytes, sealItem]
  omega

theorem writeMsg_fits {queue : MqQueue} (delay : UInt32) {body : List UInt8} (os : Os)
    (fits : queue.curWdb.pos.toNat + 12 + body.length ≤ 67108864) :
    mqSmDbWriteMsg queue os (sealItem delay body) = mqSmDbStoreMsg queue os (sealItem delay body) := by
  have len := sealItem_len delay (show body.length < 2147483648 by omega)
  have stay : writeFull queue (sealItem delay body) = false := by
    simp only [writeFull, gt_iff_lt, decide_eq_false_iff_not, UInt32.lt_iff_toNat_lt, UInt32.toNat_add, len,
      maxDbFilePos_toNat, UInt32.reduceToNat]
    omega
  have room : mqSmDbMakeRoom queue os (sealItem delay body) = .ok (true, queue, os) := by
    rw [mqSmDbMakeRoom, stay]
    rfl
  rw [mqSmDbWriteMsg, room]

theorem putData_fits {queue : MqQueue} {delay : UInt32} {body : List UInt8} (os : Os)
    (nonempty : 0 < body.length) (fits : queue.curWdb.pos.toNat + 12 + body.length ≤ 67108864) :
    mqSmPutData (stampItem (newItem delay body)) queue os = mqSmDbStoreMsg queue os (sealItem delay body) := by
  have crc : mqSmDbBuildMsgCrc16 body (UInt32.ofNat body.length) = some (crc16Append 0 body) :=
    (sealItem_sealed delay nonempty (by omega)).crc
  simp only [mqSmPutData, stampItem, newItem, crc]
  rw [← sealItem, writeMsg_fits delay os fits]

/-- A message that fits is read back as given, and nothing else changes. -/
theorem putData_roundTrip (queue : MqQueue) (os : Os) (address : Nat) (index : UInt64) (file : DbFile)
    (delay : UInt32) (body : List UInt8) (map : queue.curWdb.mapMem = some address)
    (mapped : os.maps address = some index) (found : os.dir.db index = some file)
    (nonempty : 1 ≤ body.length) (fits : queue.curWdb.pos.toNat + 12 + body.length ≤ maxDbFileSize) :
    ∃ stored after written, mqSmPutData (stampItem (newItem delay body)) queue os = .ok (true, stored, after) ∧
      after.dir.db index = some written ∧ stored.curWdb.pos.toNat = queue.curWdb.pos.toNat + 12 + body.length ∧
      (∀ stack, ∃ item, mqSmDbParseMsg (some written.bytes) queue.curWdb.pos stack = (.ok, item) ∧
        item.delay = delay ∧ item.len.toNat = body.length ∧ item.msg = body) ∧
      ∀ offset, offset < queue.curWdb.pos.toNat ∨ stored.curWdb.pos.toNat ≤ offset →
        written.bytes offset = file.bytes offset := by
  rw [maxDbFileSize_eq] at fits
  have bound : body.length < 2147483648 := by omega
  have size := sealItem_length delay body
  have advance : ((sealItem delay body).len + 12).toNat = 12 + body.length := by
    rw [UInt32.toNat_add, sealItem_len delay bound]
    simp only [UInt32.reduceToNat]
    omega
  have position : (queue.curWdb.pos + ((sealItem delay body).len + 12)).toNat =
      queue.curWdb.pos.toNat + 12 + body.length := by
    rw [pos_add_toNat (by omega), advance]
    omega
  rw [putData_fits os nonempty fits, storeMsg_item _ map mapped (by rw [size, maxDbFileSize_eq]; omega)]
  refine ⟨_, _, { file with bytes := store file.bytes queue.curWdb.pos.toNat (itemBytes (sealItem delay body)) },
    rfl, by simp [found], position, ?_, ?_⟩
  · intro stack
    refine ⟨sealItem delay body, ?_, rfl, sealItem_len delay bound, rfl⟩
    exact parseMsg_item stack (sealItem_sealed delay nonempty bound) fits (holdsAt_store _ _ _)
  · intro offset outside
    apply store_outside
    rw [size]
    rw [position] at outside
    omega

theorem putData_roundTrip_magic : ∃ stored after written,
      mqSmPutData (stampItem (newItem 7 [msgHeadOfFirstMagicNum, msgHeadOfSecondMagicNum]))
        { curWdb := { mapMem := some 9, pos := 128 } }
        { dir := { db := fun _ => some ⟨maxDbFileSize, fun _ => msgHeadOfFirstMagicNum⟩ }
          maps := fun _ => some 1 } = .ok (true, stored, after) ∧
      after.dir.db 1 = some written ∧ stored.curWdb.pos.toNat = 142 ∧
      ∃ item, mqSmDbParseMsg (some written.bytes) 128 {} = (.ok, item) ∧
        item.msg = [msgHeadOfFirstMagicNum, msgHeadOfSecondMagicNum] := by
  obtain ⟨stored, after, written, put, found, pos, parsed, _⟩ :=
    putData_roundTrip { curWdb := { mapMem := some 9, pos := 128 } }
      { dir := { db := fun _ => some ⟨maxDbFileSize, fun _ => msgHeadOfFirstMagicNum⟩ }
        maps := fun _ => some 1 }
      9 1 ⟨maxDbFileSize, fun _ => msgHeadOfFirstMagicNum⟩ 7
      [msgHeadOfFirstMagicNum, msgHeadOfSecondMagicNum] rfl rfl rfl (by decide) (by decide)
  obtain ⟨item, run, _, _, body⟩ := parsed {}
  exact ⟨stored, after, written, put, found, pos, item, run, body⟩

end Libucmq
