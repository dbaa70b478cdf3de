import Libucmq.Store.Queue

/-! What the reader makes of a stored record and of the bytes around it. -/

namespace Libucmq

open Memory

structure Record where
  delay : UInt32
  body : List UInt8
  nonempty : 0 < body.length
  bounded : body.length ≤ maxDbFileSize - dbFileHeadLen - msgHeadLen

namespace Record

def item (record : Record) : MsgItem :=
  { magicNum1 := msgHeadOfFirstMagicNum
    magicNum2 := msgHeadOfSecondMagicNum
    delay := record.delay
    crc16 := crc16Append 0 record.body
    len := UInt32.ofNat record.body.length
    msg := record.body }

def bytes (record : Record) : List UInt8 := itemBytes record.item

def size (record : Record) : Nat := record.body.length + msgHeadLen

section

variable (record : Record)

include record

theorem length_le : record.body.length ≤ 67108724 := record.bounded

@[simp] theorem bytes_length : record.bytes.length = record.size := by
  simp [bytes, itemBytes, item, size, msgHeadLen]
  omega

@[simp] theorem item_len : record.item.len.toNat = record.body.length := by
  have bound := record.length_le
  simp only [item, UInt32.toNat_ofNat']
  omega

@[simp] theorem item_msg : record.item.msg = record.body := rfl

theorem size_pos : 12 < record.size := by
  have positive := record.nonempty
  simp only [size, msgHeadLen]
  omega

theorem size_le : record.size ≤ 67108736 := by
  have bound := record.length_le
  simp only [size, msgHeadLen]
  omega

theorem advance_toNat : (record.item.len + 12).toNat = record.size := by
  have bound := record.length_le
  rw [UInt32.toNat_add, item_len, size, msgHeadLen]
  simp only [UInt32.reduceToNat]
  omega

theorem crc_built : mqSmDbBuildMsgCrc16 record.body record.item.len = some record.item.crc16 := by
  have bound := record.length_le
  rw [mqSmDbBuildMsgCrc16, if_neg]
  · rfl
  · rw [item_len]
    omega

end

end Record

theorem pos_add_toNat {pos step : UInt32} (bound : pos.toNat + step.toNat < 4294967296) :
    (pos + step).toNat = pos.toNat + step.toNat := by
  rw [UInt32.toNat_add]
  omega

variable {memory : Bytes} {pos : UInt32}

theorem parseMsg_past (item : MsgItem) (past : 67108864 ≤ pos.toNat + 12) (bound : pos.toNat ≤ 67108864) :
    mqSmDbParseMsg (some memory) pos item = (.lenBey, item) := by
  have sum := @pos_add_toNat pos 12 (by simp only [UInt32.reduceToNat]; omega)
  rw [mqSmDbParseMsg, if_pos]
  rw [ge_iff_le, UInt32.le_iff_toNat_le, sum, maxDbFilePos_toNat]
  simpa using past

theorem head_fits (early : pos.toNat + 12 < 67108864) : ¬ pos + 12 ≥ maxDbFilePos := by
  have sum := @pos_add_toNat pos 12 (by simp only [UInt32.reduceToNat]; omega)
  rw [ge_iff_le, UInt32.le_iff_toNat_le, sum, maxDbFilePos_toNat]
  simp only [UInt32.reduceToNat]
  omega

theorem parseMsg_clear (item : MsgItem)
    (early : pos.toNat + 12 < 67108864) (clear : memory pos.toNat ≠ msgHeadOfFirstMagicNum) :
    mqSmDbParseMsg (some memory) pos item = (.magNumErr, item) := by
  rw [mqSmDbParseMsg, if_neg (head_fits early), if_pos (Or.inl clear)]

variable {item : MsgItem}

theorem parseMsgHead_item {pos : Nat} (stack : MsgItem) (stored : HoldsAt memory pos (itemBytes item)) :
    mqSmDbParseMsgHead memory pos stack = { item with msg := stack.msg } := by
  simp only [itemBytes, holdsAt_append, List.length_append, le32_length, le16_length,
    List.length_cons, List.length_nil, Nat.reduceAdd] at stored
  obtain ⟨⟨⟨⟨magic, delay⟩, crc⟩, len⟩, _⟩ := stored
  have first : memory pos = item.magicNum1 := by simpa using magic 0 (by simp)
  have second : memory (pos + 1) = item.magicNum2 := by simpa using magic 1 (by simp)
  simp [mqSmDbParseMsgHead, first, second, read32_le32 delay, read16_le16 crc, read32_le32 len]

theorem stored_msg {pos : Nat} (stored : HoldsAt memory pos (itemBytes item)) :
    load memory (pos + msgHeadLen) item.msg.length = item.msg := by
  have back := (holdsAt_append.mp (stored : HoldsAt memory pos (_ ++ item.msg))).2
  exact load_of_holdsAt (by simpa [msgHeadLen] using back)

structure Sealed (item : MsgItem) : Prop where
  first : item.magicNum1 = msgHeadOfFirstMagicNum
  second : item.magicNum2 = msgHeadOfSecondMagicNum
  len : item.len.toNat = item.msg.length
  nonempty : 0 < item.msg.length
  crc : mqSmDbBuildMsgCrc16 item.msg item.len = some item.crc16

theorem parseMsg_held (stack : MsgItem)
    (magic : item.magicNum1 = msgHeadOfFirstMagicNum ∧ item.magicNum2 = msgHeadOfSecondMagicNum)
    (len : item.len.toNat = item.msg.length) (crc : mqSmDbBuildMsgCrc16 item.msg item.len = some item.crc16)
    (early : pos.toNat + 12 < 67108864) (fits : pos.toNat + 12 + item.msg.length ≤ 67108864)
    (stored : HoldsAt memory pos.toNat (itemBytes item)) : mqSmDbParseMsg (some memory) pos stack = (.ok, item) := by
  have first : memory pos.toNat = msgHeadOfFirstMagicNum := by
    rw [← magic.1]
    exact stored 0 (by simp [itemBytes])
  have second : memory (pos.toNat + 1) = msgHeadOfSecondMagicNum := by
    rw [← magic.2]
    exact stored 1 (by simp [itemBytes])
  have length : (pos + item.len + 12).toNat = pos.toNat + 12 + item.msg.length := by
    rw [UInt32.toNat_add, UInt32.toNat_add, len]
    simp only [UInt32.reduceToNat]
    omega
  have inside : ¬ pos + item.len + 12 > maxDbFilePos := by
    rw [gt_iff_lt, UInt32.lt_iff_toNat_lt, length, maxDbFilePos_toNat]
    omega
  rw [mqSmDbParseMsg, if_neg (head_fits early), if_neg (by simp [first, second])]
  simp only [parseMsgHead_item stack stored]
  rw [if_neg inside, len, stored_msg stored, crc]
  simp

theorem parseMsg_item (stack : MsgItem) (isSealed : Sealed item)
    (fits : pos.toNat + 12 + item.msg.length ≤ 67108864) (stored : HoldsAt memory pos.toNat (itemBytes item)) :
    mqSmDbParseMsg (some memory) pos stack = (.ok, item) := by
  have nonempty := isSealed.nonempty
  exact parseMsg_held stack ⟨isSealed.first, isSealed.second⟩ isSealed.len isSealed.crc (by omega) fits stored

theorem Record.isSealed (record : Record) : Sealed record.item :=
  ⟨rfl, rfl, record.item_len, record.nonempty, record.crc_built⟩

theorem stored_magic {pos : Nat} {record : Record} (stored : HoldsAt memory pos record.bytes) :
    memory pos = msgHeadOfFirstMagicNum ∧ memory (pos + 1) = msgHeadOfSecondMagicNum := by
  have bound := record.size_pos
  exact ⟨stored 0 (by rw [Record.bytes_length]; omega), stored 1 (by rw [Record.bytes_length]; omega)⟩

theorem parseMsg_record (record : Record) (item : MsgItem)
    (fits : pos.toNat + record.size ≤ 67108864) (stored : HoldsAt memory pos.toNat record.bytes) :
    mqSmDbParseMsg (some memory) pos item = (.ok, record.item) := by
  refine parseMsg_item item record.isSealed ?_ stored
  simp only [Record.size, msgHeadLen, Record.item_msg] at fits ⊢
  omega

end Libucmq
