import Libucmq.Store.Calls
import Libucmq.Store.Check

/-! Counting the records of a data file. -/

namespace Libucmq

open Memory List

structure CalState where
  item : MsgItem
  pos : UInt32 := 0
  count : UInt32 := 0

def calStep (memory : Bytes) (endPos : UInt32) (state : CalState) : CalState ⊕ UInt32 :=
  if state.pos < endPos then
    match mqSmDbParseMsg (some memory) state.pos state.item with
    | (.ok, item) => .inl { item, pos := state.pos + (12 + item.len), count := state.count + 1 }
    | (.magNumErr, item) => .inl { state with item, pos := state.pos + 1 }
    | (.parseErr, item) => .inl { state with item, pos := state.pos + 2 }
    | (.crcErr, item) => .inl { state with item, pos := state.pos + 2 }
    | (.msgErr, _) => .inr state.count
    | (.lenBey, item) => .inl { state with item, pos := state.pos + 2 }
  else .inr state.count

/-- `item` stands on the stack. A failed `mmap` is answered with -1. -/
def mqSmDbCalMsgCount (fd : Fd) (endPos : UInt32) (item : MsgItem) (os : Os) : Except Abort UInt32 × Os :=
  match fd.bind os.fds with
  | some (.db index) =>
    match os.mmap index with
    | (none, os) => (.ok (-1), os)
    | (some address, os) =>
      match os.mapped address with
      | none => (.error .segv, os)
      | some memory =>
        match Loop.run (calStep memory endPos) (endPos.toNat + 1) { item } with
        | none => (.error .unfinished, os)
        | some count => (.ok count, os.munmap (some address))
  | _ => (.ok (-1), os)

abbrev Message := UInt32 × List UInt8

def messageBytes (message : Message) : List UInt8 := itemBytes (sealItem message.1 message.2)

@[simp] theorem messageBytes_length (message : Message) : (messageBytes message).length = 12 + message.2.length :=
  sealItem_length _ _

def reach (messages : List Message) : Nat := dbFileHeadLen + (messages.flatMap messageBytes).length

theorem reach_concat (messages : List Message) (message : Message) :
    reach (messages ++ [message]) = reach messages + (12 + message.2.length) := by
  simp [reach, Nat.add_assoc]

structure Laid (file : DbFile) (messages : List Message) : Prop where
  head : ∀ pos < dbFileHeadLen, file.bytes pos ≠ msgHeadOfFirstMagicNum
  held : HoldsAt file.bytes dbFileHeadLen (messages.flatMap messageBytes)

inductive FileOp
  | msg (message : Message)
  | head

def fileOp (queue : MqQueue) (os : Os) : FileOp → Except Abort (Bool × MqQueue × Os)
  | .msg message => mqSmDbWriteMsg queue os (sealItem message.1 message.2)
  | .head =>
    match mqSmDbWriteFileHead queue os with
    | .error abort => .error abort
    | .ok os => .ok (true, queue, os)

def fileOps (queue : MqQueue) (os : Os) : List FileOp → Except Abort (Bool × MqQueue × Os)
  | [] => .ok (true, queue, os)
  | op :: rest =>
    match fileOp queue os op with
    | .ok (true, queue, os) => fileOps queue os rest
    | other => other

def messagesOf (ops : List FileOp) : List Message :=
  ops.filterMap fun op => match op with
    | .msg message => some message
    | .head => none

section

variable {memory : Bytes} {item : MsgItem} {start reached : Nat} {count : Nat}

def scanning (item : MsgItem) (start count : Nat) : CalState :=
  { item, pos := UInt32.ofNat start, count := UInt32.ofNat count }

theorem pos_toNat (inside : start ≤ maxDbFileSize) : (UInt32.ofNat start).toNat = start := by
  rw [maxDbFileSize_eq] at inside
  rw [UInt32.toNat_ofNat']
  omega

theorem scanning_lt (inside : start < reached) (bounded : reached ≤ maxDbFileSize) :
    UInt32.ofNat start < UInt32.ofNat reached := by
  rw [UInt32.lt_iff_toNat_lt, pos_toNat (by omega), pos_toNat bounded]
  exact inside

theorem calStep_clear (inside : start < reached) (bounded : reached ≤ maxDbFileSize)
    (early : start + 12 < maxDbFileSize) (clear : memory start ≠ msgHeadOfFirstMagicNum) :
    calStep memory (UInt32.ofNat reached) (scanning item start count) = .inl (scanning item (start + 1) count) := by
  have here := @pos_toNat start (by omega)
  have verdict := @parseMsg_clear memory (UInt32.ofNat start) item (by rwa [here]) (by rwa [here])
  simp only [calStep, scanning, scanning_lt inside bounded, if_true, verdict, UInt32.ofNat_add]
  rfl

theorem calStep_past (inside : start < reached) (bounded : reached ≤ maxDbFileSize)
    (past : maxDbFileSize ≤ start + 12) :
    calStep memory (UInt32.ofNat reached) (scanning item start count) = .inl (scanning item (start + 2) count) := by
  have here := @pos_toNat start (by omega)
  have verdict := @parseMsg_past memory (UInt32.ofNat start) item (by rwa [here])
    (by rw [here, ← maxDbFileSize_eq]; omega)
  simp only [calStep, scanning, scanning_lt inside bounded, if_true, verdict, UInt32.ofNat_add]
  rfl

theorem calStep_message {message : Message} (inside : start + (12 + message.2.length) ≤ reached)
    (bounded : reached ≤ maxDbFileSize) (early : start + 12 < maxDbFileSize)
    (held : HoldsAt memory start (messageBytes message)) :
    ∃ next, calStep memory (UInt32.ofNat reached) (scanning item start count) =
      .inl (scanning next (start + (12 + message.2.length)) (count + 1)) := by
  have here := @pos_toNat start (by omega)
  rw [maxDbFileSize_eq] at bounded early
  have len := sealItem_len message.1 (show message.2.length < 2147483648 by omega)
  have crc : mqSmDbBuildMsgCrc16 message.2 (sealItem message.1 message.2).len = some (crc16Append 0 message.2) := by
    rw [mqSmDbBuildMsgCrc16, if_neg (by rw [len]; omega)]
  have verdict := @parseMsg_held memory (UInt32.ofNat start) (sealItem message.1 message.2) item ⟨rfl, rfl⟩ len crc
    (by rwa [here]) (by rw [here]; show start + 12 + message.2.length ≤ _; omega) (by rwa [here])
  refine ⟨sealItem message.1 message.2, ?_⟩
  simp only [calStep, scanning, scanning_lt (show start < reached by omega) bounded, if_true, verdict, UInt32.ofNat_add]
  rfl

theorem head_steps (clear : ∀ pos < dbFileHeadLen, memory pos ≠ msgHeadOfFirstMagicNum)
    (bounded : reached ≤ maxDbFileSize) {turns : Nat} (head : turns ≤ dbFileHeadLen) (inside : turns ≤ reached) :
    Loop.Steps (calStep memory (UInt32.ofNat reached)) turns (scanning item 0 0) (scanning item turns 0) := by
  induction turns with
  | zero => exact .refl _
  | succ turns ih =>
    refine (ih (by omega) (by omega)).trans (.single (calStep_clear (by omega) bounded ?_ (clear turns (by omega))))
    simp only [dbFileHeadLen, maxDbFileSize_eq] at head ⊢
    omega

theorem message_steps {messages : List Message} {stop : Nat}
    (held : HoldsAt memory start (messages.flatMap messageBytes))
    (ends : start + (messages.flatMap messageBytes).length = stop) (inside : stop ≤ reached)
    (bounded : reached ≤ maxDbFileSize) (last : stop = maxDbFileSize → messages.getLast?.map Prod.snd ≠ some []) :
    ∃ next, Loop.Steps (calStep memory (UInt32.ofNat reached)) messages.length (scanning item start count)
      (scanning next stop (count + messages.length)) := by
  induction messages generalizing start item count with
  | nil =>
    obtain rfl : start = stop := by simpa using ends
    exact ⟨item, .refl _⟩
  | cons message messages ih =>
    rw [flatMap_cons, holdsAt_append, messageBytes_length] at held
    rw [flatMap_cons, length_append, messageBytes_length] at ends
    have early : start + 12 < maxDbFileSize := by
      by_contra late
      cases messages with
      | nil =>
        rw [flatMap_nil, length_nil] at ends
        have empty : message.2 = [] := length_eq_zero_iff.mp (by omega)
        exact last (by omega) (by simp [empty])
      | cons second messages =>
        simp only [flatMap_cons, length_append, messageBytes_length] at ends
        omega
    have later : stop = maxDbFileSize → messages.getLast?.map Prod.snd ≠ some [] := by
      intro full
      cases messages with
      | nil => simp
      | cons second messages => simpa using last full
    obtain ⟨next, turn⟩ := @calStep_message memory item start reached count message (by omega) bounded early held.1
    obtain ⟨final, steps⟩ := @ih next (start + (12 + message.2.length)) (count + 1) held.2 (by omega) later
    refine ⟨final, ?_⟩
    rw [length_cons, Nat.add_comm messages.length 1, ← Nat.add_assoc]
    exact (Loop.Steps.single turn).trans steps

theorem past_steps {turns : Nat} (past : maxDbFileSize ≤ start + 12) (inside : start + 2 * turns ≤ maxDbFileSize) :
    Loop.Steps (calStep memory (UInt32.ofNat maxDbFileSize)) turns (scanning item start count)
      (scanning item (start + 2 * turns) count) := by
  induction turns with
  | zero => exact .refl _
  | succ turns ih => exact (ih (by omega)).trans (.single (calStep_past (by omega) le_rfl (by omega)))

end

def Brim (messages : List Message) : Prop :=
  reach messages = maxDbFileSize ∧ messages.getLast?.map Prod.snd = some []

instance (messages : List Message) : Decidable (Brim messages) := inferInstanceAs (Decidable (_ ∧ _))

def countable (messages : List Message) : Nat := if Brim messages then messages.length - 1 else messages.length

theorem length_le_bytes (messages : List Message) : messages.length ≤ (messages.flatMap messageBytes).length := by
  induction messages with
  | nil => exact Nat.zero_le _
  | cons message messages ih =>
    rw [flatMap_cons, length_append, messageBytes_length, length_cons]
    omega

theorem cal_laid {file : DbFile} {messages : List Message} (laid : Laid file messages) (item : MsgItem)
    (bounded : reach messages ≤ maxDbFileSize) :
    Loop.run (calStep file.bytes (UInt32.ofNat (reach messages))) ((UInt32.ofNat (reach messages)).toNat + 1) { item } =
      some (UInt32.ofNat (countable messages)) := by
  have start : 128 ≤ reach messages := Nat.le_add_right _ _
  have head := @head_steps file.bytes item (reach messages) laid.head bounded 128 le_rfl start
  have few := length_le_bytes messages
  have done (next : MsgItem) (count : Nat) : calStep file.bytes (UInt32.ofNat (reach messages))
      (scanning next (reach messages) count) = .inr (UInt32.ofNat count) := by
    simp [calStep, scanning]
  rw [pos_toNat bounded]
  by_cases brim : Brim messages
  · obtain ⟨full, ended⟩ := brim
    obtain ⟨message, last, empty⟩ := Option.map_eq_some_iff.mp ended
    obtain ⟨front, rfl⟩ := List.getLast?_eq_some_iff.mp last
    have short : reach front + 12 = maxDbFileSize := by
      rw [← full, reach_concat, empty]
      rfl
    have held : HoldsAt file.bytes 128 (front.flatMap messageBytes) := by
      have all := laid.held
      rw [flatMap_append, holdsAt_append] at all
      exact all.1
    obtain ⟨next, steps⟩ := @message_steps file.bytes item 128 (reach (front ++ [message])) 0 front (reach front)
      held rfl (by omega) bounded fun full => absurd full (by omega)
    -- at the last head the check says `LEN_BEY`, and the scan goes on by two bytes to the end
    have past := @past_steps file.bytes next (reach front) (0 + front.length) 6 (by omega) (by omega)
    rw [countable, if_pos ⟨full, ended⟩, length_append, length_singleton, Nat.add_sub_cancel]
    rw [full] at head steps done ⊢
    rw [short, Nat.zero_add] at past
    rw [Nat.zero_add] at steps
    have few := length_le_bytes front
    refine Loop.run_of_endsIn ⟨_, (head.trans steps).trans past, done _ _⟩ ?_
    simp only [reach, dbFileHeadLen] at short
    omega
  · obtain ⟨next, steps⟩ := @message_steps file.bytes item 128 (reach messages)
      0 messages _ laid.held rfl le_rfl bounded
      fun full last => brim ⟨full, last⟩
    rw [countable, if_neg brim]
    rw [Nat.zero_add] at steps
    refine Loop.run_of_endsIn ⟨_, head.trans steps, done _ _⟩ ?_
    simp only [reach, dbFileHeadLen] at *
    omega

theorem Laid.append {file : DbFile} {messages : List Message} (laid : Laid file messages) (message : Message) :
    Laid { file with bytes := store file.bytes (reach messages) (messageBytes message) } (messages ++ [message]) := by
  have start : 128 ≤ reach messages := Nat.le_add_right _ _
  refine ⟨fun pos early => ?_, ?_⟩
  · dsimp only
    rw [store_outside (Or.inl (by simp only [dbFileHeadLen] at early; omega))]
    exact laid.head pos early
  · rw [flatMap_append, holdsAt_append, flatMap_singleton]
    exact ⟨laid.held.store_disjoint (Or.inl le_rfl), holdsAt_store _ _ _⟩

theorem Laid.write_head {file : DbFile} {messages : List Message} (laid : Laid file messages) (optCount : UInt32) :
    Laid { file with bytes := store file.bytes 0 (dbFileHead optCount) } messages := by
  have length := dbFileHead_length optCount
  refine ⟨fun pos early => ?_, laid.held.store_disjoint (Or.inr (by omega))⟩
  dsimp only
  rcases @store_mem_or file.bytes 0 pos (dbFileHead optCount) with written | kept
  · exact dbFileHead_clear optCount _ written
  · rw [kept]
    exact laid.head pos early

structure Writing (index : UInt64) (address : Nat) (fd : Fd) (messages : List Message) (queue : MqQueue) (os : Os) :
    Prop where
  map : queue.curWdb.mapMem = some address
  pos : queue.curWdb.pos = UInt32.ofNat (reach messages)
  mapped : os.maps address = some index
  isOpen : fd.bind os.fds = some (.db index)
  laid : ∃ file, os.dir.db index = some file ∧ Laid file messages

section

variable {index : UInt64} {address : Nat} {fd : Fd} {messages : List Message} {queue : MqQueue} {os : Os}

theorem Writing.msg (writing : Writing index address fd messages queue os) (message : Message)
    (fits : reach (messages ++ [message]) ≤ maxDbFileSize) :
    ∃ next after, fileOp queue os (.msg message) = .ok (true, next, after) ∧ after.faults = os.faults ∧
      Writing index address fd (messages ++ [message]) next after := by
  obtain ⟨file, found, laid⟩ := writing.laid
  have grown := reach_concat messages message
  have here : queue.curWdb.pos.toNat = reach messages := by rw [writing.pos, pos_toNat (by omega)]
  have copied : os.memcpy address queue.curWdb.pos.toNat (messageBytes message) =
      .ok (os.emit (.writeDb index (reach messages) (messageBytes message))) := by
    simp only [Os.memcpy, writing.mapped, here]
    rw [if_pos (by rw [messageBytes_length]; omega)]
  obtain ⟨next, stored, sameMap, moved⟩ : ∃ next, mqSmDbStoreMsg queue os (sealItem message.1 message.2) =
      .ok (true, next, os.emit (.writeDb index (reach messages) (messageBytes message))) ∧
      next.curWdb.mapMem = some address ∧
      next.curWdb.pos = queue.curWdb.pos + (UInt32.ofNat message.2.length + 12) := by
    simp only [mqSmDbStoreMsg, writing.map]
    rw [show itemBytes (sealItem message.1 message.2) = messageBytes message from rfl, copied]
    exact ⟨_, rfl, rfl, rfl⟩
  rw [maxDbFileSize_eq] at fits
  refine ⟨next, _, (writeMsg_fits message.1 os (by omega)).trans stored, rfl, sameMap, ?_, writing.mapped,
    writing.isOpen, _, by simp [found], laid.append message⟩
  rw [moved, writing.pos, grown, UInt32.ofNat_add, UInt32.ofNat_add, UInt32.add_comm (UInt32.ofNat message.2.length)]
  rfl

theorem Writing.head (writing : Writing index address fd messages queue os) :
    ∃ next after, fileOp queue os .head = .ok (true, next, after) ∧ after.faults = os.faults ∧
      Writing index address fd messages next after := by
  obtain ⟨file, found, laid⟩ := writing.laid
  have written : fileOp queue os .head =
      .ok (true, queue, os.emit (.writeDb index 0 (dbFileHead queue.curWdb.optCount))) := by
    simp only [fileOp, mqSmDbWriteFileHead, writing.map, Os.memcpy, writing.mapped, dbFileHead_length]
    rw [if_pos (by decide)]
  exact ⟨queue, _, written, rfl, writing.map, writing.pos, writing.mapped, writing.isOpen, _, by simp [found],
    laid.write_head queue.curWdb.optCount⟩

theorem fileOps_writing (ops : List FileOp) (writing : Writing index address fd messages queue os)
    (fits : reach (messages ++ messagesOf ops) ≤ maxDbFileSize) :
    ∃ next after, fileOps queue os ops = .ok (true, next, after) ∧ after.faults = os.faults ∧
      Writing index address fd (messages ++ messagesOf ops) next after := by
  induction ops generalizing messages queue os with
  | nil => exact ⟨queue, os, rfl, rfl, by simpa [messagesOf] using writing⟩
  | cons op ops ih =>
    cases op with
    | msg message =>
      have split : messages ++ messagesOf (.msg message :: ops) = messages ++ [message] ++ messagesOf ops := by
        simp [messagesOf]
      rw [split] at fits ⊢
      have first : reach (messages ++ [message]) ≤ maxDbFileSize := by
        refine le_trans ?_ fits
        simp [reach]
      obtain ⟨middle, between, turn, same, writing⟩ := writing.msg message first
      obtain ⟨next, after, rest, sameRest, writing⟩ := ih writing fits
      exact ⟨next, after, by simp only [fileOps, turn, rest], sameRest.trans same, writing⟩
    | head =>
      obtain ⟨middle, between, turn, same, writing⟩ := writing.head
      obtain ⟨next, after, rest, sameRest, writing⟩ := ih writing fits
      exact ⟨next, after, by simp only [fileOps, turn, rest], sameRest.trans same, writing⟩

theorem Writing.counted (writing : Writing index address fd messages queue os)
    (fits : reach messages ≤ maxDbFileSize) (item : MsgItem) : (mqSmDbCalMsgCount fd queue.curWdb.pos item os).1 =
      .ok (if os.faults os.calls then -1 else UInt32.ofNat (countable messages)) := by
  obtain ⟨file, found, laid⟩ := writing.laid
  simp only [mqSmDbCalMsgCount, writing.isOpen, mmap_eq]
  by_cases failing : os.faults os.calls = true
  · simp only [failing, if_true]
  · have shown : ((os.tick.setMap os.nextHandle (some index)).allot).mapped os.nextHandle = some file.bytes := by
      simp [Os.mapped, found]
    simp only [failing, Bool.false_eq_true, if_false, shown, writing.pos, cal_laid laid item fits]

end

def Clear (index : UInt64) (dir : QueueDir) : Prop :=
  ∀ file, dir.db index = some file → ∀ pos, file.bytes pos ≠ msgHeadOfFirstMagicNum

theorem Clear.resize {index : UInt64} {dir : QueueDir} (clear : Clear index dir) (size : Nat) :
    Clear index (dir.apply (.resizeDb index size)) := by
  intro file found pos
  simp only [QueueDir.apply_resizeDb_db, if_true, Option.map_eq_some_iff] at found
  obtain ⟨old, oldEq, rfl⟩ := found
  dsimp only
  split
  · exact clear old oldEq pos
  · decide

theorem Clear.write {index : UInt64} {dir : QueueDir} (clear : Clear index dir) (place : Nat) {data : List UInt8}
    (other : ∀ byte ∈ data, byte ≠ msgHeadOfFirstMagicNum) : Clear index (dir.apply (.writeDb index place data)) := by
  intro file found pos
  simp only [QueueDir.apply_writeDb_db, if_true, Option.map_eq_some_iff] at found
  obtain ⟨old, oldEq, rfl⟩ := found
  rcases @store_mem_or old.bytes place pos data with written | kept
  · exact other _ written
  · dsimp only
    rw [kept]
    exact clear old oldEq pos

theorem extendFileSize_clear {index : UInt64} {length : Nat} {os : Os} (clear : Clear index os.dir) :
    Clear index (extendFileSize index length os).2.dir := by
  have resized : Clear index
      (if os.attempt.1 then os.attempt.2.emit (.resizeDb index length) else os.attempt.2).dir := by
    split
    · exact clear.resize length
    · exact clear
  simp only [extendFileSize]
  generalize (if os.attempt.1 then os.attempt.2.emit (.resizeDb index length) else os.attempt.2) = middle at *
  split
  · exact resized
  · split
    · exact resized
    · dsimp only
      split
      · exact resized.write _ (by simp [msgHeadOfFirstMagicNum])
      · exact resized

theorem openDbFile_blank {os opened : Os} {index : UInt64} {address : Nat} {fd : Fd} (absent : os.dir.db index = none)
    (created : mqSmOpenDbFile index true os = (some address, fd, opened)) :
    opened.maps address = some index ∧ fd.bind opened.fds = some (.db index) ∧
      ∃ file, opened.dir.db index = some file ∧ Laid file [] := by
  rw [openDbFile_eq] at created
  split at created
  · obtain ⟨handles, -, found⟩ := dbSized_spec index true (dbOpened index true os)
    obtain ⟨_, _, _, mapped, spec, dir⟩ := dbMapped_spec handles found
    rw [mapped] at created
    cases created
    cases spec with
    | opened opened maps _ _ _ _ found =>
      obtain ⟨file, fileEq⟩ := Option.isSome_iff_exists.mp found
      have empty : Clear index (dbOpened index true os).dir := by
        intro file fileEq pos
        have made : some { size := 0, bytes := fun _ => 0 } = some file := by
          simpa [dbOpened, QueueDir.apply_createDb_absent absent] using fileEq
        cases made
        show (0 : UInt8) ≠ msgHeadOfFirstMagicNum
        decide
      refine ⟨by simp [maps], ?_, file, fileEq, fun pos _ => ?_, holdsAt_nil _ _⟩
      · have named := opened os.nextHandle
        rw [if_pos rfl, Os.opened, Option.map_eq_some_iff] at named
        obtain ⟨target, fds, name⟩ := named
        cases target with
        | db other => simp_all [OpenFile.name]
        | tag kind other offset append => simp [OpenFile.name] at name
      · exact extendFileSize_clear empty file (dir ▸ fileEq) pos
  · simp at created

/-- Scanned to the write position, but for an empty record at the end. -/
theorem calMsgCount_written {os opened : Os} {index : UInt64} {address : Nat} {fd : Fd}
    (absent : os.dir.db index = none) (created : mqSmOpenDbFile index true os = (some address, fd, opened))
    {queue : MqQueue} (map : queue.curWdb.mapMem = some address) (start : queue.curWdb.pos = 128) (ops : List FileOp)
    (fits : reach (messagesOf ops) ≤ maxDbFileSize) (item : MsgItem) :
    ∃ after written, fileOps queue opened ops = .ok (true, after, written) ∧
      (mqSmDbCalMsgCount fd after.curWdb.pos item written).1 =
        .ok (if written.faults written.calls then -1
          else UInt32.ofNat (if Brim (messagesOf ops)
            then (messagesOf ops).length - 1 else (messagesOf ops).length)) := by
  obtain ⟨mapped, isOpen, laid⟩ := openDbFile_blank absent created
  have fresh : Writing index address fd [] queue opened := ⟨map, start, mapped, isOpen, laid⟩
  obtain ⟨after, written, ran, -, writing⟩ := fileOps_writing ops fresh fits
  exact ⟨after, written, ran, writing.counted fits item⟩

def firstOpened : Os := (mqSmOpenDbFile 1 true {}).2.2

theorem firstOpened_eq : mqSmOpenDbFile 1 true {} = (some 4, some 3, firstOpened) := rfl

def firstQueue : MqQueue := { curWdb := { fd := some 3, flag := 1, mapMem := some 4, pos := 128, curIndex := 1 } }

theorem calMsgCount_written_two :
    let ops : List FileOp := [.msg (0, [0xFE, 0xAC]), .head, .msg (7, messageBytes (0, [1]))]
    ∃ after written, fileOps firstQueue firstOpened ops = .ok (true, after, written) ∧
      (mqSmDbCalMsgCount (some 3) after.curWdb.pos {} written).1 =
        .ok (if written.faults written.calls then -1
          else UInt32.ofNat (if Brim (messagesOf ops) then (messagesOf ops).length - 1 else (messagesOf ops).length)) :=
  calMsgCount_written rfl firstOpened_eq rfl rfl _ (by decide) {}

theorem brim_counted {body : List UInt8} (length : body.length = 67108712) :
    ∃ after written, fileOps firstQueue firstOpened [.msg (0, body), .msg (0, [])] = .ok (true, after, written) ∧
      (mqSmDbCalMsgCount (some 3) after.curWdb.pos {} written).1 = .ok 1 := by
  have full : reach [(0, body), (0, [])] = maxDbFileSize := by
    simp [reach, dbFileHeadLen, length]
  obtain ⟨mapped, isOpen, laid⟩ := @openDbFile_blank {} firstOpened 1 4 (some 3) rfl firstOpened_eq
  have fresh : Writing 1 4 (some 3) [] firstQueue firstOpened := ⟨rfl, rfl, mapped, isOpen, laid⟩
  obtain ⟨after, written, ran, faults, writing⟩ := fileOps_writing [.msg (0, body), .msg (0, [])] fresh full.le
  refine ⟨after, written, ran, ?_⟩
  have granted : written.faults written.calls = false := by
    rw [faults]
    rfl
  have one : countable [(0, body), (0, [])] = 1 := if_pos ⟨full, rfl⟩
  rw [writing.counted full.le {}, granted]
  exact congrArg (fun count => Except.ok (UInt32.ofNat count)) one

theorem calMsgCount_brim :
    ∃ after written, fileOps firstQueue firstOpened [.msg (0, List.replicate 67108712 0), .msg (0, [])] =
        .ok (true, after, written) ∧ (mqSmDbCalMsgCount (some 3) after.curWdb.pos {} written).1 = .ok 1 :=
  brim_counted length_replicate

end Libucmq
