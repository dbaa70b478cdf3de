import Libucmq.Store.Search
import Libucmq.Store.Create

/-! Opening a queue that is there. -/

namespace Libucmq

open CString Segments List Function Decimal

theorem strToNum_digits (digits : List UInt8) (start : Nat)
    (digit : ∀ char ∈ digits, 48 ≤ char.toNat ∧ char.toNat ≤ 57) :
    strToNum (UInt64.ofNat start) digits = some (UInt64.ofNat (valueFrom start digits)) := by
  induction digits generalizing start with
  | nil => rfl
  | cons char digits ih =>
    have range := digit char mem_cons_self
    have next : UInt64.ofNat start * 10 + (char - 48).toUInt64 =
        UInt64.ofNat (start * 10 + (char.toNat - 48)) := by
      have lower : (48 : UInt8) ≤ char := by
        rw [UInt8.le_iff_toNat_le]
        exact range.1
      apply UInt64.toNat_inj.mp
      simp only [UInt64.toNat_add, UInt64.toNat_mul, UInt64.toNat_ofNat', UInt64.reduceToNat,
        UInt8.toNat_toUInt64, UInt8.toNat_sub_of_le _ _ lower, UInt8.reduceToNat]
      omega
    rw [strToNum, if_pos, next, ih _ fun later member => digit later (mem_cons_of_mem _ member)]
    · rfl
    · simpa [UInt8.le_iff_toNat_le] using range

theorem strToNum_fixedDigits {width value : Nat} (fits : value < 10 ^ width) :
    strToNum 0 (fixedDigits width value) = some (UInt64.ofNat value) := by
  have read := strToNum_digits (fixedDigits width value) 0
    (fun char member => fixedDigits_digit member)
  rw [valueFrom_fixedDigits, Nat.mod_eq_of_lt fits] at read
  simpa using read

theorem uint64_fits (number : UInt64) : number.toNat < 10 ^ 20 := by
  have bound := number.toNat_lt
  omega

theorem uint32_fits (number : UInt32) : number.toNat < 10 ^ 10 := by
  have bound := number.toNat_lt
  omega

theorem tokens_line {line : List UInt8} (nonempty : line ≠ [])
    (digit : ∀ char ∈ line, 48 ≤ char.toNat ∧ char.toNat ≤ 57) : tokens 10 (line ++ [10]) = [line] := by
  rw [tokens, tokensFrom_run, tokensFrom]
  · simp [nonempty, tokensFrom]
  · intro char member
    have range := digit char member
    constructor <;> rintro rfl <;> simp at range

theorem digits_append {front back : List UInt8} (frontDigit : ∀ char ∈ front, 48 ≤ char.toNat ∧ char.toNat ≤ 57)
    (backDigit : ∀ char ∈ back, 48 ≤ char.toNat ∧ char.toNat ≤ 57) :
    ∀ char ∈ front ++ back, 48 ≤ char.toNat ∧ char.toNat ≤ 57 := by
  intro char member
  rcases mem_append.mp member with early | late
  · exact frontDigit char early
  · exact backDigit char late

theorem field_at (front back : List UInt8) (width value : Nat) {start : Nat} (length : front.length = start) :
    ((front ++ fixedDigits width value ++ back).drop start).take width = fixedDigits width value := by
  rw [append_assoc, ← length, drop_left, take_append_of_le_length (by simp),
    take_of_length_le (by simp)]

theorem parseRtagTokens_item (queue : MqQueue) (getNum : UInt64) {pos : UInt32} (bound : pos.toNat ≤ 67108864) :
    parseRtagTokens queue (tokens 10 (rtagItem getNum pos)) =
      (true, { queue with getNum, curRdb := { queue.curRdb with pos } }) := by
  rw [rtagItem, padded_of_fits (by omega) (uint64_fits getNum),
    padded_of_fits (by omega) (uint32_fits pos), tokens_line (by simp [fixedDigits])
      (digits_append (fun _ => fixedDigits_digit) (fun _ => fixedDigits_digit))]
  have readNum := field_at [] (fixedDigits 10 pos.toNat) 20 getNum.toNat rfl
  have readPos := field_at (fixedDigits 20 getNum.toNat) [] 10 pos.toNat
    (fixedDigits_length _ _)
  rw [nil_append, length_nil, drop_zero] at readNum
  rw [append_nil] at readPos
  have within : ¬ pos > maxDbFilePos := by simpa [UInt32.lt_iff_toNat_lt] using bound
  simp only [parseRtagTokens, readNum, readPos, strToNum_fixedDigits (uint64_fits getNum),
    strToNum_fixedDigits (uint32_fits pos)]
  simp [rtagItemLen, within]

theorem parseWtagTokens_item (queue : MqQueue) (putNum : UInt64) {pos : UInt32} (maxque : UInt32)
    (bound : pos.toNat ≤ 67108864) : parseWtagTokens queue (tokens 10 (wtagItem putNum pos maxque)) =
      (true, { queue with putNum, maxque, curWdb := { queue.curWdb with pos } }) := by
  rw [wtagItem, padded_of_fits (by omega) (uint64_fits putNum),
    padded_of_fits (by omega) (uint32_fits pos),
    padded_of_fits (by omega) (uint32_fits maxque), tokens_line (by simp [fixedDigits])
      (digits_append (digits_append (fun _ => fixedDigits_digit)
        (fun _ => fixedDigits_digit)) (fun _ => fixedDigits_digit))]
  have readNum := field_at [] (fixedDigits 10 pos.toNat ++ fixedDigits 10 maxque.toNat) 20
    putNum.toNat rfl
  have readPos := field_at (fixedDigits 20 putNum.toNat) (fixedDigits 10 maxque.toNat) 10
    pos.toNat (fixedDigits_length _ _)
  have readMax := @field_at (fixedDigits 20 putNum.toNat ++ fixedDigits 10 pos.toNat) [] 10
    maxque.toNat 30 (by simp)
  rw [nil_append, length_nil, drop_zero, ← append_assoc] at readNum
  rw [append_nil] at readMax
  have within : ¬ pos > maxDbFilePos := by simpa [UInt32.lt_iff_toNat_lt] using bound
  simp only [parseWtagTokens, readNum, readPos, readMax, strToNum_fixedDigits (uint64_fits putNum),
    strToNum_fixedDigits (uint32_fits pos), strToNum_fixedDigits (uint32_fits maxque)]
  simp [wtagItemLen, within]

theorem tagReadLoop_last {itemLen : Nat} {parse : MqQueue → List (List UInt8) → Bool × MqQueue}
    {front line : List UInt8} {queue parsed : MqQueue} {os : Os} (fuel : Nat) (reliable : os.Reliable)
    (length : line.length = itemLen + 1) (size : (itemLen + 1 : Nat) ≤ toCInt (front ++ line).length)
    (parseEq : parse queue (tokens 10 line) = (true, parsed)) :
    tagReadLoop itemLen parse (front ++ line) (fuel + 1) 1 queue os = (.found 1, parsed, os.tick) := by
  have total : (front ++ line).length = front.length + (itemLen + 1) := by simp [length]
  have rest : (front ++ line).length - 1 * (itemLen + 1) = front.length := by omega
  have last : ((front ++ line).drop front.length).take (2 * (itemLen + 1)) = line := by
    rw [drop_left, take_of_length_le (by omega)]
  have nonneg : ¬ toCInt front.length < 0 := by
    rw [total] at size
    simp only [toCInt] at size ⊢
    split at size <;> split <;> omega
  rw [tagReadLoop, if_neg (by rw [rest]; omega), Os.attempt_reliable reliable, rest]
  simp only [↓reduceIte, last, length, le_refl, parseEq]

theorem rtagReadItem_last {queue : MqQueue} {os : Os} {fd offset : Nat} {append : Bool}
    {index getNum : UInt64} {pos : UInt32} {front : List UInt8} (reliable : os.Reliable)
    (tagFd : queue.rtagFd = some fd) (opened : os.fds fd = some (.tag .rtag index offset append))
    (content : os.dir.tag .rtag index = some (front ++ rtagItem getNum pos))
    (size : 31 ≤ toCInt (front ++ rtagItem getNum pos).length) (bound : pos.toNat ≤ 67108864) :
    mqSmRtagReadItem queue os =
      (true, { queue with getNum, curRdb := { queue.curRdb with pos } }, os.tick) := by
  have text : os.tagContent queue.rtagFd = front ++ rtagItem getNum pos := by
    simp [Os.tagContent, tagFd, opened, content]
  rw [mqSmRtagReadItem, text, @tagReadLoop_last rtagItemLen _ _ _ _ _ _ _ reliable
    (rtagItem_length getNum pos) size (parseRtagTokens_item queue getNum bound)]
  simp

theorem wtagReadItem_last {queue : MqQueue} {os : Os} {fd offset : Nat} {append : Bool}
    {index putNum : UInt64} {pos maxque : UInt32} {front : List UInt8} (reliable : os.Reliable)
    (tagFd : queue.wtagFd = some fd) (opened : os.fds fd = some (.tag .wtag index offset append))
    (content : os.dir.tag .wtag index = some (front ++ wtagItem putNum pos maxque))
    (size : 41 ≤ toCInt (front ++ wtagItem putNum pos maxque).length) (bound : pos.toNat ≤ 67108864) :
    mqSmWtagReadItem queue os =
      (true, { queue with putNum, maxque, curWdb := { queue.curWdb with pos } }, os.tick) := by
  have text : os.tagContent queue.wtagFd = front ++ wtagItem putNum pos maxque := by
    simp [Os.tagContent, tagFd, opened, content]
  rw [mqSmWtagReadItem, text, @tagReadLoop_last wtagItemLen _ _ _ _ _ _ _ reliable
    (wtagItem_length putNum pos maxque) size (parseWtagTokens_item queue putNum maxque bound)]
  simp

structure Opened (node : Node) (dir : QueueDir) (first last : UInt64) (getNum : UInt64) (pos : UInt32)
    (line : WtagLine) : Prop where
  reliable : node.os.Reliable
  fresh : node.os.Fresh
  dir_eq : node.os.dir = dir
  readIndex : node.queue.curRdb.curIndex = first
  writeIndex : node.queue.curWdb.curIndex = last
  readMap : ∃ address, node.queue.curRdb.mapMem = some address ∧ node.os.maps address = some first
  writeMap : ∃ address, node.queue.curWdb.mapMem = some address ∧ node.os.maps address = some last
  readFd : ∃ fd, node.queue.curRdb.fd = some fd ∧ node.os.fds fd = some (.db first)
  writeFd : ∃ fd, node.queue.curWdb.fd = some fd ∧ node.os.fds fd = some (.db last)
  rtagFd : ∃ fd, node.queue.rtagFd = some fd ∧ node.os.fds fd = some (.tag .rtag first 0 true)
  wtagFd : ∃ fd, node.queue.wtagFd = some fd ∧ node.os.fds fd = some (.tag .wtag last 0 true)
  readPos : node.queue.curRdb.pos = pos
  writePos : node.queue.curWdb.pos = line.pos
  getNum_eq : node.queue.getNum = getNum
  putNum_eq : node.queue.putNum = line.putNum
  maxque_eq : node.queue.maxque = line.maxque
  sync : node.queue.syncIntv = 0

theorem tagOpenFile_existing {os : Os} {kind : TagKind} {index : UInt64} {content : List UInt8}
    (reliable : os.Reliable) (found : os.dir.tag kind index = some content) (size : 0 < toCInt content.length) :
    mqSmTagOpenFile kind index os = (some os.nextHandle,
        (os.tick.setFd os.nextHandle (some (.tag kind index 0 true))).allot) := by
  simp only [mqSmTagOpenFile, found]
  rw [if_neg (by omega), Os.openTag, Os.attempt_reliable reliable]
  simp [found]

theorem openDb_alone {queue : MqQueue} {os : Os} {index : UInt64} {file : DbFile} (reliable : os.Reliable)
    (found : os.dir.db index = some file) (full : file.size = maxDbFileSize) (writeFlag : queue.curWdb.flag = 0) :
    ∃ after, mqSmOpenDb queue (handleOf index index) os = (true,
          { queue with
            curRdb := { queue.curRdb with
              curIndex := index, mapMem := some (os.nextHandle + 1), fd := some os.nextHandle, flag := 1 }
            curWdb := { queue.curWdb with
              curIndex := index, mapMem := some (os.nextHandle + 1), fd := some os.nextHandle, flag := 1 } },
          after) ∧
      os.Goes [] after ∧ after.fds = update os.fds os.nextHandle (some (.db index)) ∧
      after.maps = update os.maps (os.nextHandle + 1) (some index) ∧
      after.nextHandle = os.nextHandle + 2 := by
  obtain ⟨after, openEq, goes, fds, maps, next⟩ := openDbFile_existing reliable found full
  refine ⟨after, ?_, goes, fds, maps, next⟩
  simp [mqSmOpenDb, handleOf, writeFlag, openEq]

theorem openDb_apart {queue : MqQueue} {os : Os} {first last : UInt64} {readFile writeFile : DbFile}
    (reliable : os.Reliable) (apart : first ≠ last) (readFound : os.dir.db first = some readFile)
    (readFull : readFile.size = maxDbFileSize) (writeFound : os.dir.db last = some writeFile)
    (writeFull : writeFile.size = maxDbFileSize) (readFlag : queue.curRdb.flag = 0)
    (writeFlag : queue.curWdb.flag = 0) : ∃ after, mqSmOpenDb queue (handleOf first last) os = (true,
          { queue with
            curRdb := { queue.curRdb with
              curIndex := first, mapMem := some (os.nextHandle + 3), fd := some (os.nextHandle + 2), flag := 1 }
            curWdb := { queue.curWdb with
              curIndex := last, mapMem := some (os.nextHandle + 1), fd := some os.nextHandle, flag := 1 } },
          after) ∧
      os.Goes [] after ∧
      after.fds = update (update os.fds os.nextHandle (some (.db last)))
        (os.nextHandle + 2) (some (.db first)) ∧
      after.maps = update (update os.maps (os.nextHandle + 1) (some last))
        (os.nextHandle + 3) (some first) ∧
      after.nextHandle = os.nextHandle + 4 := by
  obtain ⟨middle, openEq, goes, fds, maps, next⟩ := openDbFile_existing reliable writeFound writeFull
  obtain ⟨after, readEq, readGoes, readFds, readMaps, readNext⟩ :=
    @openDbFile_existing middle first readFile (goes.reliable reliable)
      (by rw [goes.dir]; exact readFound) readFull
  refine ⟨after, ?_, goes.trans readGoes, by rw [readFds, fds, next], by rw [readMaps, maps, next],
    by rw [readNext, next]⟩
  simp only [mqSmOpenDb, handleOf, writeFlag, openEq, apart, readFlag, readEq, next]
  simp

theorem openDb_spec {queue : MqQueue} {os : Os} {first last : UInt64} {readFile writeFile : DbFile}
    (reliable : os.Reliable) (fresh : os.Fresh) (readFound : os.dir.db first = some readFile)
    (readFull : readFile.size = maxDbFileSize) (writeFound : os.dir.db last = some writeFile)
    (writeFull : writeFile.size = maxDbFileSize) (readFlag : queue.curRdb.flag = 0)
    (writeFlag : queue.curWdb.flag = 0) :
    ∃ readMap readFd writeMap writeFd after, mqSmOpenDb queue (handleOf first last) os = (true,
          { queue with
            curRdb := { queue.curRdb with
              curIndex := first, mapMem := some readMap, fd := some readFd, flag := 1 }
            curWdb := { queue.curWdb with
              curIndex := last, mapMem := some writeMap, fd := some writeFd, flag := 1 } }, after) ∧
      os.Goes [] after ∧ after.Fresh ∧ (∀ fd < os.nextHandle, after.fds fd = os.fds fd) ∧
      after.fds readFd = some (.db first) ∧ after.fds writeFd = some (.db last) ∧
      after.maps readMap = some first ∧ after.maps writeMap = some last := by
  by_cases same : first = last
  · subst same
    obtain ⟨after, openEq, goes, fds, maps, next⟩ :=
      openDb_alone reliable readFound readFull writeFlag
    refine ⟨_, _, _, _, after, openEq, goes, ?_, ?_, by simp [fds], by simp [fds], by simp [maps],
      by simp [maps]⟩
    · intro handle late
      rw [next] at late
      have unused := fresh handle (by omega)
      rw [fds, maps, update_of_ne (by omega), update_of_ne (by omega)]
      exact unused
    · intro fd early
      rw [fds, update_of_ne (by omega)]
  · obtain ⟨after, openEq, goes, fds, maps, next⟩ :=
      openDb_apart reliable same readFound readFull writeFound writeFull readFlag writeFlag
    refine ⟨_, _, _, _, after, openEq, goes, ?_, ?_, by simp [fds], by simp [fds], by simp [maps],
      by simp [maps]⟩
    · intro handle late
      rw [next] at late
      have unused := fresh handle (by omega)
      rw [fds, maps, update_of_ne (by omega), update_of_ne (by omega),
        update_of_ne (by omega), update_of_ne (by omega)]
      exact unused
    · intro fd early
      rw [fds, update_of_ne (by omega), update_of_ne (by omega)]

theorem openTags_spec {os : Os} {first last : UInt64} {readTag writeTag : List UInt8} (reliable : os.Reliable)
    (fresh : os.Fresh) (rtag : os.dir.tag .rtag first = some readTag) (rtagSize : 0 < toCInt readTag.length)
    (wtag : os.dir.tag .wtag last = some writeTag) (wtagSize : 0 < toCInt writeTag.length) :
    ∃ middle tagged, mqSmTagOpenFile .rtag first os = (some os.nextHandle, middle) ∧
      mqSmTagOpenFile .wtag last middle = (some (os.nextHandle + 1), tagged) ∧
      tagged.Reliable ∧ tagged.Fresh ∧ tagged.dir = os.dir ∧ tagged.nextHandle = os.nextHandle + 2 ∧
      tagged.fds os.nextHandle = some (.tag .rtag first 0 true) ∧
      tagged.fds (os.nextHandle + 1) = some (.tag .wtag last 0 true) := by
  have wtagOpen := @tagOpenFile_existing
    ((os.tick.setFd os.nextHandle (some (.tag .rtag first 0 true))).allot) .wtag last _
    (by simpa using reliable) wtag wtagSize
  refine ⟨_, _, tagOpenFile_existing reliable rtag rtagSize, wtagOpen, by simpa using reliable, ?_, rfl,
    rfl, by simp, by simp⟩
  intro handle late
  simp only [Os.allot_nextHandle, Os.setFd_nextHandle, Os.tick_nextHandle] at late
  have unused := fresh handle (by omega)
  have later : handle ≠ os.nextHandle ∧ handle ≠ os.nextHandle + 1 := by omega
  simp [unused, later]

theorem openQueue_opened {cwd : FileName → Bool} {listing : List FileName} {os : Os} (qname : List UInt8)
    {first last getNum : UInt64} {pos : UInt32} {line : WtagLine} {rtagFront wtagFront : List UInt8}
    {readFile writeFile : DbFile} (reliable : os.Reliable) (fresh : os.Fresh)
    (found : findHandleFile cwd listing = some (handleOf first last))
    (rtag : os.dir.tag .rtag first = some (rtagFront ++ rtagItem getNum pos))
    (rtagSize : 31 ≤ toCInt (rtagFront ++ rtagItem getNum pos).length) (posBound : pos.toNat ≤ 67108864)
    (wtag : os.dir.tag .wtag last = some (wtagFront ++ wtagItem line.putNum line.pos line.maxque))
    (wtagSize : 41 ≤ toCInt (wtagFront ++ wtagItem line.putNum line.pos line.maxque).length)
    (linePos : line.pos.toNat ≤ 67108864)
    (readFound : os.dir.db first = some readFile) (readFull : readFile.size = maxDbFileSize)
    (writeFound : os.dir.db last = some writeFile) (writeFull : writeFile.size = maxDbFileSize) :
    ∃ node, openQueue qname cwd listing os = some node ∧ Opened node os.dir first last getNum pos line := by
  obtain ⟨middle, tagged, rtagOpen, wtagOpen, taggedReliable, taggedFresh, taggedDir, taggedNext, rtagFd,
    wtagFd⟩ := openTags_spec reliable fresh rtag (by omega) wtag (by omega)
  obtain ⟨readMap, readFd, writeMap, writeFd, after, dbEq, goes, afterFresh, kept, readOpen, writeOpen,
    readMapped, writeMapped⟩ := @openDb_spec
      { qname := qname.take maxQueueNameLen, rtagFd := some os.nextHandle
        wtagFd := some (os.nextHandle + 1), getNum, putNum := line.putNum, maxque := line.maxque
        curRdb := { pos }, curWdb := { pos := line.pos } }
      tagged.tick.tick first last readFile writeFile (by simpa using taggedReliable) taggedFresh
      (by rw [← taggedDir] at readFound; exact readFound) readFull
      (by rw [← taggedDir] at writeFound; exact writeFound) writeFull rfl rfl
  have openEq : openQueue qname cwd listing os = some
      { os := after
        queue :=
          { qname := qname.take maxQueueNameLen, rtagFd := some os.nextHandle
            wtagFd := some (os.nextHandle + 1), getNum, putNum := line.putNum, maxque := line.maxque
            curRdb := { pos, curIndex := first, mapMem := some readMap, fd := some readFd, flag := 1 }
            curWdb := { pos := line.pos, curIndex := last, mapMem := some writeMap, fd := some writeFd
                        flag := 1 } } } := by
    rw [openQueue, found]
    simp only [handleOf]
    rw [rtagOpen]
    simp only
    rw [wtagOpen]
    simp only
    rw [rtagReadItem_last taggedReliable rfl rtagFd (by rw [taggedDir]; exact rtag) rtagSize posBound]
    simp only
    rw [@wtagReadItem_last _ tagged.tick _ _ _ _ _ _ _ _ (by simpa using taggedReliable) rfl wtagFd
      (by rw [Os.tick_dir, taggedDir]; exact wtag) wtagSize linePos]
    simp only [handleOf] at dbEq
    simp only
    rw [dbEq]
  have early : os.nextHandle + 1 < tagged.tick.tick.nextHandle := by
    rw [Os.tick_nextHandle, Os.tick_nextHandle, taggedNext]
    omega
  exact ⟨_, openEq,
    { reliable := goes.reliable (by simpa using taggedReliable)
      fresh := afterFresh
      dir_eq := by rw [goes.dir]; exact taggedDir
      readIndex := rfl
      writeIndex := rfl
      readMap := ⟨_, rfl, readMapped⟩
      writeMap := ⟨_, rfl, writeMapped⟩
      readFd := ⟨_, rfl, readOpen⟩
      writeFd := ⟨_, rfl, writeOpen⟩
      rtagFd := ⟨_, rfl, (kept _ (by omega)).trans rtagFd⟩
      wtagFd := ⟨_, rfl, (kept _ early).trans wtagFd⟩
      readPos := rfl
      writePos := rfl
      getNum_eq := rfl
      putNum_eq := rfl
      maxque_eq := rfl
      sync := rfl }⟩

def QueueModel.reopened (model : QueueModel) : QueueModel :=
  { model with putNum := model.noted.putNum, maxque := model.noted.maxque }

theorem Opened.rep {kept : Prop} {node : Node} {dir : QueueDir} {first last getNum : UInt64} {pos : UInt32}
    {line : WtagLine} {model : QueueModel} (opened : Opened node dir first last getNum pos line)
    (stores : Stores dir model.log) (firstEq : first.toNat = model.log.first) (lastEq : last.toNat = model.log.last)
    (readPos : ReadPos model.log.done pos.toNat) (writePos : line.pos.toNat = used model.log.tail)
    (getNumEq : model.getNum = getNum) (putNumEq : model.putNum = line.putNum) (maxqueEq : model.maxque = line.maxque)
    (tags : kept → Tagged node.queue node.os model) : Rep kept node.queue node.os model where
  reliable := opened.reliable
  fresh := opened.fresh
  readIndex := by rw [opened.readIndex, firstEq]
  writeIndex := by rw [opened.writeIndex, lastEq]
  readMap := by rw [opened.readIndex]; exact opened.readMap
  writeMap := by rw [opened.writeIndex]; exact opened.writeMap
  readFd := by rw [opened.readIndex]; exact opened.readFd
  writeFd := by rw [opened.writeIndex]; exact opened.writeFd
  rtagFd := by
    obtain ⟨fd, same, isOpen⟩ := opened.rtagFd
    exact ⟨fd, 0, true, same, by rw [opened.readIndex]; exact isOpen⟩
  wtagFd := by
    obtain ⟨fd, same, isOpen⟩ := opened.wtagFd
    exact ⟨fd, 0, true, same, by rw [opened.writeIndex]; exact isOpen⟩
  files := by rw [opened.dir_eq]; exact stores.files
  absent := by rw [opened.dir_eq]; exact stores.absent
  readPos := by rw [opened.readPos]; exact readPos
  writePos := by rw [opened.writePos]; exact writePos
  putNum := by rw [opened.putNum_eq, putNumEq]
  getNum := by rw [opened.getNum_eq, getNumEq]
  maxque := by rw [opened.maxque_eq, maxqueEq]
  sync := opened.sync
  tags := tags

theorem closeQueue_spec {node : Node} (reliable : node.os.Reliable) (fresh : node.os.Fresh) :
    (closeQueue node).dir = node.os.dir ∧ (closeQueue node).Reliable ∧ (closeQueue node).Fresh := by
  have tagsFresh := (fresh.close node.queue.rtagFd).close node.queue.wtagFd
  have tagsGo := (Os.goes_close node.os node.queue.rtagFd).trans (Os.goes_close _ node.queue.wtagFd)
  have dbGo : ∀ os : Os, ∀ map fd, os.Goes [] (mqSmCloseDbFile map fd os) := fun os map fd =>
    (Os.goes_munmap os map).trans (Os.goes_close _ fd)
  have dbFresh : ∀ os : Os, os.Fresh → ∀ map fd, (mqSmCloseDbFile map fd os).Fresh :=
    fun os fresh map fd => (fresh.munmap map).close fd
  have goes : node.os.Goes [] (closeQueue node) := by
    simp only [closeQueue, mqSmCloseDb, mqSmTagCloseFile]
    split
    · exact tagsGo.trans ((dbGo _ _ _).trans (dbGo _ _ _))
    · exact tagsGo.trans (dbGo _ _ _)
  refine ⟨goes.dir, goes.reliable reliable, ?_⟩
  simp only [closeQueue, mqSmCloseDb, mqSmTagCloseFile]
  split
  · exact dbFresh _ (dbFresh _ tagsFresh _ _) _ _
  · exact dbFresh _ tagsFresh _ _

theorem used_length (records : List Record) : 128 + 13 * records.length ≤ used records := by
  induction records with
  | nil => simp
  | cons record records ih =>
    have size := record.size_pos
    simp only [used, map_cons, sum_cons, length_cons] at ih ⊢
    omega

theorem Rep.opens {node : Node} {model : QueueModel} (rep : Rep True node.queue node.os model)
    (qname : List UInt8) (cwd : FileName → Bool) {listing : List FileName}
    (lists : Lists node.os.dir listing) (fits : model.log.last < 10 ^ 12)
    (size : 41 ≤ toCInt (41 * model.lines)) (linePos : model.noted.pos.toNat ≤ 67108864) :
    ∃ next front pos, openQueue qname cwd listing (closeQueue node) = some next ∧ ReadPos model.log.done pos.toNat ∧
      (front ++ rtagItem model.getNum pos).length = 31 * (model.log.done.length + 1) ∧
      node.os.dir.tag .rtag node.queue.curRdb.curIndex = some (front ++ rtagItem model.getNum pos) ∧
      Opened next node.os.dir node.queue.curRdb.curIndex node.queue.curWdb.curIndex model.getNum pos model.noted := by
  obtain ⟨dirEq, reliable, fresh⟩ := closeQueue_spec rep.reliable rep.fresh
  have tags := rep.tags trivial
  obtain ⟨front, pos, readPos, rtagLength, rtag, _⟩ := tags.rtag
  obtain ⟨content, wtagLength, wtag, _⟩ := tags.wtag
  obtain ⟨wtagFront, lineEq⟩ := tags.line
  obtain ⟨readFile, readFound, readHolds⟩ := rep.head_file
  obtain ⟨writeFile, writeFound, writeHolds⟩ := rep.tail_file
  have found : findHandleFile cwd listing =
      some (handleOf node.queue.curRdb.curIndex node.queue.curWdb.curIndex) := by
    refine lists.findHandleFile_whole (by simp [readFound]) (by simp [writeFound]) ?_
      (by rw [rep.writeIndex]; exact fits) (by simp [rtag]) tags.rtagAlone (by simp [wtag]) tags.wtagAlone
    intro index present
    rw [rep.readIndex, rep.writeIndex]
    exact ⟨Nat.le_of_not_lt fun early => present (tags.noneBefore index early),
      Nat.le_of_not_lt fun late => present (rep.absent index late)⟩
  have room := readHolds.room
  have used_le := used_length (model.log.done ++ model.log.rest)
  simp only [length_append, maxDbFileSize_eq] at used_le room
  have posBound : pos.toNat ≤ 67108864 := by
    rcases readPos with atRecord | ⟨_, early⟩
    · have prefixed := used_append model.log.done model.log.rest
      omega
    · omega
  have same : content = wtagFront ++ wtagItem model.noted.putNum model.noted.pos model.noted.maxque :=
    Option.some.inj (wtag.symm.trans lineEq)
  obtain ⟨next, openEq, opened⟩ := openQueue_opened qname reliable fresh found
    (by rw [dirEq]; exact rtag) (by rw [rtagLength, toCInt_of_lt (by omega)]; omega) posBound
    (by rw [dirEq]; exact lineEq) (by rw [← same, wtagLength]; exact size) linePos
    (by rw [dirEq]; exact readFound) readHolds.size (by rw [dirEq]; exact writeFound) writeHolds.size
  rw [dirEq] at opened
  exact ⟨next, front, pos, openEq, readPos, rtagLength, rtag, opened⟩

theorem Rep.reopen {node : Node} {model : QueueModel} (rep : Rep True node.queue node.os model)
    (qname : List UInt8) (cwd : FileName → Bool) {listing : List FileName}
    (lists : Lists node.os.dir listing) (fits : model.log.last < 10 ^ 12)
    (size : 41 ≤ toCInt (41 * model.lines)) (notedPos : model.noted.pos.toNat = used model.log.tail) :
    ∃ next, openQueue qname cwd listing (closeQueue node) = some next ∧
      Rep True next.queue next.os model.reopened := by
  have tags := rep.tags trivial
  obtain ⟨content, wtagLength, wtag, _⟩ := tags.wtag
  obtain ⟨wtagFront, lineEq⟩ := tags.line
  obtain ⟨_, _, writeHolds⟩ := rep.tail_file
  have tailRoom := writeHolds.room
  rw [maxDbFileSize_eq] at tailRoom
  obtain ⟨next, front, pos, openEq, readPos, rtagLength, rtag, opened⟩ :=
    rep.opens qname cwd lists fits size (by omega)
  obtain ⟨rtagFd, rtagSame, rtagOpen⟩ := opened.rtagFd
  obtain ⟨wtagFd, wtagSame, wtagOpen⟩ := opened.wtagFd
  refine ⟨next, openEq,
    opened.rep rep.stores rep.readIndex rep.writeIndex readPos notedPos rfl rfl rfl (fun _ => ?_)⟩
  exact
    { rtag := ⟨front, pos, readPos, rtagLength, by rw [opened.dir_eq, opened.readIndex]; exact rtag,
        rtagFd, 0, true, rtagSame, by rw [opened.readIndex]; exact rtagOpen, by simp⟩
      wtag := ⟨content, wtagLength, by rw [opened.dir_eq, opened.writeIndex]; exact wtag,
        wtagFd, 0, true, wtagSame, by rw [opened.writeIndex]; exact wtagOpen, by simp⟩
      rtagAlone := by rw [opened.dir_eq, opened.readIndex]; exact tags.rtagAlone
      wtagAlone := by rw [opened.dir_eq, opened.writeIndex]; exact tags.wtagAlone
      noneBefore := by rw [opened.dir_eq]; exact tags.noneBefore
      line := ⟨wtagFront, by rw [opened.dir_eq, opened.writeIndex]; exact lineEq⟩ }

end Libucmq
