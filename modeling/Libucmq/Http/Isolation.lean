import Libucmq.Http.Server

/-! What an earlier connection leaves behind. -/

namespace Libucmq.Http

open Net Machine CString

variable {parser : HttpParser}

/-- Before `on_message_begin` nothing is called; only an error or upgrade stops it. -/
structure HttpParser.Lawful (parser : HttpParser) (idle : parser.State → Prop) : Prop where
  start : idle parser.start
  quiet : ∀ state data, idle state →
    (parser.execute state data).2.2 = [] ∧ idle (parser.execute state data).1 ∧
        parser.upgrade (parser.execute state data).1 = false ∨
      ∃ rest, (parser.execute state data).2.2 = .messageBegin :: rest
  stops : ∀ state data, (parser.execute state data).2.1 ≠ data.length →
    parser.upgrade (parser.execute state data).1 = true ∨ parser.errno (parser.execute state data).1 ≠ 0

def QuietChunk (parser : HttpParser) (state : parser.State) (bytes : List UInt8) : Prop :=
  (parser.execute state bytes).2.2 = [] ∧ (parser.execute state bytes).2.1 = bytes.length

def firstChunk : List NetEvent → Option Chunk
  | [] => none
  | .recv chunk _ :: _ => some chunk
  | .recvEnd :: _ => none
  | .recvError :: _ => none
  | _ :: rest => firstChunk rest

def SlotReset (slot : Slot parser) : Prop :=
  let node := getPoolAddr slot
  match slot.watch with
  | .none => node.recv = {} ∧ node.send = {} ∧ node.control = .doneOk ∧ node.hs.step = 0
  | .recv => node.send = {} ∧ node.control = .doneOk
  | .task => node.send = {} ∧ node.hs.step = 0
  | .send => node.recv = {} ∧ node.hs.step = 0
  | .stopped => True

theorem httpResponse_kept (node : DataNode parser) (code : Nat) :
    (httpResponse node code).recv = node.recv ∧ (httpResponse node code).hs = node.hs ∧
      (httpResponse node code).control = node.control ∧ (httpResponse node code).hp = node.hp := by
  unfold httpResponse
  split <;> simp

theorem delPoolAddr_reset {fd : Nat} {node : DataNode parser} (recv : node.recv = {}) (send : node.send = {})
    (control : node.control = .doneOk) (step : node.hs.step = 0) : SlotReset (delPoolAddr fd node) := by
  by_cases large : fd ≥ maxConnect <;> simp [SlotReset, delPoolAddr, getPoolAddr, *]

theorem sendError_reset (node : DataNode parser) (control : Control) (code : Nat) :
    SlotReset (sendError node control code).1 := by
  simp [SlotReset, sendError, getPoolAddr]

theorem httpHandle_kept {node next : DataNode parser} {done : Bool} (returned : httpHandle node = .ok (done, next)) :
    next.recv = node.recv ∧ next.send = node.send ∧ next.control = node.control := by
  unfold httpHandle handled at returned
  split at returned
  · cases returned
  · simp only [Except.ok.injEq] at returned
    split at returned
    · cases returned
      simp
    · split at returned <;> cases returned <;> simp

def NetEvent.awaited : NetEvent → Watch
  | .accept => .none
  | .recv _ _ => .recv
  | .recvEnd => .recv
  | .recvAgain => .recv
  | .recvError => .recv
  | .taskDone _ _ => .task
  | .send _ => .send

variable {event : NetEvent}

theorem slotStep_other {slot : Slot parser} (apis : List ApiEntry) (fd : Nat)
    (other : slot.watch ≠ event.awaited) : slotStep apis fd slot event = .ok (slot, .none) := by
  obtain ⟨addr, watch⟩ := slot
  cases event <;> cases watch <;> simp_all [slotStep, NetEvent.awaited]

variable {apis : List ApiEntry}

theorem requestDone_reset {node : DataNode parser} (send : node.send = {}) : SlotReset (requestDone apis node).1 := by
  unfold requestDone
  split
  · exact sendError_reset _ _ _
  · split
    · exact sendError_reset _ _ _
    · dsimp only
      split <;> simp [SlotReset, getPoolAddr, send]

theorem netRecv_control (granted : Bool) (cache : NetCache) (bytes : List UInt8) :
    (netRecv granted cache bytes).1 = .doneOk ∨ (netRecv granted cache bytes).1 = .mallocFailed ∨
      (netRecv granted cache bytes).1 = .dataTooLarge := by
  unfold netRecv cacheAdd
  dsimp only
  split
  · simp
  · split
    · split <;> simp
    · simp

theorem recvData_failed (apis : List ApiEntry) (node : DataNode parser) (chunk : Chunk) (granted : Bool)
    (failed : (netRecv granted node.recv chunk.bytes).1 ≠ .doneOk) : recvData apis node chunk granted =
      let (control, recv) := netRecv granted node.recv chunk.bytes
      .ok (sendError { node with recv, control } control (if control = .mallocFailed then 500 else 413)) := by
  have control := netRecv_control granted node.recv chunk.bytes
  unfold recvData
  cases received : netRecv granted node.recv chunk.bytes with
  | mk state recv =>
    rw [received] at control failed
    rcases control with rfl | rfl | rfl
    · exact absurd rfl failed
    · rfl
    · rfl

theorem recvData_received (apis : List ApiEntry) (node : DataNode parser) (chunk : Chunk) (granted : Bool)
    (received : (netRecv granted node.recv chunk.bytes).1 = .doneOk) :
    recvData apis node chunk granted = handleDone apis
      (httpHandle { node with recv := (netRecv granted node.recv chunk.bytes).2, control := .doneOk }) := by
  unfold recvData
  cases result : netRecv granted node.recv chunk.bytes with
  | mk state recv =>
    rw [result] at received
    obtain rfl : state = .doneOk := received
    rfl

theorem recvData_reset {node : DataNode parser} {chunk : Chunk} {granted : Bool}
    {next : Slot parser} {outcome : HttpOutcome} (send : node.send = {})
    (stepEq : recvData apis node chunk granted = .ok (next, outcome)) : SlotReset next := by
  by_cases received : (netRecv granted node.recv chunk.bytes).1 = .doneOk
  · rw [recvData_received apis node chunk granted received] at stepEq
    cases handle : httpHandle { node with recv := (netRecv granted node.recv chunk.bytes).2, control := .doneOk } with
    | error fault => simp [handle, handleDone] at stepEq
    | ok result =>
      obtain ⟨done, after⟩ := result
      obtain ⟨_, sendKept, controlKept⟩ := httpHandle_kept handle
      cases done with
      | false =>
        simp only [handle, handleDone, Except.ok.injEq, Prod.mk.injEq] at stepEq
        obtain ⟨rfl, -⟩ := stepEq
        exact ⟨sendKept.trans send, controlKept⟩
      | true =>
        simp only [handle, handleDone, Except.ok.injEq] at stepEq
        have kept := @requestDone_reset _ apis after (sendKept.trans send)
        rwa [stepEq] at kept
  · rw [recvData_failed apis node chunk granted received] at stepEq
    cases stepEq
    exact sendError_reset _ _ _

theorem sendCb_reset {fd : Nat} {node : DataNode parser} (recv : node.recv = {}) (step : node.hs.step = 0)
    (sent : Option Nat) : SlotReset (sendCb fd node sent).1 := by
  unfold sendCb
  dsimp only
  split
  · exact ⟨recv, step⟩
  · split
    · exact delPoolAddr_reset recv rfl rfl step
    · exact ⟨rfl, rfl⟩

theorem slotStep_reset {fd : Nat} {slot next : Slot parser}
    {outcome : HttpOutcome} (reset : SlotReset slot) (stepEq : slotStep apis fd slot event = .ok (next, outcome)) :
    SlotReset next := by
  by_cases other : slot.watch ≠ event.awaited
  · rw [slotStep_other apis fd other] at stepEq
    cases stepEq
    exact reset
  have watch := not_not.mp other
  cases event with
  | accept =>
    simp only [slotStep, watch, NetEvent.awaited] at stepEq
    simp only [SlotReset, watch, NetEvent.awaited] at reset
    split at stepEq <;> cases stepEq
    · simpa [SlotReset, watch, NetEvent.awaited] using reset
    · exact ⟨reset.2.1, reset.2.2.1⟩
  | recv chunk granted =>
    simp only [slotStep, watch, NetEvent.awaited] at stepEq
    simp only [SlotReset, watch, NetEvent.awaited] at reset
    exact recvData_reset reset.1 stepEq
  | recvEnd =>
    simp only [slotStep, watch, NetEvent.awaited] at stepEq
    simp only [SlotReset, watch, NetEvent.awaited] at reset
    cases stepEq
    exact delPoolAddr_reset rfl reset.1 rfl rfl
  | recvAgain =>
    simp only [slotStep, watch, NetEvent.awaited] at stepEq
    cases stepEq
    exact reset
  | recvError =>
    simp only [slotStep, watch, NetEvent.awaited] at stepEq
    simp only [SlotReset, watch, NetEvent.awaited] at reset
    cases stepEq
    exact delPoolAddr_reset rfl reset.1 rfl rfl
  | taskDone reply failed =>
    simp only [slotStep, watch, NetEvent.awaited] at stepEq
    simp only [SlotReset, watch, NetEvent.awaited] at reset
    cases stepEq
    exact ⟨rfl, by simpa [getPoolAddr, (httpResponse_kept _ _).2.1] using reset.2⟩
  | send sent =>
    simp only [slotStep, watch, NetEvent.awaited] at stepEq
    simp only [SlotReset, watch, NetEvent.awaited] at reset
    have kept := @sendCb_reset _ fd _ reset.1 reset.2 sent
    rwa [Except.ok.inj stepEq] at kept

structure Alike (idle : parser.State → Prop) (left right : DataNode parser) : Prop where
  recv : left.recv = right.recv
  send : left.send = right.send
  control : left.control = right.control
  used : left.parserUsed = right.parserUsed
  parse : left.hs = right.hs ∨ idle left.parserUsed ∧ left.hs.dosize = right.hs.dosize ∧
    left.hs.step = right.hs.step ∧ left.hs.isOver = false ∧ right.hs.isOver = false

theorem Alike.rfl {idle : parser.State → Prop} {node : DataNode parser} : Alike idle node node :=
  ⟨.refl _, .refl _, .refl _, .refl _, Or.inl (.refl _)⟩

section Handle

variable {idle : parser.State → Prop} {left right : DataNode parser}

theorem httpHandle_congr (recv : left.recv = right.recv) (send : left.send = right.send)
    (control : left.control = right.control) (used : left.parserUsed = right.parserUsed)
    (stat : left.hs = right.hs) : httpHandle left = httpHandle right := by
  simp only [httpHandle, handled, recv, send, control, used, stat]

theorem handled_quiet {todo : Nat} {hp : parser.State} (plain : parser.upgrade hp = false)
    (isOpen : left.hs.isOver = false) : handled left todo (hp, todo, []) =
      (false, { left with
        hp
        hs := { left.hs with
          step := (left.hs.step + 1) % 65536, dosize := (left.hs.dosize + todo) % 4294967296 } }) := by
  simp [handled, callbacks, plain, isOpen]

theorem handled_wrong {todo done : Nat} {hp : parser.State} {events : List ParserEvent}
    (plain : parser.upgrade hp = false) (short : done ≠ todo) :
    ∃ next, handled left todo (hp, done, events) = (true, next) ∧ next.hs.err = parser.errno hp :=
  ⟨_, by simp only [handled, plain, short, ↓reduceIte, Bool.false_eq_true]; rfl, rfl⟩

theorem handled_began {todo done : Nat} {hp : parser.State} {rest : List ParserEvent}
    (recv : left.recv = right.recv) (send : left.send = right.send) (control : left.control = right.control)
    (dosize : left.hs.dosize = right.hs.dosize) :
    handled left todo (hp, done, .messageBegin :: rest) = handled right todo (hp, done, .messageBegin :: rest) := by
  obtain ⟨leftRecv, leftSend, leftControl, leftHp, leftHs⟩ := left
  obtain ⟨rightRecv, rightSend, rightControl, rightHp, rightHs⟩ := right
  obtain rfl : leftRecv = rightRecv := recv
  obtain rfl : leftSend = rightSend := send
  obtain rfl : leftControl = rightControl := control
  have same : callbacks leftHs.dosize leftRecv.data leftHs (.messageBegin :: rest) =
      callbacks rightHs.dosize leftRecv.data rightHs (.messageBegin :: rest) := by
    rw [show leftHs.dosize = rightHs.dosize from dosize]
    rfl
  simp only [handled, same]

def HandlesAlike (idle : parser.State → Prop) (left right : DataNode parser) : Prop :=
  httpHandle left = httpHandle right ∨ ∃ done leftNext rightNext,
    httpHandle left = .ok (done, leftNext) ∧ httpHandle right = .ok (done, rightNext) ∧
      (done = false ∧ Alike idle leftNext rightNext ∨
        done = true ∧ leftNext.hs.err ≠ 0 ∧ rightNext.hs.err ≠ 0)

theorem httpHandle_alike (lawful : parser.Lawful idle) (recv : left.recv = right.recv)
    (send : left.send = right.send) (control : left.control = right.control)
    (used : left.parserUsed = right.parserUsed) (waiting : idle right.parserUsed)
    (dosize : left.hs.dosize = right.hs.dosize) (step : left.hs.step = right.hs.step)
    (begun : left.hs.isOver = false ∧ right.hs.isOver = false ∨
      ¬ QuietChunk parser right.parserUsed (right.recv.data.drop right.hs.dosize)) :
    HandlesAlike idle left right := by
  by_cases past : right.recv.getSize < right.hs.dosize
  · exact Or.inl (by simp [httpHandle, recv, dosize, past])
  have quiet := lawful.quiet right.parserUsed (right.recv.data.drop right.hs.dosize) waiting
  have stops := lawful.stops right.parserUsed (right.recv.data.drop right.hs.dosize)
  simp only [HandlesAlike, httpHandle, recv, dosize, used, past, ↓reduceIte, Except.ok.injEq]
  rw [QuietChunk] at begun
  generalize parser.execute right.parserUsed (right.recv.data.drop right.hs.dosize) = result at *
  generalize (right.recv.data.drop right.hs.dosize).length = todo at *
  obtain ⟨hp, done, events⟩ := result
  rcases quiet with ⟨rfl, still, plain⟩ | ⟨rest, rfl⟩
  · right
    by_cases whole : done = todo
    · subst whole
      obtain ⟨leftOver, rightOver⟩ := begun.resolve_right (by simp)
      refine ⟨false, _, _, handled_quiet plain leftOver, handled_quiet plain rightOver, Or.inl ⟨Eq.refl _, ?_⟩⟩
      refine ⟨recv, send, control, ?_, Or.inr ⟨?_, ?_, ?_, leftOver, rightOver⟩⟩
      · simp only [DataNode.parserUsed, dosize, step]
      · simp only [DataNode.parserUsed]
        split
        · exact lawful.start
        · exact still
      · simp only [dosize]
      · simp only [step]
    · have wrong : parser.errno hp ≠ 0 := by simpa [plain] using stops whole
      obtain ⟨leftNext, leftEq, leftErr⟩ := @handled_wrong _ left _ _ _ [] plain whole
      obtain ⟨rightNext, rightEq, rightErr⟩ := @handled_wrong _ right _ _ _ [] plain whole
      exact ⟨true, leftNext, rightNext, leftEq, rightEq, Or.inr ⟨Eq.refl _, leftErr ▸ wrong, rightErr ▸ wrong⟩⟩
  · exact Or.inl (handled_began recv send control dosize)

end Handle

theorem httpRespText_error {code : Nat} (other : code ≠ 200) (keepAlive again : Bool) :
    httpRespText code keepAlive = httpRespText code again := by
  unfold httpRespText
  split <;> simp_all

theorem httpRespText_ne_nil (code : Nat) (keepAlive : Bool) : httpRespText code keepAlive ≠ [] := by
  have texts : ∀ index < 6, httpRespInfo.getD index "" ≠ "" := by decide
  unfold httpRespText ascii
  rw [ne_eq, List.map_eq_nil_iff, String.toList_eq_nil_iff]
  apply texts
  split
  · split <;> decide
  all_goals decide

section Slots

variable {idle : parser.State → Prop}

def SlotAlike (idle : parser.State → Prop) (left right : Slot parser) : Prop :=
  let leftNode := getPoolAddr left
  let rightNode := getPoolAddr right
  left.watch = right.watch ∧ SlotReset left ∧ SlotReset right ∧
    match left.watch with
    | .none => True
    | .recv => Alike idle leftNode rightNode
    | .task => leftNode.send = rightNode.send ∧ leftNode.hs = rightNode.hs
    | .send => leftNode.send = rightNode.send ∧ leftNode.control = rightNode.control ∧
        (leftNode.hs = rightNode.hs ∨
          leftNode.control ≠ .doneOk ∧ leftNode.send.getSize ≠ leftNode.send.outSize)
    | .stopped => True

variable {left right : DataNode parser}

theorem sendError_alike (leftSend : left.send = {}) (rightSend : right.send = {})
    {control : Control} (wrong : control ≠ .doneOk) {code : Nat} (other : code ≠ 200) :
    SlotAlike idle (sendError left control code).1 (sendError right control code).1 := by
  have response : ∀ node : DataNode parser, node.send = {} → (httpResponse node code).send =
      (cacheAdd true {} (httpRespText code false)).2 := by
    intro node empty
    rw [httpResponse, empty, if_neg (by decide)]
    simp only [httpRespText_error other node.hs.shouldKeepAlive false]
  refine ⟨rfl, sendError_reset _ _ _, sendError_reset _ _ _, ?_⟩
  have text := List.length_pos_iff.mpr (httpRespText_ne_nil code false)
  refine ⟨(response left leftSend).trans (response right rightSend).symm, rfl, Or.inr ⟨wrong, ?_⟩⟩
  change (httpResponse left code).send.getSize ≠ (httpResponse left code).send.outSize
  rw [response left leftSend]
  simp only [cacheAdd, ↓reduceIte, apply_ite Prod.snd, NetCache.getSize]
  split <;> simp only [List.nil_append] <;> omega

theorem requestDone_wrong (apis : List ApiEntry) {node : DataNode parser} (wrong : node.hs.err ≠ 0) :
    requestDone apis node = sendError node .parseError 503 := by
  rw [requestDone, if_pos wrong]

theorem requestDone_alike (apis : List ApiEntry) {node : DataNode parser} (send : node.send = {}) :
    SlotAlike idle (requestDone apis node).1 (requestDone apis node).1 := by
  have reset := @requestDone_reset _ apis _ send
  refine ⟨rfl, reset, reset, ?_⟩
  cases watch : (requestDone apis node).1.watch with
  | none => trivial
  | recv => exact Alike.rfl
  | task => exact ⟨rfl, rfl⟩
  | send => exact ⟨rfl, rfl, Or.inl rfl⟩
  | stopped => trivial

def StepsAlike (idle : parser.State → Prop) (left right : Except Fault (Slot parser × HttpOutcome)) : Prop :=
  (∃ fault, left = .error fault ∧ right = .error fault) ∨
    ∃ leftNext rightNext outcome, left = .ok (leftNext, outcome) ∧ right = .ok (rightNext, outcome) ∧
      SlotAlike idle leftNext rightNext

theorem handleDone_same (apis : List ApiEntry) {node : DataNode parser} (send : node.send = {})
    (control : node.control = .doneOk) :
    StepsAlike idle (handleDone apis (httpHandle node)) (handleDone apis (httpHandle node)) := by
  cases handle : httpHandle node with
  | error fault => exact Or.inl ⟨fault, rfl, rfl⟩
  | ok result =>
    obtain ⟨done, after⟩ := result
    obtain ⟨_, sendKept, controlKept⟩ := httpHandle_kept handle
    cases done with
    | false =>
      have reset : SlotReset ({ addr := some after, watch := .recv } : Slot parser) :=
        ⟨sendKept.trans send, controlKept.trans control⟩
      exact Or.inr ⟨_, _, _, rfl, rfl, rfl, reset, reset, Alike.rfl⟩
    | true => exact Or.inr ⟨_, _, _, rfl, rfl, requestDone_alike apis (sendKept.trans send)⟩

theorem recvData_alike (lawful : parser.Lawful idle) (apis : List ApiEntry)
    (leftSend : left.send = {}) (rightSend : right.send = {}) (recv : left.recv = right.recv)
    (used : left.parserUsed = right.parserUsed) (chunk : Chunk) (granted : Bool)
    (parse : left.hs = right.hs ∨ idle right.parserUsed ∧ left.hs.dosize = right.hs.dosize ∧
      left.hs.step = right.hs.step ∧ (left.hs.isOver = false ∧ right.hs.isOver = false ∨
        ¬ QuietChunk parser right.parserUsed
          ((netRecv granted right.recv chunk.bytes).2.data.drop right.hs.dosize))) :
    StepsAlike idle (recvData apis left chunk granted) (recvData apis right chunk granted) := by
  by_cases received : (netRecv granted right.recv chunk.bytes).1 = .doneOk
  · rw [recvData_received apis right chunk granted received,
      recvData_received apis left chunk granted (by rwa [recv]), recv]
    have apart : HandlesAlike idle
        { left with recv := (netRecv granted right.recv chunk.bytes).2, control := .doneOk }
        { right with recv := (netRecv granted right.recv chunk.bytes).2, control := .doneOk } := by
      rcases parse with same | ⟨waiting, dosize, step, begun⟩
      · exact Or.inl (httpHandle_congr rfl (leftSend.trans rightSend.symm) rfl used same)
      · exact httpHandle_alike lawful rfl (leftSend.trans rightSend.symm) rfl used waiting dosize step begun
    rcases apart with same | ⟨done, leftNext, rightNext, leftEq, rightEq, ⟨rfl, alike⟩ | ⟨rfl, leftErr, rightErr⟩⟩
    · rw [same]
      exact handleDone_same apis rightSend rfl
    · obtain ⟨_, leftKept, leftControl⟩ := httpHandle_kept leftEq
      obtain ⟨_, rightKept, rightControl⟩ := httpHandle_kept rightEq
      rw [leftEq, rightEq]
      exact Or.inr ⟨_, _, _, rfl, rfl, rfl, ⟨leftKept.trans leftSend, leftControl⟩,
        ⟨rightKept.trans rightSend, rightControl⟩, alike⟩
    · obtain ⟨_, leftKept, _⟩ := httpHandle_kept leftEq
      obtain ⟨_, rightKept, _⟩ := httpHandle_kept rightEq
      rw [leftEq, rightEq, handleDone, handleDone, requestDone_wrong apis leftErr, requestDone_wrong apis rightErr]
      exact Or.inr ⟨_, _, _, rfl, rfl, sendError_alike (leftKept.trans leftSend) (rightKept.trans rightSend)
        (by decide) (by decide)⟩
  · rw [recvData_failed apis right chunk granted received,
      recvData_failed apis left chunk granted (by rwa [recv]), recv]
    cases result : netRecv granted right.recv chunk.bytes with
    | mk control cache =>
      rw [result] at received
      have code : (if control = .mallocFailed then 500 else 413) ≠ 200 := by split <;> decide
      exact Or.inr ⟨_, _, _, rfl, rfl, @sendError_alike _ idle { left with recv := cache, control }
        { right with recv := cache, control } leftSend rightSend control received _ code⟩

theorem closed_alike {left right : Slot parser} (leftReset : SlotReset left) (rightReset : SlotReset right)
    (leftWatch : left.watch = .none) (rightWatch : right.watch = .none) : SlotAlike idle left right := by
  refine ⟨leftWatch.trans rightWatch.symm, leftReset, rightReset, ?_⟩
  simp only [leftWatch]

theorem taskHandle_alike (step : right.hs.step = 0) (send : left.send = right.send)
    (stat : left.hs = right.hs) (reply : List UInt8) (failed : Bool) :
    SlotAlike idle (taskHandle left reply failed).1 (taskHandle right reply failed).1 := by
  have reset : ∀ node : DataNode parser, node.hs.step = 0 → SlotReset (taskHandle node reply failed).1 :=
    fun node step => ⟨rfl, by simpa [getPoolAddr, taskHandle, (httpResponse_kept _ _).2.1] using step⟩
  have response : ∀ (left right : DataNode parser) (code : Nat), left.send = right.send → left.hs = right.hs →
      (httpResponse left code).send = (httpResponse right code).send := by
    intro left right code send stat
    simp only [httpResponse, send, stat, apply_ite DataNode.send]
  refine ⟨rfl, reset left (stat ▸ step), reset right step, response _ _ _ ?_ stat, rfl, Or.inl ?_⟩
  · simp only [send]
  · simp only [getPoolAddr, taskHandle, Option.getD_some, (httpResponse_kept _ _).2.1]
    exact stat

theorem netSend_wrong {cache : NetCache} {control : Control} (wrong : control ≠ .doneOk)
    (unsent : cache.getSize ≠ cache.outSize) (sent : Option Nat) :
    ∃ rest, (netSend cache control sent).1 = some rest ∧ (netSend cache control sent).2.1 ≠ .doneOk ∧
      (0 < rest → (netSend cache control sent).2.2.getSize ≠ (netSend cache control sent).2.2.outSize) := by
  simp only [netSend, ne_eq, unsent, not_false_eq_true, ↓reduceIte]
  cases sent with
  | none => exact ⟨0, rfl, by simp, by simp⟩
  | some count =>
    refine ⟨_, rfl, wrong, fun more => ?_⟩
    dsimp only at more ⊢
    omega

theorem sendCb_alike (fd : Nat) (leftRecv : left.recv = {})
    (rightRecv : right.recv = {}) (leftStep : left.hs.step = 0) (rightStep : right.hs.step = 0)
    (send : left.send = right.send) (control : left.control = right.control)
    (stat : left.hs = right.hs ∨ left.control ≠ .doneOk ∧ left.send.getSize ≠ left.send.outSize)
    (sent : Option Nat) : StepsAlike idle (.ok (sendCb fd left sent)) (.ok (sendCb fd right sent)) := by
  have wrong : left.hs = right.hs ∨ ∃ rest, (netSend right.send right.control sent).1 = some rest ∧
      (netSend right.send right.control sent).2.1 ≠ .doneOk ∧ (0 < rest →
        (netSend right.send right.control sent).2.2.getSize ≠ (netSend right.send right.control sent).2.2.outSize) := by
    rw [send, control] at stat
    exact stat.imp_right fun doomed => netSend_wrong doomed.1 doomed.2 sent
  simp only [sendCb, send, control]
  generalize netSend right.send right.control sent = result at wrong
  obtain ⟨rest, state, cache⟩ := result
  by_cases more : rest.getD 0 > 0
  · simp only [more, ↓reduceIte]
    refine Or.inr ⟨_, _, _, rfl, rfl, rfl, ⟨leftRecv, leftStep⟩, ⟨rightRecv, rightStep⟩, rfl, rfl, ?_⟩
    rcases wrong with same | ⟨count, rfl, noted, unsent⟩
    · exact Or.inl same
    · exact Or.inr ⟨noted, unsent more⟩
  · simp only [more, ↓reduceIte]
    have closing : ∀ node : DataNode parser, node.recv = {} → node.hs.step = 0 → SlotReset
        (delPoolAddr fd { node with send := cacheFree cache, control := .doneOk }) :=
      fun node recv step => delPoolAddr_reset recv rfl rfl step
    rcases wrong with same | ⟨count, rfl, noted, _⟩
    · rw [same]
      split
      · exact Or.inr ⟨_, _, _, rfl, rfl, closed_alike (delPoolAddr_reset leftRecv rfl rfl rightStep)
          (closing right rightRecv rightStep) rfl rfl⟩
      · refine Or.inr ⟨_, _, _, rfl, rfl, rfl, ⟨rfl, rfl⟩, ⟨rfl, rfl⟩, leftRecv.trans rightRecv.symm, rfl, rfl, ?_,
          Or.inl rfl⟩
        simp [DataNode.parserUsed, getPoolAddr, rightStep]
    · have zero : count = 0 := by simpa using more
      simp only [zero, noted, ne_eq, not_false_eq_true, true_or, and_self, ↓reduceIte]
      exact Or.inr ⟨_, _, _, rfl, rfl, closed_alike (closing left leftRecv leftStep)
        (closing right rightRecv rightStep) rfl rfl⟩

theorem slotStep_alike (lawful : parser.Lawful idle) (apis : List ApiEntry) (fd : Nat) {left right : Slot parser}
    (alike : SlotAlike idle left right) (single : event ≠ .accept) :
    StepsAlike idle (slotStep apis fd left event) (slotStep apis fd right event) := by
  obtain ⟨watch, leftReset, rightReset, same⟩ := alike
  by_cases other : left.watch ≠ event.awaited
  · rw [slotStep_other apis fd other, slotStep_other apis fd (watch ▸ other)]
    exact Or.inr ⟨_, _, _, rfl, rfl, watch, leftReset, rightReset, same⟩
  have leftWatch := not_not.mp other
  have rightWatch := watch ▸ leftWatch
  have broken : ∀ left right : DataNode parser, left.send = {} → right.send = {} →
      StepsAlike idle (.ok (recvBroken fd left)) (.ok (recvBroken fd right)) :=
    fun left right leftSend rightSend => Or.inr ⟨_, _, _, rfl, rfl,
      closed_alike (delPoolAddr_reset rfl leftSend rfl rfl) (delPoolAddr_reset rfl rightSend rfl rfl) rfl rfl⟩
  cases event with
  | accept => exact absurd rfl single
  | recv chunk granted =>
    simp only [SlotReset, leftWatch, rightWatch, NetEvent.awaited] at leftReset rightReset same
    simp only [slotStep, leftWatch, rightWatch, NetEvent.awaited]
    refine recvData_alike lawful apis leftReset.1 rightReset.1 same.recv same.used chunk granted ?_
    rcases same.parse with stat | ⟨waiting, dosize, step, begun⟩
    · exact Or.inl stat
    · exact Or.inr ⟨same.used ▸ waiting, dosize, step, Or.inl begun⟩
  | recvEnd =>
    simp only [SlotReset, leftWatch, rightWatch, NetEvent.awaited] at leftReset rightReset
    simp only [slotStep, leftWatch, rightWatch, NetEvent.awaited]
    exact broken _ _ leftReset.1 rightReset.1
  | recvAgain =>
    simp only [slotStep, leftWatch, rightWatch, NetEvent.awaited]
    exact Or.inr ⟨_, _, _, rfl, rfl, watch, leftReset, rightReset, same⟩
  | recvError =>
    simp only [SlotReset, leftWatch, rightWatch, NetEvent.awaited] at leftReset rightReset
    simp only [slotStep, leftWatch, rightWatch, NetEvent.awaited]
    exact broken _ _ leftReset.1 rightReset.1
  | taskDone reply failed =>
    simp only [SlotReset, leftWatch, rightWatch, NetEvent.awaited] at leftReset rightReset same
    simp only [slotStep, leftWatch, rightWatch, NetEvent.awaited]
    exact Or.inr ⟨_, _, _, rfl, rfl, taskHandle_alike rightReset.2 same.1 same.2 reply failed⟩
  | send sent =>
    simp only [SlotReset, leftWatch, rightWatch, NetEvent.awaited] at leftReset rightReset same
    simp only [slotStep, leftWatch, rightWatch, NetEvent.awaited]
    exact sendCb_alike fd leftReset.1 rightReset.1 leftReset.2 rightReset.2 same.1 same.2.1 same.2.2 sent

theorem run_alike (lawful : parser.Lawful idle) (apis : List ApiEntry) (fd : Nat) {left right : Slot parser}
    (alike : SlotAlike idle left right) {stream : List NetEvent} (single : ∀ event ∈ stream, event ≠ .accept) :
    (Machine.run (slotStep apis fd) left stream).map Prod.snd =
      (Machine.run (slotStep apis fd) right stream).map Prod.snd :=
  @Machine.run_indistinct _ _ _ _ (slotStep apis fd) (fun event => event ≠ .accept) (SlotAlike idle)
    (fun _ _ _ alike single => slotStep_alike lawful apis fd alike single) left right stream alike single

structure Rested (node : DataNode parser) : Prop where
  recv : node.recv = {}
  send : node.send = {}
  control : node.control = .doneOk
  step : node.hs.step = 0
  dosize : node.hs.dosize = 0

theorem Rested.parserUsed {node : DataNode parser} (rested : Rested node) : node.parserUsed = parser.start := by
  rw [DataNode.parserUsed, if_pos (Or.inl rested.dosize)]

theorem Rested.slotAlike (leftRested : Rested left) (lawful : parser.Lawful idle)
    (rightRested : Rested right) (leftOver : left.hs.isOver = false) (rightOver : right.hs.isOver = false) :
    SlotAlike idle { addr := some left, watch := .recv } { addr := some right, watch := .recv } := by
  refine ⟨rfl, ⟨leftRested.send, leftRested.control⟩, ⟨rightRested.send, rightRested.control⟩,
    leftRested.recv.trans rightRested.recv.symm, leftRested.send.trans rightRested.send.symm,
    leftRested.control.trans rightRested.control.symm,
    leftRested.parserUsed.trans rightRested.parserUsed.symm, Or.inr ⟨?_, ?_, ?_, leftOver, rightOver⟩⟩
  · exact leftRested.parserUsed ▸ lawful.start
  · exact leftRested.dosize.trans rightRested.dosize.symm
  · exact leftRested.step.trans rightRested.step.symm

theorem StepsAlike.run {fd : Nat} {left right : Slot parser}
    {rest : List NetEvent} (alike : StepsAlike idle (slotStep apis fd left event) (slotStep apis fd right event))
    (lawful : parser.Lawful idle) (single : ∀ event ∈ rest, event ≠ .accept) :
    (Machine.run (slotStep apis fd) left (event :: rest)).map Prod.snd =
      (Machine.run (slotStep apis fd) right (event :: rest)).map Prod.snd := by
  rcases alike with ⟨fault, leftEq, rightEq⟩ | ⟨leftNext, rightNext, outcome, leftEq, rightEq, kept⟩
  · simp only [Machine.run, leftEq, rightEq]
  · exact map_run_cons leftEq rightEq (run_alike lawful apis fd kept single)

theorem rested_run (lawful : parser.Lawful idle) (apis : List ApiEntry) (fd : Nat) (leftRested : Rested left)
    (rightRested : Rested right) {stream : List NetEvent} (single : ∀ event ∈ stream, event ≠ .accept)
    (begins : ∀ chunk ∈ firstChunk stream, ¬ QuietChunk parser parser.start chunk.bytes) :
    (Machine.run (slotStep apis fd) { addr := some left, watch := .recv } stream).map Prod.snd =
      (Machine.run (slotStep apis fd) { addr := some right, watch := .recv } stream).map Prod.snd := by
  have used := leftRested.parserUsed.trans rightRested.parserUsed.symm
  have broken : StepsAlike idle (.ok (recvBroken fd left)) (.ok (recvBroken fd right)) :=
    Or.inr ⟨_, _, _, rfl, rfl, closed_alike (delPoolAddr_reset rfl leftRested.send rfl rfl)
      (delPoolAddr_reset rfl rightRested.send rfl rfl) rfl rfl⟩
  induction stream with
  | nil => rfl
  | cons event rest ih =>
    have later : ∀ event ∈ rest, event ≠ .accept := fun event member => single event (List.mem_cons_of_mem _ member)
    cases event with
    | accept => exact absurd rfl (single _ List.mem_cons_self)
    | recv chunk granted =>
      refine StepsAlike.run (recvData_alike lawful apis leftRested.send rightRested.send
        (leftRested.recv.trans rightRested.recv.symm) used chunk granted (Or.inr ⟨?_, ?_, ?_, Or.inr ?_⟩))
        lawful later
      · exact rightRested.parserUsed ▸ lawful.start
      · exact leftRested.dosize.trans rightRested.dosize.symm
      · exact leftRested.step.trans rightRested.step.symm
      · rw [rightRested.parserUsed, rightRested.recv, rightRested.dosize, netRecv_first granted chunk.bounded]
        exact begins chunk rfl
    | recvEnd => exact StepsAlike.run broken lawful later
    | recvError => exact StepsAlike.run broken lawful later
    | recvAgain => exact map_run_cons rfl rfl (ih later begins)
    | taskDone reply failed => exact map_run_cons rfl rfl (ih later begins)
    | send sent => exact map_run_cons rfl rfl (ih later begins)

end Slots

def outcomes (apis : List ApiEntry) (fd : Nat) (slot : Slot parser) (stream : List NetEvent) :
    Except Fault (List HttpOutcome) :=
  (Machine.run (slotStep apis fd) slot (.accept :: stream)).map Prod.snd

theorem reached_reset {events : List (Nat × NetEvent)} {pool : Pool parser}
    {answers : List HttpOutcome} (reached : Machine.run (poolStep apis) (poolsInit parser) events = .ok (pool, answers))
    (fd : Nat) : SlotReset (pool fd) := by
  refine run_keeps (fun slot event next outcome reset stepEq => slotStep_reset reset stepEq) ?_
    (run_family reached fd)
  by_cases large : fd < maxConnect <;> simp [SlotReset, poolsInit, getPoolAddr, large]

/-- A connection closed with no request begun leaves nothing behind. -/
theorem request_isolation {idle : parser.State → Prop} (lawful : parser.Lawful idle) (apis : List ApiEntry)
    {before : List (Nat × NetEvent)} {pool : Pool parser} {answers : List HttpOutcome}
    (reached : Machine.run (poolStep apis) (poolsInit parser) before = .ok (pool, answers)) (fd : Nat)
    (closed : (pool fd).watch = .none) (finished : (getPoolAddr (pool fd)).hs.dosize = 0)
    {stream : List NetEvent} (single : ∀ event ∈ stream, event ≠ .accept)
    (begins : (getPoolAddr (pool fd)).hs.isOver = false ∨
      ∀ chunk ∈ firstChunk stream, ¬ QuietChunk parser parser.start chunk.bytes) :
    outcomes apis fd (pool fd) stream = outcomes apis fd (poolsInit parser fd) stream ∧
      ∀ after final more, Machine.inputsOf fd after = .accept :: stream →
        Machine.run (poolStep apis) pool after = .ok (final, more) →
        outcomes apis fd (poolsInit parser fd) stream = .ok (Machine.answersOf fd after more) := by
  have same : outcomes apis fd (pool fd) stream = outcomes apis fd (poolsInit parser fd) stream := by
    have reset := reached_reset reached fd
    have made : (poolsInit parser fd).watch = .none ∧ getPoolAddr (poolsInit parser fd) = {} := by
      by_cases small : fd < maxConnect <;> simp [poolsInit, getPoolAddr, small]
    by_cases refused : fd ≥ maxLimitFd
    · have closedStep : ∀ slot : Slot parser, slot.watch = .none →
          slotStep apis fd slot .accept = .ok (slot, .closed) := fun slot watch => by simp [slotStep, watch, refused]
      refine map_run_cons (closedStep _ closed) (closedStep _ made.1) ?_
      exact run_alike lawful apis fd (closed_alike reset (@reached_reset parser apis [] _ _ rfl fd)
        closed made.1) single
    · have openStep : ∀ slot : Slot parser, slot.watch = .none →
          slotStep apis fd slot .accept = .ok ({ addr := some (getPoolAddr slot), watch := .recv }, .none) :=
        fun slot watch => by simp [slotStep, watch, refused]
      refine map_run_cons (openStep _ closed) (openStep _ made.1) ?_
      simp only [SlotReset, closed] at reset
      have leftRested : Rested (getPoolAddr (pool fd)) := ⟨reset.1, reset.2.1, reset.2.2.1, reset.2.2.2, finished⟩
      have rightRested : Rested (getPoolAddr (poolsInit parser fd)) := by
        rw [made.2]
        exact ⟨rfl, rfl, rfl, rfl, rfl⟩
      rcases begins with unused | begins
      · exact run_alike lawful apis fd (leftRested.slotAlike lawful rightRested unused (by rw [made.2])) single
      · exact rested_run lawful apis fd leftRested rightRested single begins
  refine ⟨same, fun after final more inputs runEq => ?_⟩
  have own := run_family runEq fd
  rw [inputs] at own
  rw [← same, outcomes, own]
  rfl

def getRequest (path : List UInt8) : List UInt8 := ascii "GET " ++ path ++ ascii " HTTP/1.0\r\n\r\n"

/-- `http_parser` on the request, its first three bytes, and a leading blank. -/
def getParser (path : List UInt8) : HttpParser where
  State := Nat
  start := 0
  execute state data :=
    if state = 0 ∧ data = getRequest path then
      (0, data.length,
        [.messageBegin, .url 4 path.length, .headersComplete 1 1 0 false, .messageComplete])
    else if state = 0 ∧ data = ascii "GET" then (99, 3, [.messageBegin])
    else (14, 0, [])
  upgrade _ := false
  errno state := if state = 14 then 14 else 0

theorem getParser_lawful (path : List UInt8) :
    (getParser path).Lawful fun state => state = (0 : Nat) ∨ state = (14 : Nat) where
  start := Or.inl rfl
  quiet := by
    intro state data _
    simp only [getParser]
    split
    · exact Or.inr ⟨_, rfl⟩
    · split
      · exact Or.inr ⟨_, rfl⟩
      · exact Or.inl ⟨rfl, Or.inr rfl, trivial⟩
  stops := by
    intro state data
    simp only [getParser]
    split
    · exact fun short => absurd rfl short
    · split
      · rename_i method
        exact fun short => absurd (by rw [method.2]; rfl) short
      · exact fun _ => Or.inr (by decide)

def abcPath : List UInt8 := ascii "/abc"

def abcEntry : ApiEntry := { type := bit8TaskTypeAlone, name := abcPath, text := by decide }

def abcChunk : Chunk := { bytes := getRequest abcPath, nonempty := by decide, bounded := by decide }

def getChunk : Chunk := { bytes := ascii "GET", nonempty := by decide, bounded := by decide }

theorem request_isolation_abc : ∃ pool answers, Machine.run (poolStep [abcEntry]) (poolsInit (getParser abcPath))
        [(5, .accept), (5, .recv abcChunk true), (5, .taskDone [] false), (5, .send none)] = .ok (pool, answers) ∧
      outcomes [abcEntry] 5 (pool 5) [.recv abcChunk true] =
        outcomes [abcEntry] 5 (poolsInit (getParser abcPath) 5) [.recv abcChunk true] := by
  have reached : Machine.run (poolStep [abcEntry]) (poolsInit (getParser abcPath))
      [(5, .accept), (5, .recv abcChunk true), (5, .taskDone [] false), (5, .send none)] = .ok (_, _) := rfl
  have begins : ∀ chunk ∈ firstChunk [.recv abcChunk true],
      ¬ QuietChunk (getParser abcPath) (getParser abcPath).start chunk.bytes := by
    rintro chunk ⟨⟩ ⟨silent, -⟩
    exact absurd silent (by decide)
  exact ⟨_, _, reached, (request_isolation (getParser_lawful abcPath) [abcEntry] reached 5 rfl rfl (by simp)
    (Or.inr begins)).1⟩

theorem request_leaks : ∃ pool answers, Machine.run (poolStep [abcEntry]) (poolsInit (getParser abcPath))
        [(5, .accept), (5, .recv getChunk true), (5, .recvEnd)] = .ok (pool, answers) ∧ (pool 5).watch = .none ∧
      outcomes [abcEntry] 5 (pool 5) [.recv abcChunk true] = .ok [.none, .answer 503] ∧
      outcomes [abcEntry] 5 (poolsInit (getParser abcPath) 5) [.recv abcChunk true] =
        .ok [.none, .call abcEntry 4 4 0 0] :=
  ⟨_, _, rfl, rfl, rfl, rfl⟩

end Libucmq.Http
