import Libucmq.Http.Server

/-! The body of a request against its bytes, fed to the parser once and in order. -/

namespace Libucmq.Http

open Net List Machine CString

variable {parser : HttpParser}

def bytesAt (data : List UInt8) (place length : Nat) : List UInt8 :=
  (List.range length).map fun offset => data.getD (place + offset) 0

def appLuaGetBodyData (node : DataNode parser) : Option (List UInt8) :=
  if node.hs.bodySize = 0 then none else some (bytesAt node.recv.data node.hs.bodyOffset node.hs.bodySize)

inductive ReadStop
  | refused (control : Control)
  | fault (fault : Fault)

def readStep (node : DataNode parser) (input : Chunk × Bool) : Except ReadStop (DataNode parser × Bool) :=
  match netRecv input.2 node.recv input.1.bytes with
  | (.doneOk, recv) =>
    match httpHandle { node with recv } with
    | .error fault => .error (.fault fault)
    | .ok (done, next) => .ok (next, done)
  | (control, _) => .error (.refused control)

/-- A parser fed with the bytes of the receives, each once, and the slices of the body it has reported. -/
structure Decoding (parser : HttpParser) where
  state : parser.State := parser.start
  bytes : List UInt8 := []
  slices : List (Nat × Nat) := []

def noteSlice (base : Nat) (slices : List (Nat × Nat)) : ParserEvent → List (Nat × Nat)
  | .messageBegin => []
  | .body place length => slices ++ [(base + place, length)]
  | _ => slices

namespace Decoding

def events (decoding : Decoding parser) (chunk : Chunk) : List ParserEvent :=
  (parser.execute decoding.state chunk.bytes).2.2

def feed (decoding : Decoding parser) (chunk : Chunk) : Decoding parser where
  state := (parser.execute decoding.state chunk.bytes).1
  bytes := decoding.bytes ++ chunk.bytes
  slices := (decoding.events chunk).foldl (noteSlice decoding.bytes.length) decoding.slices

/-- The decoded body: the slices, one behind the other. -/
def body (decoding : Decoding parser) : List UInt8 :=
  decoding.slices.flatMap fun slice => bytesAt decoding.bytes slice.1 slice.2

/-- The message ends in the last chunk, if at all, and all before is consumed. -/
def OneMessage (decoding : Decoding parser) : List Chunk → Prop
  | [] => True
  | chunk :: rest =>
    .messageBegin ∉ decoding.events chunk ∧
      (rest ≠ [] → .messageComplete ∉ decoding.events chunk ∧
        (parser.execute decoding.state chunk.bytes).2.1 = chunk.bytes.length) ∧
      (decoding.feed chunk).OneMessage rest

end Decoding

/-- A request that begins in its first receive, with no body at the very front, in at most 65536 receives. -/
structure Prompt (parser : HttpParser) (first : Chunk) (rest : List Chunk) : Prop where
  begins : ∃ events, (parser.execute parser.start first.bytes).2.2 = .messageBegin :: events ∧
    .messageBegin ∉ events ∧
    (∀ place length, .body place length ∈ events → 0 < place) ∧
    (rest ≠ [] → .messageComplete ∉ events ∧ (parser.execute parser.start first.bytes).2.1 = first.bytes.length)
  continues : (Decoding.feed ({} : Decoding parser) first).OneMessage rest
  few : rest.length < 65536

structure Noted (stat : HttpStatus) (slices : List (Nat × Nat)) : Prop where
  offset : stat.bodyOffset = (slices.head?.map Prod.fst).getD 0
  size : stat.bodySize = (slices.map Prod.snd).sum
  ahead : ∀ slice ∈ slices, 0 < slice.1

variable {stat : HttpStatus} {slices : List (Nat × Nat)} {base : Nat} {buffer : List UInt8}

theorem Noted.body (noted : Noted stat slices) {place length : Nat} (ahead : 0 < base + place) :
    Noted (callback base buffer stat (.body place length)) (slices ++ [(base + place, length)]) := by
  refine ⟨?_, ?_, ?_⟩
  · cases slices with
    | nil => simp [callback, noted.offset]
    | cons first rest =>
        have positive : stat.bodyOffset ≠ 0 := by
          rw [noted.offset]
          exact Nat.ne_of_gt (noted.ahead first mem_cons_self)
        simpa [callback, positive] using noted.offset
  · rw [callback, map_append, sum_append, ← noted.size]
    split <;> rfl
  · simpa [or_imp, forall_and, ahead] using noted.ahead

/-- A callback other than the first notes its slice and leaves the counters of `http_handle` alone. -/
theorem callback_noted {event : ParserEvent} (noted : Noted stat slices) (goesOn : event ≠ .messageBegin)
    (ahead : ∀ place length, event = .body place length → 0 < base + place) :
    Noted (callback base buffer stat event) (noteSlice base slices event) ∧
      (callback base buffer stat event).dosize = stat.dosize ∧
      (callback base buffer stat event).step = stat.step ∧
      (event ≠ .messageComplete → (callback base buffer stat event).isOver = stat.isOver) := by
  have same {other : HttpStatus} (offset : other.bodyOffset = stat.bodyOffset)
      (size : other.bodySize = stat.bodySize) : Noted other slices :=
    ⟨offset.trans noted.offset, size.trans noted.size, noted.ahead⟩
  cases event with
  | messageBegin => exact absurd rfl goesOn
  | body place length =>
      refine ⟨noted.body (ahead place length rfl), ?_⟩
      rw [callback]
      split <;> simp
  | url | headerField =>
      rw [callback]
      split <;> exact ⟨same rfl rfl, rfl, rfl, fun _ => rfl⟩
  | headersComplete =>
      rw [callback, headersCompleteCb]
      split <;> exact ⟨same rfl rfl, rfl, rfl, fun _ => rfl⟩
  | headerValue => exact ⟨same rfl rfl, rfl, rfl, fun _ => rfl⟩
  | messageComplete => exact ⟨same rfl rfl, rfl, rfl, fun other => absurd rfl other⟩

theorem callbacks_noted {events : List ParserEvent} (noted : Noted stat slices) (goesOn : .messageBegin ∉ events)
    (ahead : ∀ place length, .body place length ∈ events → 0 < base + place) :
    Noted (callbacks base buffer stat events) (events.foldl (noteSlice base) slices) ∧
      (callbacks base buffer stat events).dosize = stat.dosize ∧
      (callbacks base buffer stat events).step = stat.step ∧
      (.messageComplete ∉ events → (callbacks base buffer stat events).isOver = stat.isOver) := by
  induction events generalizing stat slices with
  | nil => exact ⟨noted, rfl, rfl, fun _ => rfl⟩
  | cons event events ih =>
      rw [mem_cons, not_or] at goesOn
      obtain ⟨first, dosize, step, isOver⟩ := @callback_noted stat slices base buffer event noted (Ne.symm goesOn.1)
        fun place length same => ahead place length (same ▸ mem_cons_self)
      obtain ⟨later, dosizes, steps, overs⟩ :=
        ih first goesOn.2 fun place length mem => ahead place length (mem_cons_of_mem _ mem)
      refine ⟨later, dosizes.trans dosize, steps.trans step, fun isOpen => ?_⟩
      rw [mem_cons, not_or] at isOpen
      exact (overs isOpen.2).trans (isOver (Ne.symm isOpen.1))

/-- The node has seen the same bytes and slices as a parser that is fed once. -/
structure Reads (decoding : Decoding parser) (node : DataNode parser) : Prop where
  data : node.recv.data = decoding.bytes
  noted : Noted node.hs decoding.slices

/-- And the next receive is fed from where the last one ended. -/
structure InStep (count : Nat) (decoding : Decoding parser) (node : DataNode parser) : Prop
    extends Reads decoding node where
  hp : node.hp = decoding.state
  dosize : node.hs.dosize = decoding.bytes.length
  step : node.hs.step = count
  isOver : node.hs.isOver = false
  begun : 0 < decoding.bytes.length

/-- What `http_handle` does with a receive that is parsed from its first byte on. -/
theorem readStep_handled {node next : DataNode parser} {input : Chunk × Bool} {done : Bool} {state : parser.State}
    (returned : readStep node input = .ok (next, done)) (dosize : node.hs.dosize = node.recv.data.length)
    (used : node.parserUsed = state) :
    next.recv.data = node.recv.data ++ input.1.bytes ∧
      next.recv.data.length ≤ maxReqSize ∧
      ∃ recv : NetCache, ∃ result, parser.execute state input.1.bytes = result ∧
        next = (handled { node with recv } input.1.bytes.length result).2 := by
  rw [readStep] at returned
  split at returned
  · rename_i recv received
    obtain ⟨data, bound⟩ := netRecv_doneOk received
    split at returned
    · cases returned
    · rename_i handledEq
      cases returned
      rw [httpHandle] at handledEq
      split at handledEq
      · cases handledEq
      · simp only [data, dosize, drop_left, Except.ok.injEq] at handledEq
        have usedNow : ({ node with recv } : DataNode parser).parserUsed = state := used
        rw [usedNow] at handledEq
        have nextEq : (handled { node with recv } input.1.bytes.length (parser.execute state input.1.bytes)).2 = next :=
          congrArg Prod.snd handledEq
        have recvEq : next.recv = recv := by
          rw [← nextEq, handled]
          dsimp only
          split
          · rfl
          · split <;> rfl
        exact ⟨recvEq ▸ data, recvEq ▸ bound, recv, _, rfl, nextEq.symm⟩
  · cases returned

theorem handled_hs {node : DataNode parser} {todo : Nat} {result : parser.State × Nat × List ParserEvent} :
    (handled node todo result).2.hs.bodyOffset =
        (callbacks node.hs.dosize node.recv.data node.hs result.2.2).bodyOffset ∧
      (handled node todo result).2.hs.bodySize =
        (callbacks node.hs.dosize node.recv.data node.hs result.2.2).bodySize := by
  rw [handled]
  dsimp only
  split
  · exact ⟨rfl, rfl⟩
  · split <;> exact ⟨rfl, rfl⟩

theorem handled_goes {node : DataNode parser} {todo : Nat} {result : parser.State × Nat × List ParserEvent}
    (whole : result.2.1 = todo) :
    (handled node todo result).2.hp = result.1 ∧
      (handled node todo result).2.hs =
        let stat := callbacks node.hs.dosize node.recv.data node.hs result.2.2
        { stat with
          step := (stat.step + 1) % 65536
          dosize := if stat.isOver then 0 else (stat.dosize + todo) % 4294967296 } := by
  subst whole
  rw [handled]
  dsimp only
  rw [if_pos rfl]
  split
  · exact ⟨rfl, rfl⟩
  · exact ⟨rfl, rfl⟩

section

variable {decoding : Decoding parser} {node next : DataNode parser} {input : Chunk × Bool} {done : Bool}
  {events : List ParserEvent}

/-- `stat` and `slices` are what `on_message_begin`, if it is called, leaves for the callbacks behind it. -/
theorem readStep_reads (data : node.recv.data = decoding.bytes) (dosize : node.hs.dosize = decoding.bytes.length)
    (used : node.parserUsed = decoding.state)
    (called : ∀ buffer, callbacks decoding.bytes.length buffer node.hs (decoding.events input.1) =
      callbacks decoding.bytes.length buffer stat events)
    (folded : (decoding.events input.1).foldl (noteSlice decoding.bytes.length) decoding.slices =
      events.foldl (noteSlice decoding.bytes.length) slices)
    (noted : Noted stat slices) (goesOn : .messageBegin ∉ events)
    (ahead : ∀ place length, .body place length ∈ events → 0 < decoding.bytes.length + place)
    (start : stat.dosize = decoding.bytes.length) (running : stat.isOver = false)
    (returned : readStep node input = .ok (next, done)) :
    Reads (decoding.feed input.1) next ∧
      (.messageComplete ∉ events → (parser.execute decoding.state input.1.bytes).2.1 = input.1.bytes.length →
        stat.step + 1 < 65536 → InStep (stat.step + 1) (decoding.feed input.1) next) := by
  obtain ⟨nextData, bound, recv, result, executed, nextEq⟩ := readStep_handled returned (data ▸ dosize) used
  obtain ⟨later, dosizes, steps, overs⟩ := @callbacks_noted stat slices decoding.bytes.length recv.data events noted
    goesOn ahead
  have calledNow : callbacks node.hs.dosize recv.data node.hs result.2.2 =
      callbacks decoding.bytes.length recv.data stat events := by
    rw [dosize, ← called, Decoding.events, executed]
  obtain ⟨offset, size⟩ := @handled_hs _ { node with recv } input.1.bytes.length result
  rw [← nextEq] at offset size
  dsimp only at offset size
  rw [calledNow] at offset size
  have reads : Reads (decoding.feed input.1) next := by
    refine ⟨by rw [nextData, data]; rfl, ?_⟩
    rw [Decoding.feed, folded]
    exact ⟨offset.trans later.offset, size.trans later.size, later.ahead⟩
  refine ⟨reads, fun incomplete consumed few => ?_⟩
  have stays := overs incomplete
  rw [executed] at consumed
  obtain ⟨hp, hs⟩ := @handled_goes _ { node with recv } _ result consumed
  rw [← nextEq] at hp hs
  dsimp only at hs
  rw [calledNow] at hs
  rw [nextData, data, length_append, maxReqSize] at bound
  refine { toReads := reads, hp := ?_, dosize := ?_, step := ?_, isOver := ?_, begun := ?_ }
  · rw [hp, ← executed]
    rfl
  · rw [hs, stays, running, dosizes, start, Decoding.feed, length_append]
    exact Nat.mod_eq_of_lt (by omega)
  · rw [hs, steps]
    exact Nat.mod_eq_of_lt few
  · rw [hs]
    exact stays.trans running
  · rw [Decoding.feed, length_append]
    exact Nat.add_pos_right _ (length_pos_iff.mpr input.1.nonempty)

theorem InStep.receives {count : Nat} (inStep : InStep count decoding node) (counted : count ≠ 0)
    (goesOn : .messageBegin ∉ decoding.events input.1) (returned : readStep node input = .ok (next, done)) :
    Reads (decoding.feed input.1) next ∧
      (.messageComplete ∉ decoding.events input.1 →
        (parser.execute decoding.state input.1.bytes).2.1 = input.1.bytes.length → count + 1 < 65536 →
        InStep (count + 1) (decoding.feed input.1) next) := by
  have begun := inStep.begun
  have used : node.parserUsed = decoding.state := by
    rw [DataNode.parserUsed, inStep.dosize, inStep.step, if_neg (by omega)]
    exact inStep.hp
  have read := readStep_reads inStep.data inStep.dosize used (fun _ => rfl) rfl inStep.noted goesOn
    (fun _ _ _ => by omega) inStep.dosize inStep.isOver returned
  rwa [inStep.step] at read

end

theorem InStep.run {count : Nat} {decoding : Decoding parser} {node final : DataNode parser}
    {inputs : List (Chunk × Bool)} {answers : List Bool} (inStep : InStep count decoding node) (counted : count ≠ 0)
    (few : count + inputs.length ≤ 65536) (one : decoding.OneMessage (inputs.map Prod.fst))
    (returned : run readStep node inputs = .ok (final, answers)) :
    Reads ((inputs.map Prod.fst).foldl Decoding.feed decoding) final := by
  induction inputs generalizing count decoding node answers with
  | nil =>
      cases returned
      exact inStep.toReads
  | cons input rest ih =>
      obtain ⟨next, done, later, stepEq, runEq, -⟩ := run_cons_ok returned
      obtain ⟨goesOn, going, more⟩ := one
      obtain ⟨reads, stays⟩ := inStep.receives counted goesOn stepEq
      rw [length_cons] at few
      cases rest with
      | nil =>
          cases runEq
          exact reads
      | cons second rest =>
          obtain ⟨incomplete, consumed⟩ := going (by simp)
          rw [length_cons] at few
          exact ih (stays incomplete consumed (by omega)) (by omega) (by rw [length_cons]; omega) more runEq

/-- The bytes of every slice also follow those of the slices before it. -/
def Joined (bytes : List UInt8) : Nat → List (Nat × Nat) → Prop
  | _, [] => True
  | place, slice :: rest =>
    bytesAt bytes place slice.2 = bytesAt bytes slice.1 slice.2 ∧ Joined bytes (place + slice.2) rest

def Adjacent : Nat → List (Nat × Nat) → Prop
  | _, [] => True
  | place, slice :: rest => slice.1 = place ∧ Adjacent (place + slice.2) rest

theorem joined_of_adjacent {bytes : List UInt8} {place : Nat} (adjacent : Adjacent place slices) :
    Joined bytes place slices := by
  induction slices generalizing place with
  | nil => trivial
  | cons slice rest ih => exact ⟨by rw [adjacent.1], ih adjacent.2⟩

theorem bytesAt_add (bytes : List UInt8) (place first second : Nat) :
    bytesAt bytes place (first + second) = bytesAt bytes place first ++ bytesAt bytes (place + first) second := by
  simp [bytesAt, range_add, Nat.add_assoc, Function.comp_def]

theorem bytesAt_length (bytes : List UInt8) (place length : Nat) : (bytesAt bytes place length).length = length := by
  simp [bytesAt]

theorem bytesAt_eq_iff (bytes : List UInt8) (place : Nat) (slices : List (Nat × Nat)) :
    bytesAt bytes place (slices.map Prod.snd).sum = (slices.flatMap fun slice => bytesAt bytes slice.1 slice.2) ↔
      Joined bytes place slices := by
  induction slices generalizing place with
  | nil => exact iff_of_true rfl trivial
  | cons slice rest ih =>
      rw [map_cons, sum_cons, bytesAt_add, flatMap_cons, Joined, ← ih]
      constructor
      · intro same
        exact append_inj same (by rw [bytesAt_length, bytesAt_length])
      · rintro ⟨first, later⟩
        rw [first, later]

def bodyStart (slices : List (Nat × Nat)) : Nat := (slices.head?.map Prod.fst).getD 0

theorem Reads.bodyData_iff {decoding : Decoding parser} {node : DataNode parser} (reads : Reads decoding node)
    (nonempty : decoding.body ≠ []) :
    appLuaGetBodyData node = some decoding.body ↔ Joined decoding.bytes (bodyStart decoding.slices) decoding.slices := by
  have length : decoding.body.length = (decoding.slices.map Prod.snd).sum := by
    rw [Decoding.body, length_flatMap]
    exact congrArg List.sum (map_congr_left fun slice _ => bytesAt_length _ slice.1 slice.2)
  have nonzero : node.hs.bodySize ≠ 0 := by
    rw [reads.noted.size, ← length]
    exact Nat.ne_of_gt (length_pos_iff.mpr nonempty)
  rw [appLuaGetBodyData, if_neg nonzero, Option.some.injEq, reads.noted.offset, reads.noted.size, reads.data]
  exact bytesAt_eq_iff decoding.bytes _ decoding.slices

def plainRequest : List UInt8 := ascii "POST / HTTP/1.1\r\nContent-Length: 2\r\n\r\na"

def chunkedRequest : List UInt8 :=
  ascii "POST / HTTP/1.1\r\nTransfer-Encoding: chunked\r\n\r\n1\r\na\r\n1\r\nb\r\n0\r\n\r\n"

def lateRequest : List UInt8 := ascii "POST / HTTP/1.1\r\nContent-Length: 4\r\n\r\n"

def postHead : List ParserEvent :=
  [.messageBegin, .url 5 1, .headerField, .headerValue, .headersComplete 3 1 1 true]

/-- `http_parser` on these requests; the state counts the bytes of the body still to come. -/
def postParser : HttpParser where
  State := Nat
  start := 0
  execute state data :=
    if 0 < state then (0, data.length, [.body 0 state, .messageComplete])
    else if data = plainRequest then (1, data.length, postHead ++ [.body 38 1])
    else if data = chunkedRequest then (0, data.length, postHead ++ [.body 50 1, .body 56 1, .messageComplete])
    else if data = lateRequest then (4, data.length, postHead)
    else (0, data.length, [])
  upgrade _ := false
  errno _ := 0

def chunkOf (bytes : List UInt8) (nonempty : bytes ≠ []) (bounded : bytes.length ≤ maxDefLen) : Chunk × Bool :=
  (⟨bytes, nonempty, bounded⟩, true)

def plainInputs : List (Chunk × Bool) := [chunkOf plainRequest (by decide) (by decide), chunkOf [98] nofun (by decide)]

end Libucmq.Http
