import Libucmq.Net.Async
import Libucmq.Redis.Reply

/-! The asynchronous client and a redis server, with sends and receives in any pieces. -/

namespace Libucmq.Net

open List Machine

variable {κ : Type}

/-- What `first_reply_ok` sees: a buffer filled to its last byte has no terminator. -/
def replyText (behind : NetCache → List UInt8) (cache : NetCache) : List UInt8 :=
  (if cache.data.length < cache.maxSize then cache.data else cache.data ++ behind cache).drop cache.outSize

/-- `proto_to_reply` always returns a reply; `behind` is the memory after a full buffer. -/
def redisParsers (behind : NetCache → List UInt8) : Parsers Unit where
  firstReplyOk cache := Redis.firstReplyOk (replyText behind cache) matches .ok (some _)
  protoToReply _ := true
  httpClientHandle info _ := (false, false, info)
  resetStep := id

/-- The bytes that a call passes to `proto_to_reply`. -/
def passed (behind : NetCache → List UInt8) : Option (AsyncCtx Unit κ) → AsyncOp κ → List UInt8
  | some { work := node :: _, .. }, .recv (.data bytes granted) =>
    let cache := (netRecv granted node.cache bytes).2
    match Redis.firstReplyOk (replyText behind cache) with
    | .ok (some replyLen) => (replyText behind cache).take replyLen
    | _ => []
  | _, _ => []

def redisStep (behind : NetCache → List UInt8) (state : Option (AsyncCtx Unit κ)) (op : AsyncOp κ) :
    Except AsyncFault (Option (AsyncCtx Unit κ) × AsyncAnswer κ × List UInt8) :=
  (asyncStep (redisParsers behind) state op).map fun result => (result.1, result.2, passed behind state op)

structure Pieces (text : List UInt8) where
  parts : List (List UInt8)
  joined : parts.flatten = text
  nonempty : [] ∉ parts

/-- A command with its reply, and the pieces in which the system moves them; no receive fills the buffer. -/
structure Exchange (κ : Type) where
  fcb : κ
  data : List UInt8
  nonempty : data ≠ []
  sent : Pieces data
  reply : List UInt8
  framed : Redis.Framed reply
  fits : reply.length ≤ maxReqSize
  got : Pieces reply
  unfilled : ∀ count < got.parts.length, (got.parts.take (count + 1)).flatten.length % maxDefLen ≠ 0

namespace Exchange

def events (exchange : Exchange κ) : List (AsyncOp κ) :=
  exchange.sent.parts.map (fun part => .send (some part.length)) ++
    exchange.got.parts.map fun part => .recv (.data part true)

def command (exchange : Exchange κ) : Option κ × List UInt8 × Bool := (some exchange.fcb, exchange.data, true)

def node (exchange : Exchange κ) : CommandNode κ :=
  { fcb := some exchange.fcb, cache := (cacheAdd true {} exchange.data).2 }

def outcome (exchange : Exchange κ) : (κ × Bool) × List UInt8 := ((exchange.fcb, true), exchange.reply)

end Exchange

def delivered (answers : List (AsyncAnswer κ × List UInt8)) : List ((κ × Bool) × List UInt8) :=
  answers.flatMap fun answer => answer.1.calls.map (·, answer.2)

def atWork (reading : Bool) (work : List (CommandNode κ)) : AsyncCtx Unit κ :=
  { head := true, work, info := (), protoHandler := .redis, reading, writing := !reading }

def turned : List (CommandNode κ) → AsyncCtx Unit κ
  | [] => { info := (), protoHandler := .redis }
  | rest => atWork false rest

theorem delivered_append (first later : List (AsyncAnswer κ × List UInt8)) :
    delivered (first ++ later) = delivered first ++ delivered later := flatMap_append

variable {behind : NetCache → List UInt8} {fcb : κ} {cache : NetCache} {rest : List (CommandNode κ)} {parts : List (List UInt8)}

theorem flatten_ne_nil (nonempty : [] ∉ parts) (pieces : parts ≠ []) : parts.flatten ≠ [] := by
  intro empty
  obtain ⟨part, inside⟩ := exists_mem_of_ne_nil parts pieces
  exact nonempty (flatten_eq_nil_iff.mp empty part inside ▸ inside)

theorem redisStep_send {count more : Nat} (positive : 0 < count)
    (left : cache.data.length = cache.outSize + (count + more)) :
    redisStep behind (some (atWork false ({ fcb := some fcb, cache } :: rest))) (.send (some count)) =
      .ok (some (if more = 0 then atWork true ({ fcb := some fcb } :: rest)
        else atWork false ({ fcb := some fcb, cache := { cache with outSize := cache.outSize + count } } :: rest)),
        {}, []) := by
  have unsent : cache.getSize ≠ cache.outSize := by
    rw [NetCache.getSize]
    omega
  have sendEq : netSend cache .doneOk (some count) =
      (some more, .doneOk, { cache with outSize := cache.outSize + count }) := by
    rw [netSend, if_pos unsent]
    simp only [NetCache.getSize, left]
    rw [Nat.add_sub_add_left, Nat.add_sub_cancel_left]
  simp only [redisStep, asyncStep, atWork, Bool.not_false, ↓reduceIte, asyncHandleSend, sendEq]
  cases more with
  | zero => rfl
  | succ more => rfl

theorem send_run (nonempty : [] ∉ parts) (pieces : parts ≠ [])
    (left : cache.data.length = cache.outSize + parts.flatten.length) :
    ∃ answers, run (redisStep behind) (some (atWork false ({ fcb := some fcb, cache } :: rest)))
        (parts.map fun part => .send (some part.length)) =
      .ok (some (atWork true ({ fcb := some fcb } :: rest)), answers) ∧ delivered answers = [] := by
  induction parts generalizing cache with
  | nil => exact absurd rfl pieces
  | cons part parts ih =>
    obtain ⟨present, later⟩ := not_or.mp (mem_cons.not.mp nonempty)
    rw [flatten_cons, length_append] at left
    have first := @redisStep_send _ behind fcb cache rest _ _ (length_pos_iff.mpr (Ne.symm present)) left
    by_cases last : parts = []
    · subst last
      exact ⟨_, run_cons first (run_nil ..), rfl⟩
    · have more : parts.flatten.length ≠ 0 := by
        rw [ne_eq, length_eq_zero_iff]
        exact flatten_ne_nil later last
      rw [if_neg more] at first
      obtain ⟨answers, runEq, silent⟩ := @ih { cache with outSize := cache.outSize + part.length } later last
        (by rw [left, Nat.add_assoc])
      exact ⟨_, run_cons first runEq, silent⟩

theorem netRecv_unfilled {part : List UInt8} (fits : cache.data.length + part.length ≤ maxReqSize)
    (round : maxDefLen ∣ cache.maxSize) (unfilled : (cache.data ++ part).length % maxDefLen ≠ 0) :
    ∃ maxSize, netRecv true cache part = (.doneOk, { cache with maxSize, data := cache.data ++ part }) ∧
      maxDefLen ∣ maxSize ∧ (cache.data ++ part).length < maxSize := by
  rw [netRecv, if_neg (by rw [NetCache.getSize]; omega), cacheAdd, NetCache.getSize, ← length_append]
  split
  · refine ⟨_, rfl, Nat.dvd_mul_left _ _, ?_⟩
    dsimp only
    rw [getNeedCount, maxDefLen] at *
    split_ifs <;> omega
  · refine ⟨cache.maxSize, rfl, round, ?_⟩
    rw [maxDefLen] at *
    omega

section

variable {reply : List UInt8} (framed : Redis.Framed reply) (fits : reply.length ≤ maxReqSize)
  (fresh : cache.outSize = 0) (round : maxDefLen ∣ cache.maxSize)

include framed fits fresh round

theorem redisStep_recv {part : List UInt8} (front : cache.data ++ part <+: reply)
    (unfilled : (cache.data ++ part).length % maxDefLen ≠ 0) :
    ∃ maxSize, maxDefLen ∣ maxSize ∧
      redisStep behind (some (atWork true ({ fcb := some fcb, cache } :: rest))) (.recv (.data part true)) =
      .ok (if cache.data ++ part = reply then
        (some (turned rest), { calls := [(fcb, true)], finished := rest.isEmpty }, reply)
        else (some (atWork true ({ fcb := some fcb, cache := { cache with maxSize, data := cache.data ++ part } } ::
          rest)), {}, [])) := by
  have bound := front.length_le
  obtain ⟨maxSize, recvEq, round, room⟩ :=
    @netRecv_unfilled cache part (by rw [← length_append]; omega) round unfilled
  refine ⟨maxSize, round, ?_⟩
  simp only [redisStep, asyncStep, atWork, ↓reduceIte, asyncProtoRedis, recvEq, passed, redisParsers, replyText,
    if_pos room, fresh, drop_zero]
  by_cases whole : cache.data ++ part = reply
  · have accepted := framed.1 []
    rw [append_nil] at accepted
    rw [whole, accepted]
    cases rest with
    | nil => simp [answered, Except.map, turned]
    | cons node rest => simp [answered, Except.map, turned, atWork]
  · have waits := framed.2 _ (lt_of_le_of_ne front.length_le fun same => whole (front.eq_of_length same))
    rw [← prefix_iff_eq_take.mp front] at waits
    rw [waits, if_neg whole]
    simp [Except.map]

theorem recv_run (nonempty : [] ∉ parts) (pieces : parts ≠ []) (joined : cache.data ++ parts.flatten = reply)
    (unfilled : ∀ count < parts.length,
      (cache.data ++ (parts.take (count + 1)).flatten).length % maxDefLen ≠ 0) :
    ∃ answers, run (redisStep behind) (some (atWork true ({ fcb := some fcb, cache } :: rest)))
        (parts.map fun part => .recv (.data part true)) = .ok (some (turned rest), answers) ∧
      delivered answers = [((fcb, true), reply)] := by
  induction parts generalizing cache with
  | nil => exact absurd rfl pieces
  | cons part parts ih =>
      have later := (not_or.mp (mem_cons.not.mp nonempty)).2
      rw [flatten_cons, ← append_assoc] at joined
      have unfilledFirst := unfilled 0 (by simp)
      rw [take_succ_cons, take_zero, flatten_singleton] at unfilledFirst
      obtain ⟨maxSize, roundNext, first⟩ :=
        @redisStep_recv _ behind fcb cache rest _ framed fits fresh round part ⟨_, joined⟩ unfilledFirst
      by_cases last : parts = []
      · subst last
        rw [if_pos (by simpa using joined)] at first
        exact ⟨_, run_cons first (run_nil ..), rfl⟩
      · rw [if_neg fun whole => flatten_ne_nil later last (append_right_eq_self.mp (joined.trans whole.symm))] at first
        obtain ⟨answers, runEq, called⟩ := @ih { cache with maxSize, data := cache.data ++ part } fresh roundNext later
          last joined fun count inside => by
            rw [append_assoc, ← flatten_cons, ← take_succ_cons]
            exact unfilled (count + 1) (by simpa using inside)
        exact ⟨_, run_cons first runEq, called⟩

end

theorem Exchange.run_events (exchange : Exchange κ) : ∃ answers,
    run (redisStep behind) (some (atWork false (exchange.node :: rest))) exchange.events =
        .ok (some (turned rest), answers) ∧
      delivered answers = [exchange.outcome] := by
  have cached : (cacheAdd true {} exchange.data).2.data = exchange.data ∧
      (cacheAdd true {} exchange.data).2.outSize = 0 := by
    rw [cacheAdd]
    split <;> exact ⟨rfl, rfl⟩
  have replied : exchange.reply ≠ [] := by
    intro empty
    have whole := exchange.framed.1 []
    rw [empty] at whole
    cases whole
  obtain ⟨sends, sendEq, silent⟩ := @send_run _ behind exchange.fcb (cacheAdd true {} exchange.data).2 rest _
    exchange.sent.nonempty (fun empty => exchange.nonempty (by rw [← exchange.sent.joined, empty]; rfl))
    (by rw [cached.1, cached.2, exchange.sent.joined, Nat.zero_add])
  obtain ⟨recvs, recvEq, called⟩ := @recv_run _ behind exchange.fcb {} rest _ _ exchange.framed exchange.fits rfl
    (Nat.dvd_refl _) exchange.got.nonempty (fun empty => replied (by rw [← exchange.got.joined, empty]; rfl))
    exchange.got.joined exchange.unfilled
  refine ⟨sends ++ recvs, run_append sendEq recvEq, ?_⟩
  rw [delivered_append, silent, called, nil_append, outcome]

variable {exchanges : List (Exchange κ)}

theorem run_exchanges (nonempty : exchanges ≠ []) : ∃ answers,
    run (redisStep behind) (some (atWork false (exchanges.map Exchange.node))) (exchanges.flatMap Exchange.events) =
        .ok (some (turned []), answers) ∧ delivered answers = exchanges.map Exchange.outcome := by
  induction exchanges with
  | nil => exact absurd rfl nonempty
  | cons exchange more ih =>
    obtain ⟨answers, first, called⟩ := @exchange.run_events _ behind (more.map Exchange.node)
    cases more with
    | nil => exact ⟨answers, by simpa using first, called⟩
    | cons other more =>
      obtain ⟨later, runEq, calledLater⟩ := ih nofun
      refine ⟨answers ++ later, run_append first runEq, ?_⟩
      rw [delivered_append, called, calledLater]
      rfl

theorem commands_foldl {ctx : AsyncCtx Unit κ} (head : ctx.head = true) (work : ctx.work ≠ []) :
    (exchanges.map Exchange.command).foldl
      (fun ctx command => asyncCommand ctx command.1 command.2.1 command.2.2) ctx =
        { ctx with work := ctx.work ++ exchanges.map Exchange.node } := by
  induction exchanges generalizing ctx with
  | nil => simp
  | cons exchange more ih =>
    rw [map_cons, foldl_cons, ih]
    · simp [asyncCommand, head, work, Exchange.node, Exchange.command]
    · simp [asyncCommand, head]
    · simp [asyncCommand, head, work]

def ping : Exchange Nat where
  fcb := 1
  data := [80, 81]
  nonempty := nofun
  sent := ⟨[[80], [81]], rfl, by decide⟩
  reply := 43 :: ([79, 75] ++ [13, 10])
  framed := (Redis.line_framed_iff (.inl rfl) (by decide)).mpr (by decide)
  fits := by decide
  got := ⟨[[43, 79], [75, 13], [10]], rfl, by decide⟩
  unfilled := by decide

def pings : List (Exchange Nat) := [ping, ping]

end Libucmq.Net
