import Libucmq.Library.Machine
import Libucmq.Net.Cache

/-! The asynchronous client of `async_api.c`. -/

namespace Libucmq.Net

open List

def Control.isError : Control → Bool
  | .dataNoAll | .dataIsAll | .doneOk => false
  | _ => true

structure CommandNode (κ : Type) where
  fcb : Option κ
  cache : NetCache := {}

inductive ProtoType
  | http | redis
deriving DecidableEq, Repr

/-- `head` is set, the nodes from `work` on, and the events watched. -/
structure AsyncCtx (σ κ : Type) where
  head : Bool := false
  work : List (CommandNode κ) := []
  control : Control := .doneOk
  info : σ
  protoHandler : ProtoType := .http
  reading : Bool := false
  writing : Bool := false

/-- What the parsers say of a buffer; the HTTP one has a state and an error. -/
structure Parsers (σ : Type) where
  firstReplyOk : NetCache → Bool
  protoToReply : NetCache → Bool
  httpClientHandle : σ → NetCache → Bool × Bool × σ
  resetStep : σ → σ

inductive Received
  | data (bytes : List UInt8) (granted : Bool)
  | closed
  | again
  | failed

/-- Callbacks queued, callbacks made (with a reply?), and `finishwork`. -/
structure AsyncAnswer (κ : Type) where
  queued : List κ := []
  calls : List (κ × Bool) := []
  finished : Bool := false

inductive AsyncFault
  | noWork
deriving DecidableEq, Repr

variable {σ κ : Type}

/-- How a handler leaves the context, `none` when it has destroyed it. -/
abbrev AsyncResult (σ κ : Type) := Except AsyncFault (Option (AsyncCtx σ κ) × AsyncAnswer κ)

def asyncCommand (ctx : AsyncCtx σ κ) (fcb : Option κ) (data : List UInt8) (granted : Bool) : AsyncCtx σ κ :=
  let node : CommandNode κ := { fcb, cache := (cacheAdd granted {} data).2 }
  if ctx.head then { ctx with work := if ctx.work.isEmpty then [] else ctx.work ++ [node] }
  else { ctx with head := true, work := [node] }

def asyncStartup (ctx : AsyncCtx σ κ) (ptype : ProtoType) : AsyncCtx σ κ :=
  if ctx.work.isEmpty then ctx else { ctx with protoHandler := ptype, writing := true }

def brokenLink (node : CommandNode κ) : AsyncResult σ κ :=
  .ok (none, { calls := (node.fcb.toList).map fun fcb => (fcb, false) })

def answered (ctx : AsyncCtx σ κ) (node : CommandNode κ) (rest : List (CommandNode κ)) : AsyncResult σ κ :=
  let calls := (node.fcb.toList).map fun fcb => (fcb, true)
  if rest.isEmpty then
    .ok (some { ctx with head := false, work := [], reading := false, control := .doneOk },
      { calls, finished := true })
  else
    .ok (some { ctx with work := rest, reading := false, writing := true, control := .doneOk }, { calls })

def asyncProtoRedis (parsers : Parsers σ) (ctx : AsyncCtx σ κ) (got : Received) : AsyncResult σ κ :=
  match ctx.work with
  | [] => .error .noWork
  | node :: rest =>
    match got with
    | .closed => brokenLink node
    | .failed => brokenLink node
    | .again => .ok (some ctx, {})
    | .data bytes granted =>
      let (control, cache) := netRecv granted node.cache bytes
      if control = .mallocFailed ∨ control = .dataTooLarge then brokenLink node
      else
        let node := { node with cache }
        let ctx := { ctx with control, work := node :: rest }
        if !parsers.firstReplyOk cache then .ok (some { ctx with reading := true }, {})
        else if parsers.protoToReply cache then answered ctx node rest
        else .ok (some { ctx with control := .doneOk }, {})

def asyncProtoHttp (parsers : Parsers σ) (ctx : AsyncCtx σ κ) (got : Received) : AsyncResult σ κ :=
  match ctx.work with
  | [] => .error .noWork
  | node :: rest =>
    match got with
    | .closed => brokenLink node
    | .failed => brokenLink node
    | .again => .ok (some ctx, {})
    | .data bytes granted =>
      let (control, cache) := netRecv granted node.cache bytes
      if control = .mallocFailed ∨ control = .dataTooLarge then brokenLink node
      else
        let node := { node with cache }
        let (isOver, ok, info) := parsers.httpClientHandle ctx.info cache
        let ctx := { ctx with control, work := node :: rest, info }
        if !isOver then .ok (some ctx, {})
        else if !ok then brokenLink node
        else answered { ctx with info := parsers.resetStep info } node rest

def asyncHandleSend (ctx : AsyncCtx σ κ) (sent : Option Nat) : AsyncResult σ κ :=
  match ctx.work with
  | [] => .error .noWork
  | node :: rest =>
    let (ret, control, cache) := netSend node.cache ctx.control sent
    let done : AsyncResult σ κ :=
      .ok (some { ctx with work := { node with cache := cacheFree cache } :: rest
                           control := .doneOk, writing := false, reading := true }, {})
    match ret with
    | some 0 => if control.isError then brokenLink node else done
    | some _ => .ok (some { ctx with work := { node with cache } :: rest, control }, {})
    | none => done

inductive AsyncOp (κ : Type)
  | command (fcb : Option κ) (data : List UInt8) (granted : Bool)
  | send (sent : Option Nat)
  | recv (got : Received)

def asyncStep (parsers : Parsers σ) : Option (AsyncCtx σ κ) → AsyncOp κ → AsyncResult σ κ
  | none, _ => .ok (none, {})
  | some ctx, .command fcb data granted =>
    .ok (some (asyncCommand ctx fcb data granted), { queued := fcb.toList })
  | some ctx, .send sent => if ctx.writing then asyncHandleSend ctx sent else .ok (some ctx, {})
  | some ctx, .recv got =>
    if ctx.reading then
      match ctx.protoHandler with
      | .redis => asyncProtoRedis parsers ctx got
      | .http => asyncProtoHttp parsers ctx got
    else .ok (some ctx, {})

def startedWith (info : σ) (ptype : ProtoType) (commands : List (Option κ × List UInt8 × Bool)) :
    AsyncCtx σ κ :=
  asyncStartup (commands.foldl (fun ctx command => asyncCommand ctx command.1 command.2.1 command.2.2) { info })
    ptype

def callsOf (answers : List (AsyncAnswer κ)) : List κ := answers.flatMap fun answer => answer.calls.map Prod.fst

def queuedOf (answers : List (AsyncAnswer κ)) : List κ := answers.flatMap AsyncAnswer.queued

def callbacks (work : List (CommandNode κ)) : List κ := work.filterMap CommandNode.fcb

structure Accounted (queued : List κ) (answers : List (AsyncAnswer κ)) (ctx : AsyncCtx σ κ) : Prop where
  order : queued ++ queuedOf answers = callsOf answers ++ callbacks ctx.work
  head : ctx.head = true ↔ ctx.work ≠ []
  watched : ctx.reading = true ∨ ctx.writing = true → ctx.work ≠ []
  single : ctx.reading = true → ctx.writing = false

inductive Moves (queued : List κ) (answers : List (AsyncAnswer κ)) (ctx : AsyncCtx σ κ) :
    Option (AsyncCtx σ κ) → AsyncAnswer κ → Prop
  | on {next : AsyncCtx σ κ} {answer : AsyncAnswer κ} (kept : Accounted queued (answers ++ [answer]) next)
      (clears : answer.finished = true → next.work = []) : Moves queued answers ctx (some next) answer
  | broken {node : CommandNode κ} {rest : List (CommandNode κ)} (work : ctx.work = node :: rest) :
      Moves queued answers ctx none { calls := (node.fcb.toList).map fun fcb => (fcb, false) }

theorem callsOf_append (left right : List (AsyncAnswer κ)) :
    callsOf (left ++ right) = callsOf left ++ callsOf right := by simp [callsOf]

theorem queuedOf_append (left right : List (AsyncAnswer κ)) :
    queuedOf (left ++ right) = queuedOf left ++ queuedOf right := by simp [queuedOf]

theorem callbacks_cons (node : CommandNode κ) (rest : List (CommandNode κ)) :
    callbacks (node :: rest) = node.fcb.toList ++ callbacks rest := by
  cases called : node.fcb with
  | none => simp [callbacks, called]
  | some fcb => simp [callbacks, called]

variable {rest : List (CommandNode κ)}

namespace Accounted

variable {queued : List κ} {answers : List (AsyncAnswer κ)} {ctx next : AsyncCtx σ κ}

section

variable (accounted : Accounted queued answers ctx)

include accounted

theorem idle (head : next.head = ctx.head) (work : callbacks next.work = callbacks ctx.work)
    (empty : next.work = [] ↔ ctx.work = []) (watched : next.reading = true ∨ next.writing = true → next.work ≠ [])
    (single : next.reading = true → next.writing = false) : Moves queued answers ctx (some next) {} := by
  refine .on ⟨?_, ?_, watched, single⟩ (fun never => by cases never)
  · rw [queuedOf_append, callsOf_append, work]
    simpa [queuedOf, callsOf] using accounted.order
  · rw [head, accounted.head, ne_eq, ne_eq, empty]

theorem still : Moves queued answers ctx (some ctx) {} :=
  accounted.idle rfl rfl Iff.rfl accounted.watched accounted.single

theorem waits {node : CommandNode κ} (work : ctx.work = node :: rest) (cache : NetCache)
    (head : next.head = ctx.head) (nextWork : next.work = { node with cache } :: rest)
    (single : next.reading = true → next.writing = false) : Moves queued answers ctx (some next) {} := by
  refine accounted.idle head ?_ ?_ (fun _ => ?_) single
  · rw [nextWork, work, callbacks_cons, callbacks_cons]
  · rw [nextWork, work]
    simp
  · rw [nextWork]
    exact cons_ne_nil _ _

theorem reply {node other : CommandNode κ} (work : ctx.work = node :: rest)
    (fcb : other.fcb = node.fcb) (head : next.head = ctx.head) (idle : next.writing = false) :
    ∃ after answer, answered next other rest = .ok (after, answer) ∧ Moves queued answers ctx after answer := by
  have order := accounted.order
  rw [work, callbacks_cons, ← append_assoc] at order
  have calls : ∀ finished, queued ++ queuedOf (answers ++
      [{ calls := (other.fcb.toList).map fun fcb => (fcb, true), finished }]) =
      callsOf (answers ++ [{ calls := (other.fcb.toList).map fun fcb => (fcb, true), finished }]) ++
        callbacks rest := by
    intro finished
    rw [queuedOf_append, callsOf_append, fcb]
    simpa [queuedOf, callsOf, Function.comp_def] using order
  rw [answered]
  cases rest with
  | nil => exact ⟨_, _, rfl, .on ⟨calls true, by simp, by simp [idle], by simp⟩ (fun _ => rfl)⟩
  | cons later rest =>
    have started : ctx.head = true := accounted.head.mpr (by rw [work]; exact cons_ne_nil _ _)
    exact ⟨_, _, rfl, .on ⟨calls false, by simp [head, started], by simp, by simp⟩ (fun never => by cases never)⟩

theorem send (writing : ctx.writing = true) (sent : Option Nat) :
    ∃ after answer, asyncHandleSend ctx sent = .ok (after, answer) ∧ Moves queued answers ctx after answer := by
  have quiet : ctx.reading = false := by
    cases reading : ctx.reading with
    | false => rfl
    | true => rw [accounted.single reading] at writing; cases writing
  obtain ⟨node, rest, work⟩ := exists_cons_of_ne_nil (accounted.watched (Or.inr writing))
  simp only [asyncHandleSend, work]
  split
  · split
    · exact ⟨_, _, rfl, .broken work⟩
    · exact ⟨_, _, rfl, accounted.waits work _ rfl rfl (fun _ => rfl)⟩
  · exact ⟨_, _, rfl, accounted.waits work _ rfl rfl (fun reading => by simp [quiet] at reading)⟩
  · exact ⟨_, _, rfl, accounted.waits work _ rfl rfl (fun _ => rfl)⟩

theorem redis (parsers : Parsers σ) (reading : ctx.reading = true)
    (got : Received) : ∃ after answer, asyncProtoRedis parsers ctx got = .ok (after, answer) ∧
      Moves queued answers ctx after answer := by
  have idle := accounted.single reading
  obtain ⟨node, rest, work⟩ := exists_cons_of_ne_nil (accounted.watched (Or.inl reading))
  simp only [asyncProtoRedis, work]
  cases got with
  | closed => exact ⟨_, _, rfl, .broken work⟩
  | failed => exact ⟨_, _, rfl, .broken work⟩
  | again => exact ⟨_, _, rfl, accounted.still⟩
  | data bytes granted =>
    dsimp only
    split
    · exact ⟨_, _, rfl, .broken work⟩
    · split
      · exact ⟨_, _, rfl, accounted.waits work _ rfl rfl (fun _ => idle)⟩
      · split
        · exact accounted.reply work rfl rfl idle
        · exact ⟨_, _, rfl, accounted.waits work _ rfl rfl (fun _ => idle)⟩

theorem http (parsers : Parsers σ) (reading : ctx.reading = true)
    (got : Received) : ∃ after answer, asyncProtoHttp parsers ctx got = .ok (after, answer) ∧
      Moves queued answers ctx after answer := by
  have idle := accounted.single reading
  obtain ⟨node, rest, work⟩ := exists_cons_of_ne_nil (accounted.watched (Or.inl reading))
  simp only [asyncProtoHttp, work]
  cases got with
  | closed => exact ⟨_, _, rfl, .broken work⟩
  | failed => exact ⟨_, _, rfl, .broken work⟩
  | again => exact ⟨_, _, rfl, accounted.still⟩
  | data bytes granted =>
    dsimp only
    split
    · exact ⟨_, _, rfl, .broken work⟩
    · split
      · exact ⟨_, _, rfl, accounted.waits work _ rfl rfl (fun _ => idle)⟩
      · split
        · exact ⟨_, _, rfl, @Moves.broken _ _ queued answers ctx node rest work⟩
        · exact accounted.reply work rfl rfl idle

theorem command (fcb : Option κ) (data : List UInt8) (granted : Bool) :
    Moves queued answers ctx (some (asyncCommand ctx fcb data granted)) { queued := fcb.toList } := by
  have order := accounted.order
  have longer : ∀ work : List (CommandNode κ), callbacks work = callbacks ctx.work ++ fcb.toList →
      queued ++ queuedOf (answers ++ [{ queued := fcb.toList }]) =
        callsOf (answers ++ [{ queued := fcb.toList }]) ++ callbacks work := by
    intro work more
    rw [queuedOf_append, callsOf_append, more, ← append_assoc, order]
    simp [queuedOf, callsOf]
  have node : callbacks [{ fcb, cache := (cacheAdd granted {} data).2 }] = fcb.toList :=
    (callbacks_cons _ _).trans (append_nil _)
  rw [asyncCommand]
  by_cases idle : ctx.work = []
  · have fresh : ctx.head = false := Bool.eq_false_iff.mpr fun started => accounted.head.mp started idle
    rw [fresh]
    refine .on ⟨longer _ ?_, by simp, by simp, accounted.single⟩ (fun never => by cases never)
    rw [idle]
    exact node
  · have started : ctx.head = true := accounted.head.mpr idle
    rw [started]
    refine .on ⟨longer _ ?_, by simp [idle], by simp [idle], accounted.single⟩ (fun never => by cases never)
    simp only [List.isEmpty_iff, idle, ↓reduceIte]
    rw [callbacks, filterMap_append]
    exact congrArg _ node

theorem step (parsers : Parsers σ) (op : AsyncOp κ) :
    ∃ after answer, asyncStep parsers (some ctx) op = .ok (after, answer) ∧
      Moves queued answers ctx after answer := by
  cases op with
  | command fcb data granted => exact ⟨_, _, rfl, accounted.command fcb data granted⟩
  | send sent =>
    rw [asyncStep]
    split
    · exact accounted.send (by assumption) sent
    · exact ⟨_, _, rfl, accounted.still⟩
  | recv got =>
    rw [asyncStep]
    split
    · split
      · exact accounted.redis parsers (by assumption) got
      · exact accounted.http parsers (by assumption) got
    · exact ⟨_, _, rfl, accounted.still⟩

end

end Accounted

/-- In order, each once, by `finishwork` or the end of the context. -/
structure CalledOnce (queued : List κ) (answers : List (AsyncAnswer κ)) (final : Option (AsyncCtx σ κ)) :
    Prop where
  order : callsOf answers <+: queued ++ queuedOf answers
  finished : ∀ front answer back, answers = front ++ answer :: back → answer.finished = true →
    callsOf (front ++ [answer]) = queued ++ queuedOf (front ++ [answer])
  destroyed : final = none → callsOf answers = queued ++ queuedOf answers

def LastBreak (parsers : Parsers σ) (state : Option (AsyncCtx σ κ)) (op : AsyncOp κ) : Prop :=
  ∀ ctx answer, state = some ctx → asyncStep parsers (some ctx) op = .ok (none, answer) →
    callbacks (ctx.work.drop 1) = []

variable {parsers : Parsers σ}

theorem run_destroyed (ops : List (AsyncOp κ)) : ∃ answers,
    Machine.run (asyncStep parsers) (none : Option (AsyncCtx σ κ)) ops = .ok (none, answers) ∧
      (∀ answer ∈ answers, answer = {}) ∧
      Machine.Guarded (asyncStep parsers) (LastBreak parsers) (none : Option (AsyncCtx σ κ)) ops := by
  induction ops with
  | nil => exact ⟨[], rfl, by simp, trivial⟩
  | cons op ops ih =>
    obtain ⟨answers, runEq, empty, guarded⟩ := ih
    refine ⟨{} :: answers, Machine.run_cons rfl runEq, by simpa using empty, ?_, ?_⟩
    · intro ctx answer gone
      cases gone
    · intro next answer stepEq
      cases stepEq
      exact guarded

structure RunAccount (parsers : Parsers σ) (queued : List κ) (history : List (AsyncAnswer κ)) (ctx : AsyncCtx σ κ)
    (ops : List (AsyncOp κ)) (final : Option (AsyncCtx σ κ)) (answers : List (AsyncAnswer κ)) : Prop where
  order : callsOf (history ++ answers) <+: queued ++ queuedOf (history ++ answers)
  finished : ∀ front answer back, answers = front ++ answer :: back → answer.finished = true →
    callsOf (history ++ front ++ [answer]) = queued ++ queuedOf (history ++ front ++ [answer])
  destroyed : final = none → (callsOf (history ++ answers) = queued ++ queuedOf (history ++ answers) ↔
    Machine.Guarded (asyncStep parsers) (LastBreak parsers) (some ctx) ops)
  live : final ≠ none → Machine.Guarded (asyncStep parsers) (LastBreak parsers) (some ctx) ops

section Account

variable {queued : List κ} {history answers : List (AsyncAnswer κ)} {ctx next : AsyncCtx σ κ} {op : AsyncOp κ}
  {ops : List (AsyncOp κ)} {final : Option (AsyncCtx σ κ)} {answer : AsyncAnswer κ}

theorem guarded_on (stepEq : asyncStep parsers (some ctx) op = .ok (some next, answer)) :
    Machine.Guarded (asyncStep parsers) (LastBreak parsers) (some ctx) (op :: ops) ↔
      Machine.Guarded (asyncStep parsers) (LastBreak parsers) (some next) ops := by
  have guard : LastBreak parsers (some ctx) op := by
    rintro other given ⟨⟩ brokenEq
    rw [stepEq] at brokenEq
    cases brokenEq
  rw [Machine.guarded_cons_iff stepEq, and_iff_right guard]

theorem RunAccount.on (stepEq : asyncStep parsers (some ctx) op = .ok (some next, answer))
    (kept : Accounted queued (history ++ [answer]) next) (clears : answer.finished = true → next.work = [])
    (account : RunAccount parsers queued (history ++ [answer]) next ops final answers) :
    RunAccount parsers queued history ctx (op :: ops) final (answer :: answers) := by
  refine ⟨?_, ?_, ?_, ?_⟩
  · rw [append_cons]
    exact account.order
  · intro front given back split finish
    cases front with
    | nil =>
      cases split
      have all := kept.order
      rw [clears finish] at all
      simpa [callbacks] using all.symm
    | cons first front =>
      cases split
      simpa using account.finished front given back rfl finish
  · rw [append_cons, guarded_on stepEq]
    exact account.destroyed
  · rw [guarded_on stepEq]
    exact account.live

theorem RunAccount.broken {node : CommandNode κ}
    (accounted : Accounted queued history ctx) (work : ctx.work = node :: rest)
    (stepEq : asyncStep parsers (some ctx) op =
      .ok (none, { calls := (node.fcb.toList).map fun fcb => (fcb, false) }))
    (empty : ∀ answer ∈ answers, answer = {})
    (guarded : Machine.Guarded (asyncStep parsers) (LastBreak parsers) (none : Option (AsyncCtx σ κ)) ops) :
    RunAccount parsers queued history ctx (op :: ops) none
      ({ calls := (node.fcb.toList).map fun fcb => (fcb, false) } :: answers) := by
  have silent : callsOf answers = [] ∧ queuedOf answers = [] := by
    constructor
    · exact flatMap_eq_nil_iff.mpr fun answer member => by rw [empty answer member]; rfl
    · exact flatMap_eq_nil_iff.mpr fun answer member => by rw [empty answer member]
  have order := accounted.order
  rw [work, callbacks_cons, ← append_assoc] at order
  have calls : callsOf (history ++ { calls := (node.fcb.toList).map fun fcb => (fcb, false) } :: answers) =
      callsOf history ++ node.fcb.toList := by
    rw [append_cons, callsOf_append, callsOf_append, silent.1]
    simp [callsOf, Function.comp_def]
  have asked : queuedOf (history ++ { calls := (node.fcb.toList).map fun fcb => (fcb, false) } :: answers) =
      queuedOf history := by
    rw [append_cons, queuedOf_append, queuedOf_append, silent.2]
    simp [queuedOf]
  refine ⟨?_, ?_, fun _ => ?_, fun live => absurd rfl live⟩
  · rw [calls, asked, order]
    exact prefix_append _ _
  · intro front given back split finish
    cases front with
    | nil =>
      cases split
      cases finish
    | cons first front =>
      cases split
      rw [empty given (by simp)] at finish
      cases finish
  · rw [calls, asked, order, Machine.guarded_cons_iff stepEq, and_iff_left guarded, self_eq_append_right]
    constructor
    · rintro last other given ⟨⟩ _
      rw [work]
      exact last
    · intro last
      have drop := last ctx _ rfl stepEq
      rw [work] at drop
      exact drop

theorem run_accounted (accounted : Accounted queued history ctx) (ops : List (AsyncOp κ)) :
    ∃ final answers, Machine.run (asyncStep parsers) (some ctx) ops = .ok (final, answers) ∧
      RunAccount parsers queued history ctx ops final answers := by
  induction ops generalizing history ctx with
  | nil =>
    refine ⟨some ctx, [], rfl, ?_, by simp, by simp, fun _ => trivial⟩
    rw [append_nil, accounted.order]
    exact prefix_append _ _
  | cons op ops ih =>
    obtain ⟨next, answer, stepEq, moves⟩ := accounted.step parsers op
    cases moves with
    | on kept clears =>
      obtain ⟨final, answers, runEq, account⟩ := ih kept
      exact ⟨final, _, Machine.run_cons stepEq runEq, account.on stepEq kept clears⟩
    | broken work =>
      obtain ⟨answers, runEq, empty, guarded⟩ := @run_destroyed σ κ parsers ops
      exact ⟨none, _, Machine.run_cons stepEq runEq, .broken accounted work stepEq empty guarded⟩

end Account

theorem Accounted.commands {queued : List κ} {ctx : AsyncCtx σ κ} (accounted : Accounted queued [] ctx)
    (commands : List (Option κ × List UInt8 × Bool)) : Accounted (queued ++ commands.filterMap Prod.fst) []
        (commands.foldl (fun ctx command => asyncCommand ctx command.1 command.2.1 command.2.2) ctx) ∧
      (commands.foldl (fun ctx command => asyncCommand ctx command.1 command.2.1 command.2.2) ctx).reading =
        ctx.reading := by
  induction commands generalizing queued ctx with
  | nil => exact ⟨by simpa using accounted, rfl⟩
  | cons command commands ih =>
    obtain ⟨fcb, data, granted⟩ := command
    have moves := accounted.command fcb data granted
    cases moves with
    | on kept _ =>
      have order := kept.order
      have next : Accounted (queued ++ fcb.toList) [] (asyncCommand ctx fcb data granted) :=
        { kept with order := by simpa [queuedOf, callsOf] using order }
      have reading : (asyncCommand ctx fcb data granted).reading = ctx.reading := by
        rw [asyncCommand]
        split <;> rfl
      obtain ⟨all, same⟩ := ih next
      refine ⟨?_, same.trans reading⟩
      cases fcb with
      | none => simpa using all
      | some fcb => simpa using all

theorem accounted_started (info : σ) (ptype : ProtoType) (commands : List (Option κ × List UInt8 × Bool)) :
    Accounted (commands.filterMap Prod.fst) [] (startedWith info ptype commands) := by
  have fresh : Accounted ([] : List κ) [] ({ info } : AsyncCtx σ κ) := ⟨rfl, by simp, by simp, by simp⟩
  obtain ⟨accounted, reading⟩ := fresh.commands commands
  rw [startedWith, asyncStartup]
  split
  · exact accounted
  · rename_i some
    exact
      { accounted with
        watched := fun _ none => some (List.isEmpty_iff.mpr none)
        single := fun started => by rw [reading] at started; cases started }

/-- Each callback once, iff no break leaves callbacks behind the one at work. -/
theorem callbacks_once_iff (parsers : Parsers σ) (info : σ) (ptype : ProtoType)
    (commands : List (Option κ × List UInt8 × Bool)) (ops : List (AsyncOp κ)) : ∃ final answers,
    Machine.run (asyncStep parsers) (some (startedWith info ptype commands)) ops = .ok (final, answers) ∧
      (CalledOnce (commands.filterMap Prod.fst) answers final ↔
        Machine.Guarded (asyncStep parsers) (LastBreak parsers) (some (startedWith info ptype commands)) ops) := by
  obtain ⟨final, answers, runEq, order, finished, destroyed, live⟩ :=
    @run_accounted σ κ parsers _ _ _ (accounted_started info ptype commands) ops
  refine ⟨final, answers, runEq, ?_⟩
  cases gone : final with
  | some last => exact iff_of_true ⟨order, finished, fun never => by cases never⟩ (live (by simp [gone]))
  | none =>
    refine ⟨fun once => (destroyed gone).mp (once.destroyed rfl), fun guarded => ⟨order, finished, fun _ => ?_⟩⟩
    exact (destroyed gone).mpr guarded

def waitingParsers : Parsers Unit where
  firstReplyOk := fun _ => false
  protoToReply := fun _ => false
  httpClientHandle := fun info _ => (false, true, info)
  resetStep := id

def twoCommands : List (Option Nat × List UInt8 × Bool) := [(some 1, [80], true), (some 2, [81], true)]

theorem callbacks_dropped : ∃ answers,
    Machine.run (asyncStep waitingParsers) (some (startedWith () .redis twoCommands))
        [.send (some 1), .recv .closed] = .ok (none, answers) ∧ twoCommands.filterMap Prod.fst = [1, 2] ∧
      (answers.flatMap AsyncAnswer.calls) = [(1, false)] ∧ callsOf answers = [1] ∧ queuedOf answers = [] :=
  ⟨_, rfl, rfl, rfl, rfl, rfl⟩

end Libucmq.Net
