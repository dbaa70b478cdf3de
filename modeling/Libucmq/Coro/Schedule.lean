import Libucmq.Library.Circle
import Libucmq.Library.Machine
import Libucmq.Library.Outcome

/-! The coroutines of a schedule, a ring through the main coroutine. -/

namespace Libucmq.Coro

open List Function Machine Outcome

open Circle (Links Round)

inductive Fault where
  | assertion
  | null
  | outside
  | endless
  deriving DecidableEq, Repr

inductive Status where
  | initial
  | enabled
  | running
  | suspend
  | release
  deriving DecidableEq, Repr

inductive Ref (κ : Type) where
  | main
  | coro (id : κ)
  deriving DecidableEq, Repr

structure Schedule (κ : Type) where
  nubs : Int
  exec : Ref κ
  exit : Option (Ref κ)
  links : Links (Ref κ)
  status : Ref κ → Status

inductive Context (κ : Type) where
  | supply
  | running (id : κ)
  deriving DecidableEq, Repr

abbrev coroQueueAddStep : Nat := 32

abbrev coroQueueLowSlot : Nat := coroQueueAddStep * 15

abbrev coroQueueMinSlot : Nat := coroQueueAddStep * 16

section model

variable {κ : Type} [DecidableEq κ]

def coroutineOpen (S : Schedule κ) : Schedule κ :=
  { S with nubs := 0, exit := none, exec := .main, links := S.links.join .main .main }

def push (S : Schedule κ) (C : Ref κ) : Except Fault (Schedule κ) :=
  if S.status C = .initial then
    match S.links.pushBack .main C with
    | none => .error .null
    | some links => .ok { S with links, status := update S.status C .enabled, nubs := S.nubs + 1 }
  else .error .assertion

def pop (S : Schedule κ) (C : Ref κ) : Except Fault (Schedule κ) :=
  if C = .main then .error .assertion
  else
    match S.links.remove C with
    | none => .error .null
    | some links =>
      .ok { S with links, status := update S.status C .release, exit := some C, nubs := S.nubs - 1 }

def yield (S : Schedule κ) (C : Ref κ) : Schedule κ :=
  { S with status := update S.status C .suspend }

def runs (S : Schedule κ) (id : κ) : Schedule κ :=
  { S with exec := .coro id, status := update S.status (.coro id) .running }

def resume (S : Schedule κ) : Ref κ → Except Fault (Schedule κ)
  | .main => .ok { S with status := update S.status .main .running }
  | .coro id =>
    match S.status (.coro id) with
    | .enabled | .suspend => .ok (runs S id)
    | _ => .error .assertion

def swapIn (S : Schedule κ) (id : κ) : Except Fault (Schedule κ × Context κ) :=
  (resume (yield S .main) (.coro id)).map fun S => (S, .running id)

/-- One turn of `coroutine_loop`, up to a supply point or a switch. -/
def loopTurn (S : Schedule κ) : Except Fault (Schedule κ × Context κ) :=
  match S.links.next S.exec with
  | none => .error .null
  | some .main => .ok (S, .supply)
  | some (.coro id) => if .coro id = S.exec then .error .assertion else swapIn S id

def loopBack (S : Schedule κ) : Except Fault (Schedule κ × Context κ) := loopTurn { S with exit := none }

def pushChain : Nat → Schedule κ → Option (Ref κ) → Except Fault (Schedule κ)
  | _, S, none => .ok S
  | 0, _, some _ => .error .endless
  | fuel + 1, S, some C => do
    let next := S.links.next C
    let S ← push S C
    pushChain fuel S next

def loopFirst (S : Schedule κ) : Except Fault (Schedule κ × Context κ) :=
  if S.nubs = 0 then .ok (S, .supply)
  else
    match S.links.next .main with
    | none => .error .null
    | some .main => .error .assertion
    | some (.coro id) => swapIn S id

def coroutineSwitch (S : Schedule κ) : Except Fault (Schedule κ × Context κ) :=
  match S.links.next S.exec with
  | none => .error .null
  | some R =>
    if R = S.exec then .error .assertion
    else do
      let S ← resume (yield S S.exec) R
      match R with
      | .main => loopBack S
      | .coro id => .ok (S, .running id)

def taskOver (S : Schedule κ) (id : κ) : Except Fault (Schedule κ × Context κ) :=
  match S.links.prev (.coro id) with
  | none => .error .null
  | some prev => do
    let S ← pop { S with exec := prev } (.coro id)
    loopBack S

def createChain (S : Schedule κ) : List κ → Schedule κ
  | [] => S
  | id :: rest =>
    let S := createChain S rest
    { S with
      links := ⟨update S.links.next (.coro id) (rest.head?.map .coro),
        update S.links.prev (.coro id) none⟩
      status := update S.status (.coro id) .initial }

inductive Event (κ : Type) where
  | supply (chain : List κ)
  | switch
  | finish
  deriving DecidableEq, Repr

def Context.resumed : Context κ → Option κ
  | .supply => none
  | .running id => some id

def resumes (result : Except Fault (Schedule κ × Context κ)) : Except Fault ((Schedule κ × Context κ) × Option κ) :=
  result.map fun state => (state, state.2.resumed)

/-- Answers who gets the processor; an event out of context changes nothing. -/
def step : Schedule κ × Context κ → Event κ → Except Fault ((Schedule κ × Context κ) × Option κ)
  | (S, .supply), .supply chain =>
    resumes (if S.nubs ≤ coroQueueLowSlot then do
      let S ← pushChain (chain.length + 1) (createChain S chain) (chain.head?.map .coro)
      loopFirst S
    else loopFirst S)
  | (S, .running _), .switch => resumes (coroutineSwitch S)
  | (S, .running id), .finish => resumes (taskOver S id)
  | state, _ => .ok (state, none)

def start (S : Schedule κ) : Schedule κ × Context κ := (coroutineOpen S, .supply)

structure Ring (S : Schedule κ) (members : List κ) : Prop where
  round : Round S.links .main (members.map .coro)
  count : S.nubs = members.length
  exec : S.exec ∈ .main :: members.map .coro

def New : Schedule κ × Context κ → Event κ → Prop
  | (S, .supply), .supply chain =>
    S.nubs ≤ coroQueueLowSlot →
      chain.Nodup ∧ ∀ id ∈ chain, ∀ members : List κ, Round S.links .main (members.map .coro) → id ∉ members
  | _, _ => True

/-- The live coroutines: at a supply point, or split by the turn of this cycle. -/
inductive Cycle (κ : Type) where
  | idle (members : List κ)
  | busy (before : List κ) (current : κ) (after : List κ)
  deriving DecidableEq, Repr

def Cycle.members : Cycle κ → List κ
  | .idle members => members
  | .busy before current after => before ++ current :: after

def Cycle.turn (before after : List κ) : Cycle κ × Option κ :=
  match after with
  | [] => (.idle before, none)
  | current :: rest => (.busy before current rest, some current)

def cycleStep : Cycle κ → Event κ → Cycle κ × Option κ
  | .idle members, .supply chain =>
    Cycle.turn [] (if members.length ≤ coroQueueLowSlot then members ++ chain else members)
  | .busy before current after, .switch => Cycle.turn (before ++ [current]) after
  | .busy before _ after, .finish => Cycle.turn before after
  | cycle, _ => (cycle, none)

end model

section order

variable {κ : Type} {members before after chain : List κ} {id : κ}

def lastOf (before : List κ) : Ref κ := (before.map .coro).getLastD .main

def firstOf (after : List κ) : Ref κ := (after.map .coro).headD .main

theorem coro_notMem (absent : id ∉ members) : Ref.coro id ∉ .main :: members.map .coro := by simpa using absent

theorem lastOf_split (before : List κ) : ∃ front, .main :: before.map .coro = front ++ [lastOf before] := by
  obtain rfl | ⟨front, last, rfl⟩ := before.eq_nil_or_concat'
  · exact ⟨[], rfl⟩
  · exact ⟨.main :: front.map .coro, by simp [lastOf]⟩

theorem firstOf_split (after : List κ) : ∃ back, after.map .coro ++ [.main] = firstOf after :: back := by
  cases after with
  | nil => exact ⟨[], rfl⟩
  | cons first rest => exact ⟨rest.map .coro ++ [.main], rfl⟩

theorem lastOf_mem (before : List κ) : lastOf before ∈ .main :: before.map .coro := by
  obtain ⟨front, split⟩ := lastOf_split before
  simp [split]

theorem joined_lastOf_firstOf {links : Links (Ref κ)} (round : Round links .main ((before ++ after).map .coro)) :
    Circle.Joined links (lastOf before) (firstOf after) := by
  obtain ⟨front, splitBefore⟩ := lastOf_split before
  obtain ⟨back, splitAfter⟩ := firstOf_split after
  have place : .main :: (before ++ after).map .coro ++ [.main] = front ++ lastOf before :: firstOf after :: back := by
    rw [map_append, ← cons_append, splitBefore, append_assoc, splitAfter, append_assoc]
    rfl
  exact round.joined place

def Chained (links : Links (Ref κ)) : List κ → Prop
  | [] => True
  | id :: rest => links.next (.coro id) = rest.head?.map .coro ∧ Chained links rest

theorem Chained.congr {links other : Links (Ref κ)} (chained : Chained links chain)
    (same : ∀ id ∈ chain, other.next (.coro id) = links.next (.coro id)) : Chained other chain := by
  induction chain with
  | nil => trivial
  | cons id rest ih =>
    refine ⟨(same id (by simp)).trans chained.1, ih chained.2 ?_⟩
    intro later member
    exact same later (mem_cons_of_mem id member)

end order

variable {κ : Type} [DecidableEq κ] {S : Schedule κ} {members before after chain : List κ} {current id : κ}

def Ready (status : Status) : Prop := status = .enabled ∨ status = .suspend

structure Idle (S : Schedule κ) (members : List κ) : Prop where
  ring : Ring S members
  exit : S.exit = none
  ready : ∀ id ∈ members, Ready (S.status (.coro id))

structure Busy (S : Schedule κ) (before : List κ) (current : κ) (after : List κ) : Prop where
  ring : Ring S (before ++ current :: after)
  exit : S.exit = none
  exec : S.exec = .coro current
  running : S.status (.coro current) = .running
  ready : ∀ id ∈ before ++ after, Ready (S.status (.coro id))

def Shows : Schedule κ × Context κ → Cycle κ → Prop
  | (S, .supply), .idle members => Idle S members
  | (S, .running id), .busy before current after => id = current ∧ Busy S before current after
  | _, _ => False

omit [DecidableEq κ] in
theorem Ring.nodup (ring : Ring S members) : members.Nodup :=
  List.Nodup.of_map _ (nodup_cons.mp ring.round.distinct).2

theorem yield_status {C D : Ref κ} (other : D ≠ C) : (yield S C).status D = S.status D :=
  update_of_ne other ..

theorem resume_coro (ready : Ready (S.status (.coro id))) : resume S (.coro id) = .ok (runs S id) := by
  obtain enabled | suspend := ready
  · simp only [resume, enabled]
  · simp only [resume, suspend]

theorem busy_runs (ring : Ring S (before ++ current :: after)) (exit : S.exit = none)
    (ready : ∀ id ∈ before ++ after, Ready (S.status (.coro id))) : Busy (runs S current) before current after := by
  have distinct := ring.nodup
  rw [nodup_middle, nodup_cons] at distinct
  refine ⟨⟨ring.round, ring.count, by simp [runs]⟩, exit, rfl, update_self .., ?_⟩
  intro id member
  have other : Ref.coro id ≠ .coro current := by
    rintro ⟨⟩
    exact distinct.1 member
  have same : (runs S current).status (.coro id) = S.status (.coro id) := update_of_ne other ..
  exact same ▸ ready id member

theorem runs_status (S : Schedule κ) (current id : κ) :
    (runs S current).status (.coro id) = if some current = some id then .running else S.status (.coro id) := by
  simp only [runs, update_apply, Ref.coro.injEq, Option.some.injEq, eq_comm]

structure Turned (S : Schedule κ) (turn : Cycle κ × Option κ) (state : Schedule κ × Context κ) : Prop where
  showing : Shows state turn.1
  resumed : state.2.resumed = turn.2
  links : state.1.links = S.links
  status : ∀ id, state.1.status (.coro id) = if turn.2 = some id then .running else S.status (.coro id)

theorem Idle.swapIn (idle : Idle S (before ++ current :: after)) :
    ∃ state, Coro.swapIn S current = .ok state ∧ Turned S (.busy before current after, some current) state := by
  have ready : ∀ id ∈ before ++ current :: after, Ready ((yield S .main).status (.coro id)) := by
    intro id member
    rw [yield_status (by simp)]
    exact idle.ready id member
  have busy : Busy (runs (yield S .main) current) before current after := by
    refine busy_runs ⟨idle.ring.round, idle.ring.count, idle.ring.exec⟩ idle.exit ?_
    intro id member
    refine ready id ?_
    rw [mem_append] at member
    simp [or_left_comm, member]
  refine ⟨(runs (yield S .main) current, .running current), ?_, ⟨rfl, busy⟩, rfl, rfl, ?_⟩
  · rw [Coro.swapIn, resume_coro (ready current (by simp))]
    rfl
  · intro id
    rw [runs_status, yield_status (by simp)]

theorem Idle.loopTurn (idle : Idle S (before ++ after)) (exec : S.exec = lastOf before) :
    ∃ state, Coro.loopTurn S = .ok state ∧ Turned S (Cycle.turn before after) state := by
  have next := (joined_lastOf_firstOf idle.ring.round).1
  rw [← exec] at next
  cases after with
  | nil =>
    refine ⟨(S, .supply), ?_, ?_, rfl, rfl, fun id => rfl⟩
    · simp only [Coro.loopTurn, next]
      rfl
    · simpa [Cycle.turn, Shows] using idle
  | cons current rest =>
    obtain ⟨state, swapped, turned⟩ := idle.swapIn
    have apart : Ref.coro current ≠ S.exec := by
      rw [exec]
      intro same
      have distinct := idle.ring.nodup
      rw [nodup_middle, nodup_cons] at distinct
      have member := lastOf_mem before
      rw [← same] at member
      exact distinct.1 (mem_append_left rest (by simpa using member))
    refine ⟨state, ?_, turned⟩
    simp only [Coro.loopTurn, next]
    show (if Ref.coro current = S.exec then _ else Coro.swapIn S current) = _
    rw [if_neg apart, swapped]

theorem Idle.loopFirst (idle : Idle S members) :
    ∃ state, Coro.loopFirst S = .ok state ∧ Turned S (Cycle.turn [] members) state := by
  cases members with
  | nil =>
    have missing : S.nubs = 0 := idle.ring.count
    exact ⟨(S, .supply), by rw [Coro.loopFirst, if_pos missing], idle, rfl, rfl, fun id => rfl⟩
  | cons current rest =>
    have nonempty : S.nubs ≠ 0 := by
      rw [idle.ring.count, length_cons]
      omega
    obtain ⟨state, swapped, turned⟩ := @Idle.swapIn κ _ S [] rest current idle
    have next := (@joined_lastOf_firstOf κ [] (current :: rest) S.links idle.ring.round).1
    refine ⟨state, ?_, turned⟩
    rw [Coro.loopFirst, if_neg nonempty, ← swapped]
    simp only [show S.links.next .main = some (.coro current) from next]

theorem Idle.push (idle : Idle S members) (initial : S.status (.coro id) = .initial) (absent : id ∉ members) :
    ∃ next, Coro.push S (.coro id) = .ok next ∧ Idle next (members ++ [id]) ∧
      next.status = update S.status (.coro id) .enabled ∧
      ∀ apart, apart ≠ .coro id → apart ∉ .main :: members.map .coro → next.links.next apart = S.links.next apart := by
  obtain ⟨links, pushed, round, same⟩ := idle.ring.round.pushBack (coro_notMem absent)
  refine ⟨{ S with links, status := update S.status (.coro id) .enabled, nubs := S.nubs + 1 },
    by rw [Coro.push, if_pos initial, pushed], ⟨⟨by simpa using round, ?_, ?_⟩, idle.exit, ?_⟩, rfl, ?_⟩
  · simp [idle.ring.count]
  · have member := idle.ring.exec
    simp only [mem_cons, mem_map, mem_append] at member ⊢
    tauto
  · intro other member
    obtain old | rfl : other ∈ members ∨ other = id := by simpa using member
    · show Ready (update S.status (.coro id) .enabled (.coro other))
      have apart : Ref.coro other ≠ .coro id := by
        rintro ⟨⟩
        exact absent old
      rw [update_of_ne apart]
      exact idle.ready other old
    · exact .inl (update_self ..)
  · intro apart other outside
    exact (same apart other outside).1

structure Fresh (S : Schedule κ) (members chain : List κ) : Prop where
  distinct : chain.Nodup
  absent : ∀ id ∈ chain, id ∉ members
  initial : ∀ id ∈ chain, S.status (.coro id) = .initial
  chained : Chained S.links chain

theorem Idle.pushChain (idle : Idle S members) (fresh : Fresh S members chain) {fuel : Nat}
    (enough : chain.length ≤ fuel) :
    ∃ next, Coro.pushChain fuel S (chain.head?.map .coro) = .ok next ∧ Idle next (members ++ chain) ∧
      (∀ id, next.status (.coro id) = if id ∈ chain then .enabled else S.status (.coro id)) ∧
      ∀ id, id ∉ members ++ chain → next.links.next (.coro id) = S.links.next (.coro id) := by
  induction chain generalizing S members fuel with
  | nil =>
    refine ⟨S, by rw [List.head?_nil, Option.map_none, Coro.pushChain], by simpa using idle, by simp, fun id _ => rfl⟩
  | cons first rest ih =>
    obtain ⟨distinct, absent, initial, successor, chained⟩ := fresh
    obtain ⟨outside, distinct⟩ := nodup_cons.mp distinct
    obtain ⟨more, rfl⟩ : ∃ more, fuel = more + 1 := ⟨fuel - 1, by simp at enough; omega⟩
    obtain ⟨middle, pushed, held, status, links⟩ := idle.push (initial first (by simp)) (absent first (by simp))
    have other : ∀ id ∈ rest, Ref.coro id ≠ .coro first := by
      rintro id member ⟨⟩
      exact outside member
    have fresh : Fresh middle (members ++ [first]) rest := by
      refine ⟨distinct, ?_, ?_, chained.congr ?_⟩
      · intro id member
        have apart := other id member
        simp only [mem_append, mem_singleton, not_or]
        exact ⟨absent id (mem_cons_of_mem first member), fun same => apart (congrArg _ same)⟩
      · intro id member
        rw [status, update_of_ne (other id member)]
        exact initial id (mem_cons_of_mem first member)
      · intro id member
        exact links _ (other id member) (coro_notMem (absent id (mem_cons_of_mem first member)))
    obtain ⟨next, later, rested, statuses, unchanged⟩ := ih held fresh (by simpa using enough)
    refine ⟨next, ?_, by simpa using rested, ?_, ?_⟩
    · simp only [List.head?_cons, Option.map_some, Coro.pushChain, pushed, successor, ok_bind]
      exact later
    · intro id
      rw [statuses, status]
      by_cases same : id = first
      · subst same
        simp [outside]
      · simp [same]
    · intro id out
      simp only [mem_append, mem_cons, not_or] at out
      rw [unchanged id (by simp [out]), links]
      · simpa using out.2.1
      · simpa using out.1

theorem Busy.coroutineSwitch (busy : Busy S before current after) : ∃ state, Coro.coroutineSwitch S = .ok state ∧
      Turned (yield S (.coro current)) (Cycle.turn (before ++ [current]) after) state := by
  have whole : before ++ current :: after = before ++ [current] ++ after := by simp
  have exec : S.exec = lastOf (before ++ [current]) := by simp [lastOf, busy.exec]
  have next := (joined_lastOf_firstOf (whole ▸ busy.ring.round)).1
  rw [← exec] at next
  have distinct := busy.ring.nodup
  rw [nodup_middle, nodup_cons] at distinct
  have others : ∀ id ∈ before ++ after, Ready ((yield S (.coro current)).status (.coro id)) := by
    intro id member
    rw [yield_status]
    · exact busy.ready id member
    · rintro ⟨⟩
      exact distinct.1 member
  have self : Ready ((yield S (.coro current)).status (.coro current)) := .inr (update_self ..)
  have ring : Ring (yield S (.coro current)) (before ++ [current] ++ after) :=
    ⟨whole ▸ busy.ring.round, whole ▸ busy.ring.count, whole ▸ busy.ring.exec⟩
  have apart : firstOf after ≠ S.exec := by
    rw [busy.exec]
    cases after with
    | nil => simp [firstOf]
    | cons first rest =>
      rintro ⟨⟩
      exact distinct.1 (by simp)
  simp only [Coro.coroutineSwitch, next, if_neg apart]
  rw [busy.exec] at exec ⊢
  cases after with
  | nil =>
    have idle : Idle { yield S (.coro current) with
        status := update (yield S (.coro current)).status .main .running
        exit := none } (before ++ [current] ++ []) := by
      refine ⟨⟨ring.round, ring.count, ring.exec⟩, rfl, ?_⟩
      intro id member
      show Ready (update (yield S (.coro current)).status .main .running (.coro id))
      rw [update_of_ne (by simp)]
      obtain old | rfl : id ∈ before ∨ id = current := by simpa using member
      · exact others id (by simp [old])
      · exact self
    obtain ⟨state, back, turned⟩ := idle.loopTurn (busy.exec.trans exec)
    refine ⟨state, back, turned.showing, turned.resumed, turned.links, ?_⟩
    intro id
    have other : Ref.coro id ≠ .main := by simp
    rw [turned.status]
    exact if_congr Iff.rfl rfl (update_of_ne other Status.running (yield S (.coro current)).status)
  | cons first rest =>
    refine ⟨(runs (yield S (.coro current)) first, .running first), ?_, ⟨rfl, busy_runs ring busy.exit ?_⟩, rfl, rfl,
      runs_status _ first⟩
    · rw [firstOf, map_cons, headD_cons, resume_coro (others first (by simp)), ok_bind]
    · intro id member
      simp only [mem_append, mem_singleton] at member
      obtain (old | rfl) | later := member
      · exact others id (by simp [old])
      · exact self
      · exact others id (by simp [later])

theorem Busy.taskOver (busy : Busy S before current after) :
    ∃ state popped, Coro.taskOver S current = .ok state ∧ Turned popped (Cycle.turn before after) state ∧
      popped.status = update S.status (.coro current) .release ∧ popped.links.next (.coro current) = none ∧
      ∀ id, id ∉ before ++ current :: after → popped.links.next (.coro id) = S.links.next (.coro id) := by
  have prev : S.links.prev (.coro current) = some (lastOf before) := (joined_lastOf_firstOf busy.ring.round).2
  have round := busy.ring.round
  rw [map_append, map_cons] at round
  obtain ⟨links, removed, round, unlinked, _, same⟩ := round.remove
  have distinct := busy.ring.nodup
  rw [nodup_middle, nodup_cons] at distinct
  have popped : pop { S with exec := lastOf before } (.coro current) = .ok { S with
      exec := lastOf before, links, status := update S.status (.coro current) .release,
      exit := some (.coro current), nubs := S.nubs - 1 } := by
    rw [pop, if_neg (by simp)]
    simp only [removed]
  have idle : Idle { S with
      exec := lastOf before, links, status := update S.status (.coro current) .release,
      exit := none, nubs := S.nubs - 1 } (before ++ after) := by
    refine ⟨⟨by simpa using round, ?_, ?_⟩, rfl, ?_⟩
    · simp [busy.ring.count]
      omega
    · have member := lastOf_mem before
      simp only [mem_cons, mem_map, mem_append] at member ⊢
      tauto
    · intro id member
      show Ready (update S.status (.coro current) .release (.coro id))
      rw [update_of_ne]
      · exact busy.ready id member
      · rintro ⟨⟩
        exact distinct.1 member
  obtain ⟨state, back, turned⟩ := idle.loopTurn rfl
  refine ⟨state, _, ?_, turned, rfl, unlinked, ?_⟩
  · simp only [Coro.taskOver, prev, popped, ok_bind]
    exact back
  · intro id outside
    refine (same _ ?_).1
    rw [cons_append, ← map_cons, ← map_append]
    exact coro_notMem outside

theorem createChain_apart {C : Ref κ} (apart : C ∉ chain.map .coro) :
    (createChain S chain).links.next C = S.links.next C ∧ (createChain S chain).links.prev C = S.links.prev C ∧
      (createChain S chain).status C = S.status C := by
  induction chain with
  | nil => exact ⟨rfl, rfl, rfl⟩
  | cons id rest ih =>
    rw [map_cons, mem_cons, not_or] at apart
    obtain ⟨next, prev, status⟩ := ih apart.2
    exact ⟨(update_of_ne apart.1 ..).trans next, (update_of_ne apart.1 ..).trans prev,
      (update_of_ne apart.1 ..).trans status⟩

theorem createChain_fields (S : Schedule κ) (chain : List κ) :
    (createChain S chain).nubs = S.nubs ∧ (createChain S chain).exec = S.exec ∧
        (createChain S chain).exit = S.exit := by
  induction chain with
  | nil => exact ⟨rfl, rfl, rfl⟩
  | cons id rest ih => exact ih

theorem createChain_fresh (distinct : chain.Nodup) (absent : ∀ id ∈ chain, id ∉ members) :
    Fresh (createChain S chain) members chain := by
  induction chain with
  | nil => exact ⟨distinct, absent, by simp, trivial⟩
  | cons first rest ih =>
    obtain ⟨outside, distinct⟩ := nodup_cons.mp distinct
    have fresh := ih distinct fun id member => absent id (mem_cons_of_mem first member)
    have other : ∀ id ∈ rest, Ref.coro id ≠ .coro first := by
      rintro id member ⟨⟩
      exact outside member
    refine ⟨nodup_cons.mpr ⟨outside, distinct⟩, absent, ?_, update_self .., fresh.chained.congr ?_⟩
    · intro id member
      obtain rfl | later := mem_cons.mp member
      · exact update_self ..
      · exact (update_of_ne (other id later) ..).trans (fresh.initial id later)
    · intro id member
      exact update_of_ne (other id member) ..

omit [DecidableEq κ] in
theorem Idle.congr {other : Schedule κ} (idle : Idle S members)
    (fields : other.nubs = S.nubs ∧ other.exec = S.exec ∧ other.exit = S.exit)
    (same : ∀ C ∈ Ref.main :: members.map .coro, other.links.next C = S.links.next C ∧
      other.links.prev C = S.links.prev C ∧ other.status C = S.status C) : Idle other members := by
  obtain ⟨nubs, exec, exit⟩ := fields
  refine ⟨⟨idle.ring.round.congr ?_ ?_, nubs.trans idle.ring.count, exec ▸ idle.ring.exec⟩, exit.trans idle.exit, ?_⟩
  · intro C member
    exact (same C member).1
  · intro C member
    exact (same C member).2.1
  · intro id member
    rw [(same (.coro id) (by simp [member])).2.2]
    exact idle.ready id member

theorem Idle.createChain (idle : Idle S members) (absent : ∀ id ∈ chain, id ∉ members) :
    Idle (Coro.createChain S chain) members := by
  refine idle.congr (createChain_fields S chain) ?_
  intro C member
  refine createChain_apart ?_
  intro inChain
  obtain ⟨id, new, rfl⟩ := mem_map.mp inChain
  exact coro_notMem (absent id new) member

variable {state : Schedule κ × Context κ}

theorem resumes_ok {S : Schedule κ} {turn : Cycle κ × Option κ}
    {result : Except Fault (Schedule κ × Context κ)} (returned : result = .ok state) (turned : Turned S turn state) :
    resumes result = .ok (state, turn.2) := by
  rw [returned, ← turned.resumed]
  rfl

theorem step_simulates (state : Schedule κ × Context κ) (cycle : Cycle κ) (event : Event κ) (stands : Shows state cycle)
    (new : New state event) :
    ∃ next, step state event = .ok (next, (cycleStep cycle event).2) ∧ Shows next (cycleStep cycle event).1 := by
  obtain ⟨S, _ | running⟩ := state
  · cases cycle with
    | busy before current after => exact stands.elim
    | idle members =>
      have idle : Idle S members := stands
      cases event with
      | switch => exact ⟨_, rfl, stands⟩
      | finish => exact ⟨_, rfl, stands⟩
      | supply chain =>
        simp only [step, cycleStep]
        by_cases low : members.length ≤ coroQueueLowSlot
        · have few : S.nubs ≤ coroQueueLowSlot := by
            rw [idle.ring.count]
            exact_mod_cast low
          obtain ⟨distinct, fresh⟩ := new few
          have absent : ∀ id ∈ chain, id ∉ members := fun id member => fresh id member members idle.ring.round
          obtain ⟨pushed, pushes, idle, _⟩ := (idle.createChain absent).pushChain
            (createChain_fresh distinct absent) (Nat.le_succ chain.length)
          obtain ⟨state, first, turned⟩ := idle.loopFirst
          rw [if_pos few, if_pos low, pushes, ok_bind]
          exact ⟨state, resumes_ok first turned, turned.showing⟩
        · have many : ¬ S.nubs ≤ coroQueueLowSlot := by
            rw [idle.ring.count]
            exact_mod_cast low
          obtain ⟨state, first, turned⟩ := idle.loopFirst
          rw [if_neg many, if_neg low]
          exact ⟨state, resumes_ok first turned, turned.showing⟩
  · cases cycle with
    | idle members => exact stands.elim
    | busy before current after =>
      obtain ⟨rfl, busy⟩ := stands
      cases event with
      | supply chain => exact ⟨_, rfl, rfl, busy⟩
      | switch =>
        obtain ⟨state, switched, turned⟩ := busy.coroutineSwitch
        exact ⟨state, resumes_ok switched turned, turned.showing⟩
      | finish =>
        obtain ⟨state, popped, finished, turned, _⟩ := busy.taskOver
        exact ⟨state, resumes_ok finished turned, turned.showing⟩

omit [DecidableEq κ] in
theorem cycleStep_idle {acts : List (Event κ)} (within : ∀ act ∈ acts, act = .switch ∨ act = .finish) :
    (specRun cycleStep (.idle members) acts).2.filterMap (fun resumed => resumed) = [] := by
  induction acts with
  | nil => rfl
  | cons act acts ih =>
    have later := ih fun act member => within act (mem_cons_of_mem _ member)
    obtain rfl | rfl := within act (by simp)
    · exact later
    · exact later

omit [DecidableEq κ] in
theorem cycleStep_turns {acts : List (Event κ)} (within : ∀ act ∈ acts, act = .switch ∨ act = .finish)
    {final : List κ} (done : (specRun cycleStep (Cycle.turn before after).1 acts).1 = .idle final) :
    ((Cycle.turn before after).2 :: (specRun cycleStep (Cycle.turn before after).1 acts).2).filterMap
      (fun resumed => resumed) = after := by
  induction acts generalizing before after with
  | nil =>
    cases after with
    | nil => rfl
    | cons current rest => cases done
  | cons act acts ih =>
    have rest := fun act member => within act (mem_cons_of_mem _ member)
    cases after with
    | nil => exact cycleStep_idle within
    | cons current later =>
      obtain rfl | rfl := within act (by simp)
      · exact congrArg (current :: ·) (ih rest done)
      · exact congrArg (current :: ·) (ih rest done)

theorem loopTurn_open (S : Schedule κ) : loopTurn (coroutineOpen S) = .ok (start S) := by
  have next : (coroutineOpen S).links.next (coroutineOpen S).exec = some .main :=
    (Circle.joined_join S.links .main .main).1
  simp only [loopTurn, next]
  rfl

theorem shows_start (S : Schedule κ) : Shows (start S) (.idle []) :=
  ⟨⟨Circle.round_single .., rfl, by simp [coroutineOpen]⟩, rfl, by simp⟩

omit [DecidableEq κ] in
theorem Shows.ring {cycle : Cycle κ} (stands : Shows state cycle) : Ring state.1 cycle.members := by
  obtain ⟨S, _ | running⟩ := state
  · cases cycle with
    | idle members => exact Idle.ring stands
    | busy before current after => exact stands.elim
  · cases cycle with
    | idle members => exact stands.elim
    | busy before current after => exact stands.2.ring

def cycles (events : List (Event κ)) : Cycle κ × List (Option κ) := specRun cycleStep (.idle []) events

def TakesTurns (state : Schedule κ × Context κ) : Prop :=
  ∀ chain acts, New state (.supply chain) → (∀ act ∈ acts, act = .switch ∨ act = .finish) →
    ∃ first last resumed answers members, step state (.supply chain) = .ok (first, resumed) ∧ Ring first.1 members ∧
      Machine.run step first acts = .ok (last, answers) ∧
      (last.2 = .supply → (resumed :: answers).filterMap (fun resumed => resumed) = members)

theorem guarded_within {acts : List (Event κ)}
    (within : ∀ act ∈ acts, act = .switch ∨ act = .finish) : Guarded step New state acts := by
  refine guarded_of_forall_state ?_
  rintro ⟨S, _ | running⟩ act member <;> obtain rfl | rfl := within act member <;> trivial

omit [DecidableEq κ] in
theorem Shows.idle {cycle : Cycle κ} (stands : Shows state cycle)
    (supply : state.2 = .supply) : ∃ members, cycle = .idle members := by
  obtain ⟨S, context⟩ := state
  subst supply
  cases cycle with
  | idle members => exact ⟨members, rfl⟩
  | busy before current after => exact stands.elim

omit [DecidableEq κ] in
theorem members_turn (before after : List κ) : (Cycle.turn before after).1.members = before ++ after := by
  cases after with
  | nil => simp [Cycle.turn, Cycle.members]
  | cons current rest => rfl

theorem Shows.takesTurns (stands : Shows state (.idle members)) : TakesTurns state := by
  intro chain acts new within
  obtain ⟨first, stepEq, afterwards⟩ := step_simulates _ _ (.supply chain) stands new
  obtain ⟨last, run, ended⟩ := run_simulation step_simulates afterwards (guarded_within within)
  refine ⟨first, last, _, _, _, stepEq, afterwards.ring, run, ?_⟩
  intro supply
  obtain ⟨final, done⟩ := ended.idle supply
  have turns := cycleStep_turns within done
  simpa only [cycleStep, members_turn, nil_append] using turns

/-- The live coroutines are the ring, and every cycle gives each one turn. -/
theorem coroutineLoop_round_robin (S : Schedule κ) {events : List (Event κ)}
    (new : Guarded step New (start S) events) : ∃ final, loopTurn (coroutineOpen S) = .ok (start S) ∧
      Machine.run step (start S) events = .ok (final, (cycles events).2) ∧ Ring final.1 (cycles events).1.members ∧
      (final.2 = .supply → TakesTurns final) := by
  obtain ⟨final, run, stands⟩ := run_simulation step_simulates (shows_start S) new
  refine ⟨final, loopTurn_open S, run, stands.ring, ?_⟩
  intro supply
  obtain ⟨members, idle⟩ := stands.idle supply
  rw [idle] at stands
  exact stands.takesTurns

theorem coroutineLoop_round_robin_two :
    let S : Schedule Nat := ⟨0, .main, none, ⟨fun _ => none, fun _ => none⟩, fun _ => .initial⟩
    Guarded step New (start S) [.supply [7, 8], .switch, .finish] ∧
      ∃ final, loopTurn (coroutineOpen S) = .ok (start S) ∧
        Machine.run step (start S) [.supply [7, 8], .switch, .finish] = .ok (final, [some 7, some 8, none]) ∧
        Ring final.1 [7] ∧ (final.2 = .supply → TakesTurns final) := by
  intro S
  have guarded : Guarded step New (start S) [.supply [7, 8], .switch, .finish] := by
    refine ⟨fun _ => ⟨by decide, ?_⟩, fun next answer _ => guarded_within (by simp)⟩
    intro id _ members round
    cases members with
    | nil => exact not_mem_nil
    | cons first rest =>
      cases (@joined_lastOf_firstOf Nat [] (first :: rest) _ round).1
  exact ⟨guarded, coroutineLoop_round_robin S guarded⟩

end Libucmq.Coro
