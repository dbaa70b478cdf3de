import Mathlib.Data.List.Perm.Subperm
import Mathlib.Data.Nat.Find
import Mathlib.Data.Nat.ModEq
import Libucmq.Coro.Schedule

/-! The coroutines that work on the tasks of an engine. -/

namespace Libucmq.Coro

open List Function Machine Outcome

variable {τ : Type}

structure SupexCoro (τ : Type) where
  num : Nat
  nxt : Nat
  has : Bool
  temp : τ
  task : Nat → τ

/-- One turn's callbacks: is a task found, with what buffer, must it wait. -/
structure Turn (τ : Type) where
  found : Bool
  addr : τ
  defer : Bool

def coroutineUseable (status : Status) : Int := if status = .initial ∨ status = .release then 0 else -1

def idleSearch (S : Schedule Nat) (num : Nat) : Nat → Nat → Except Fault Nat
  | 0, _ => .error .assertion
  | left + 1, offset =>
    if num ≤ offset then .error .outside
    else if coroutineUseable (S.status (.coro offset)) = 0 then .ok offset
    else idleSearch S num left ((offset + 1) % num)

def supplyIdleFetch (coro : SupexCoro τ) (S : Schedule Nat) : Except Fault (Nat × SupexCoro τ) := do
  let offset ← idleSearch S coro.num coro.num coro.nxt
  return (offset, { coro with nxt := (offset + 1) % coro.num })

structure Supplying (τ : Type) where
  coro : SupexCoro τ
  S : Schedule Nat
  ends : Option (Nat × Nat)
  taken : List τ

def coroutineReuse (S : Schedule Nat) (C : Ref Nat) : Schedule Nat :=
  { S with status := update S.status C .initial }

def setNext (S : Schedule Nat) (L C : Ref Nat) : Schedule Nat :=
  { S with links := { S.links with next := update S.links.next L (some C) } }

def Supplying.link (loop : Supplying τ) (idx : Nat) (coro : SupexCoro τ) : Supplying τ :=
  let (S, ends) :=
    match loop.ends with
    | none => (loop.S, (idx, idx))
    | some (H, L) => (setNext loop.S (.coro L) (.coro idx), (H, idx))
  { loop with
    coro := { coro with task := update coro.task idx coro.temp }
    S := coroutineReuse S (.coro idx)
    ends := some ends }

def Supplying.lookup (loop : Supplying τ) (turn : Turn τ) : Bool × Supplying τ :=
  if loop.coro.has then (true, loop)
  else
    (turn.found, { loop with
      coro := { loop.coro with temp := turn.addr }
      taken := if turn.found then loop.taken ++ [turn.addr] else loop.taken })

def supplyFrom (turns : Nat → Turn τ) : Nat → Nat → Supplying τ → Except Fault (Supplying τ)
  | 0, _, loop => .ok loop
  | left + 1, count, loop =>
    let (found, loop) := loop.lookup (turns count)
    if !found then .ok loop
    else if (turns count).defer then .ok { loop with coro := { loop.coro with has := true } }
    else do
      let (idx, coro) ← supplyIdleFetch { loop.coro with has := false } loop.S
      supplyFrom turns left (count + 1) (loop.link idx coro)

def supplyCoroQueue (turns : Nat → Turn τ) (coro : SupexCoro τ) (S : Schedule Nat) : Except Fault (Supplying τ) :=
  supplyFrom turns coroQueueAddStep 0 ⟨coro, S, none, []⟩

def coroutineInit (S : Schedule Nat) (C : Ref Nat) : Schedule Nat :=
  { S with links := S.links.clear C, status := update S.status C .initial }

structure Worker (τ : Type) where
  coro : SupexCoro τ
  S : Schedule Nat
  context : Context Nat

def supexCoroOpen (coro : SupexCoro τ) (S : Schedule Nat) : Worker τ :=
  ⟨coro, coroutineOpen ((List.range coro.num).foldl (fun S id => coroutineInit S (.coro id)) S), .supply⟩

inductive Act (τ : Type) where
  | supply (turns : Nat → Turn τ)
  | switch
  | finish

def started (coro : SupexCoro τ) (S : Schedule Nat) : Context Nat → List τ
  | .supply => []
  | .running id => if S.status (.coro id) = .enabled then [coro.task id] else []

def work : Worker τ → Act τ → Except Fault (Worker τ × (List τ × List τ))
  | ⟨coro, S, .supply⟩, .supply turns =>
    if S.nubs ≤ coroQueueLowSlot then do
      let loop ← supplyCoroQueue turns coro S
      let S ← pushChain (coroQueueAddStep + 1) loop.S (loop.ends.map fun ends => .coro ends.1)
      let (after, context) ← loopFirst S
      return (⟨loop.coro, after, context⟩, (loop.taken, started loop.coro S context))
    else do
      let (after, context) ← loopFirst S
      return (⟨coro, after, context⟩, ([], started coro S context))
  | ⟨coro, S, .running _⟩, .switch => do
    let (after, context) ← coroutineSwitch S
    return (⟨coro, after, context⟩, ([], started coro S context))
  | ⟨coro, S, .running id⟩, .finish => do
    let (after, context) ← taskOver S id
    return (⟨coro, after, context⟩, ([], started coro S context))
  | worker, _ => .ok (worker, ([], []))

section search

variable {S : Schedule Nat} {num base : Nat}

theorem place_inj {near far : Nat} (ordered : near < far) (below : far < num) :
    (base + near) % num ≠ (base + far) % num := by
  intro same
  have equal : near ≡ far [MOD num] := Nat.ModEq.add_left_cancel' base same
  have := equal.eq_of_lt_of_lt (by omega) below
  omega

theorem exists_place {id : Nat} (inside : id < num) (base : Nat) : ∃ distance < num, (base + distance) % num = id := by
  refine ⟨(id + (num - base % num)) % num, Nat.mod_lt _ (by omega), ?_⟩
  have bound : base % num < num := Nat.mod_lt _ (by omega)
  have whole : base + (id + (num - base % num)) = id + num * (base / num + 1) := by
    have parts := Nat.div_add_mod base num
    rw [Nat.mul_add]
    omega
  rw [Nat.add_mod_mod, whole, Nat.add_mul_mod_self_left, Nat.mod_eq_of_lt inside]

theorem idleSearch_first {near far left : Nat} (ordered : near ≤ far) (room : far - near < left) (positive : 0 < num)
    (useable : coroutineUseable (S.status (.coro ((base + far) % num))) = 0)
    (between : ∀ distance, near ≤ distance → distance < far →
      coroutineUseable (S.status (.coro ((base + distance) % num))) ≠ 0) :
    idleSearch S num left ((base + near) % num) = .ok ((base + far) % num) := by
  induction left generalizing near with
  | zero => omega
  | succ left ih =>
    have inside : ¬ num ≤ (base + near) % num := by
      have := Nat.mod_lt (base + near) positive
      omega
    rw [idleSearch, if_neg inside]
    by_cases same : near = far
    · subst same
      rw [if_pos useable]
    · rw [if_neg (between near (by omega) (by omega)), Nat.mod_add_mod, Nat.add_assoc]
      exact ih (by omega) (by omega) fun distance lower upper => between distance (by omega) upper

structure Searched (num base : Nat) (members : List Nat) (nxt : Nat) (picks : List Nat) (walked : Nat) : Prop where
  short : walked ≤ num
  cursor : nxt = (base + walked) % num
  distinct : picks.Nodup
  absent : ∀ id ∈ picks, id < num ∧ id ∉ members
  behind : ∀ id ∈ picks, ∃ distance < walked, (base + distance) % num = id
  seen : ∀ distance < walked, (base + distance) % num ∉ members → (base + distance) % num ∈ picks

theorem Searched.remaining {members picks : List Nat} {nxt walked : Nat}
    (searched : Searched num base members nxt picks walked) (few : members.length + picks.length < num) :
    ∃ distance, walked ≤ distance ∧ distance < num ∧ (base + distance) % num ∉ members := by
  by_contra nothing
  push Not at nothing
  have covered : List.range num ⊆ members ++ picks := by
    intro id inside
    rw [mem_range] at inside
    obtain ⟨distance, below, rfl⟩ := exists_place inside base
    rw [mem_append, or_iff_not_imp_left]
    intro absent
    refine searched.seen distance ?_ absent
    by_contra later
    exact absent (nothing distance (by omega) below)
  have length := (subperm_of_subset nodup_range covered).length_le
  rw [length_range, length_append] at length
  omega

theorem Searched.next {members picks : List Nat} {nxt walked : Nat}
    (searched : Searched num base members nxt picks walked) (few : members.length + picks.length < num)
    (useable : ∀ id < num, coroutineUseable (S.status (.coro id)) = 0 ↔ id ∉ members) :
    ∃ idx further, idleSearch S num num nxt = .ok idx ∧
      Searched num base members ((idx + 1) % num) (picks ++ [idx]) further := by
  have remaining := searched.remaining few
  have positive : 0 < num := by omega
  have inside : ∀ distance, (base + distance) % num < num := fun distance => Nat.mod_lt _ positive
  obtain ⟨later, below, idle⟩ := Nat.find_spec remaining
  have between : ∀ distance, walked ≤ distance → distance < Nat.find remaining → (base + distance) % num ∈ members := by
    intro distance lower upper
    by_contra absent
    exact Nat.find_min remaining upper ⟨lower, by omega, absent⟩
  have outside : (base + Nat.find remaining) % num ∉ picks := by
    intro member
    obtain ⟨distance, passed, same⟩ := searched.behind _ member
    exact place_inj (by omega) below same
  refine ⟨(base + Nat.find remaining) % num, Nat.find remaining + 1, ?_, by omega, ?_, ?_, ?_, ?_, ?_⟩
  · rw [searched.cursor]
    refine idleSearch_first later (by omega) positive ((useable _ (inside _)).mpr idle) ?_
    intro distance lower upper free
    exact (useable _ (inside _)).mp free (between distance lower upper)
  · rw [Nat.mod_add_mod, Nat.add_assoc]
  · exact nodup_append_comm.mp (nodup_cons.mpr ⟨outside, searched.distinct⟩)
  · intro id member
    obtain old | rfl := mem_append.mp member |>.imp_right mem_singleton.mp
    · exact searched.absent id old
    · exact ⟨inside _, idle⟩
  · intro id member
    obtain old | rfl := mem_append.mp member |>.imp_right mem_singleton.mp
    · obtain ⟨distance, passed, same⟩ := searched.behind id old
      exact ⟨distance, by omega, same⟩
    · exact ⟨Nat.find remaining, by omega, rfl⟩
  · intro distance passed free
    rw [mem_append, mem_singleton]
    by_cases old : distance < walked
    · exact .inl (searched.seen distance old free)
    · by_cases same : distance = Nat.find remaining
      · exact .inr (by rw [same])
      · exact absurd (between distance (by omega) (by omega)) free

end search

theorem Chained.concat {S : Schedule Nat} {front : List Nat} {last idx : Nat}
    (chained : Chained S.links (front ++ [last]))
    (distinct : (front ++ [last, idx]).Nodup) (ended : S.links.next (.coro idx) = none) :
    Chained (setNext S (.coro last) (.coro idx)).links (front ++ [last, idx]) := by
  induction front with
  | nil =>
    have apart : Ref.coro idx ≠ .coro last := by
      rintro ⟨⟩
      simp at distinct
    exact ⟨update_self .., (update_of_ne apart ..).trans ended, trivial⟩
  | cons first front ih =>
    obtain ⟨outside, distinct⟩ := nodup_cons.mp distinct
    have apart : Ref.coro first ≠ .coro last := by
      rintro ⟨⟩
      simp at outside
    refine ⟨(update_of_ne apart ..).trans (chained.1.trans ?_), ih chained.2 distinct⟩
    cases front with
    | nil => rfl
    | cons second front => rfl

structure Linked (start S : Schedule Nat) (ends : Option (Nat × Nat)) (picks : List Nat) : Prop where
  fields : S.nubs = start.nubs ∧ S.exec = start.exec ∧ S.exit = start.exit
  prev : S.links.prev = start.links.prev
  next : ∀ C, C ∉ picks.map .coro → S.links.next C = start.links.next C
  status : ∀ C, S.status C = if C ∈ picks.map .coro then .initial else start.status C
  chained : Chained S.links picks
  ends : ends.map Prod.fst = picks.head? ∧ ends.map Prod.snd = picks.getLast?

theorem Linked.link {start : Schedule Nat} {loop : Supplying τ} {coro : SupexCoro τ} {picks : List Nat} {idx : Nat}
    (linked : Linked start loop.S loop.ends picks) (distinct : (picks ++ [idx]).Nodup)
    (ended : start.links.next (.coro idx) = none) :
    Linked start (loop.link idx coro).S (loop.link idx coro).ends (picks ++ [idx]) := by
  have outside : Ref.coro idx ∉ picks.map .coro := by
    intro member
    exact disjoint_of_nodup_append distinct (by simpa using member) (mem_singleton_self idx)
  have ended : loop.S.links.next (.coro idx) = none := (linked.next _ outside).trans ended
  have status : ∀ C, update loop.S.status (.coro idx) .initial C =
      if C ∈ (picks ++ [idx]).map .coro then .initial else start.status C := by
    intro C
    rw [update_apply, linked.status]
    by_cases same : C = .coro idx
    · simp [same]
    · simp [same]
  obtain ⟨first, last⟩ := linked.ends
  obtain rfl | ⟨front, before, rfl⟩ := picks.eq_nil_or_concat'
  · cases nothing : loop.ends with
    | some ends => simp [nothing] at first
    | none =>
      simp only [Supplying.link, nothing]
      exact ⟨linked.fields, linked.prev, fun C other => linked.next C (by simp), status, ⟨ended, trivial⟩, rfl, rfl⟩
  · cases nonempty : loop.ends with
    | none => simp [nonempty] at last
    | some ends =>
      obtain ⟨H, L⟩ := ends
      rw [nonempty] at first last
      obtain rfl : L = before := by simpa using last
      simp only [Supplying.link, nonempty]
      refine ⟨linked.fields, linked.prev, ?_, status, ?_, ?_, ?_⟩
      · intro C other
        simp only [map_append, mem_append, not_or] at other
        have apart : C ≠ .coro L := fun same => other.1.2 (by simp [same])
        exact (update_of_ne apart ..).trans (linked.next C (by simpa using other.1))
      · rw [append_assoc]
        exact linked.chained.concat (by simpa using distinct) ended
      · rw [List.head?_append, ← first]
        rfl
      · simp

structure Slots (coro : SupexCoro τ) (S : Schedule Nat) (members : List Nat) : Prop where
  enough : coroQueueMinSlot ≤ coro.num
  cursor : coro.nxt < coro.num
  idle : ∀ id < coro.num, id ∉ members →
    coroutineUseable (S.status (.coro id)) = 0 ∧ S.links.next (.coro id) = none

def held (coro : SupexCoro τ) : List τ := if coro.has then [coro.temp] else []

structure Supplies (coro : SupexCoro τ) (S : Schedule Nat) (members : List Nat) (loop : Supplying τ)
    (picks : List Nat) : Prop where
  num : loop.coro.num = coro.num
  searched : ∃ walked, Searched coro.num coro.nxt members loop.coro.nxt picks walked
  linked : Linked S loop.S loop.ends picks
  tasks : held coro ++ loop.taken = picks.map loop.coro.task ++ held loop.coro

section supply

variable {coro : SupexCoro τ} {S : Schedule Nat} {members picks : List Nat} {loop : Supplying τ}

theorem useable_ready {status : Status} (ready : Ready status) : coroutineUseable status ≠ 0 := by
  obtain rfl | rfl := ready
  · decide
  · decide

section

variable (supplies : Supplies coro S members loop picks)

include supplies

theorem Supplies.fetch (slots : Slots coro S members)
    (ready : ∀ id ∈ members, Ready (S.status (.coro id))) (few : members.length + picks.length < coro.num) :
    ∃ idx walked, idleSearch loop.S loop.coro.num loop.coro.num loop.coro.nxt = .ok idx ∧
      S.links.next (.coro idx) = none ∧
      Searched coro.num coro.nxt members ((idx + 1) % loop.coro.num) (picks ++ [idx]) walked := by
  obtain ⟨walked, searched⟩ := supplies.searched
  have useable : ∀ id < coro.num, coroutineUseable (loop.S.status (.coro id)) = 0 ↔ id ∉ members := by
    intro id inside
    rw [supplies.linked.status]
    by_cases picked : id ∈ picks
    · rw [if_pos (mem_map_of_mem picked)]
      exact iff_of_true rfl (searched.absent id picked).2
    · rw [if_neg (by simpa using picked)]
      refine ⟨fun free member => useable_ready (ready id member) free, fun absent => (slots.idle id inside absent).1⟩
  obtain ⟨idx, further, found, searched⟩ := searched.next few useable
  have absent := searched.absent idx (by simp)
  rw [supplies.num]
  exact ⟨idx, further, found, (slots.idle idx absent.1 absent.2).2, searched⟩

theorem Supplies.link {idx walked : Nat}
    (searched : Searched coro.num coro.nxt members ((idx + 1) % loop.coro.num) (picks ++ [idx]) walked)
    (ended : S.links.next (.coro idx) = none) {temp : τ} {taken : List τ}
    (tasks : held coro ++ taken = picks.map loop.coro.task ++ [temp]) :
    Supplies coro S members (Supplying.link { loop with taken, coro := { loop.coro with temp } } idx
      { loop.coro with temp, has := false, nxt := (idx + 1) % loop.coro.num }) (picks ++ [idx]) := by
  have fresh : idx ∉ picks := fun member =>
    disjoint_of_nodup_append searched.distinct member (mem_singleton_self idx)
  refine ⟨supplies.num, ⟨walked, searched⟩, ?_, ?_⟩
  · exact @Linked.link τ S { loop with taken, coro := { loop.coro with temp } } _ picks idx supplies.linked
      searched.distinct ended
  · have same : picks.map (update loop.coro.task idx temp) = picks.map loop.coro.task := by
      refine map_congr_left ?_
      intro id member
      exact update_of_ne (ne_of_mem_of_not_mem member fresh) ..
    show held coro ++ taken = (picks ++ [idx]).map (update loop.coro.task idx temp) ++ []
    rw [tasks, map_append, same]
    simp

theorem Supplies.lookup (turn : Turn τ) :
    ∃ found temp taken, loop.lookup turn = (found, { loop with taken, coro := { loop.coro with temp } }) ∧
      (found = true → held coro ++ taken = picks.map loop.coro.task ++ [temp]) ∧
      (found = false → loop.coro.has = false ∧ held coro ++ taken = picks.map loop.coro.task) := by
  have tasks := supplies.tasks
  by_cases holding : loop.coro.has = true
  · refine ⟨true, loop.coro.temp, loop.taken, if_pos holding, ?_, by simp⟩
    simpa [held, holding] using tasks
  · simp only [held, if_neg holding, append_nil] at tasks
    refine ⟨turn.found, turn.addr, _, if_neg holding, ?_, ?_⟩
    · intro found
      rw [if_pos found, ← tasks, append_assoc]
      rfl
    · intro missing
      rw [if_neg (by simp [missing])]
      exact ⟨by simpa using holding, tasks⟩

end

theorem Supplies.supplyFrom (turns : Nat → Turn τ) {left count : Nat} (supplies : Supplies coro S members loop picks)
    (slots : Slots coro S members) (ready : ∀ id ∈ members, Ready (S.status (.coro id)))
    (low : members.length ≤ coroQueueLowSlot) (steps : picks.length + left ≤ coroQueueAddStep) :
    ∃ final chosen, Coro.supplyFrom turns left count loop = .ok final ∧ Supplies coro S members final chosen ∧
      chosen.length ≤ coroQueueAddStep := by
  induction left generalizing count loop picks with
  | zero => exact ⟨loop, picks, rfl, supplies, by simpa using steps⟩
  | succ left ih =>
    have few : picks.length < coroQueueAddStep := by omega
    obtain ⟨found, temp, taken, looked, nonempty, nothing⟩ := supplies.lookup (turns count)
    simp only [Coro.supplyFrom, looked]
    cases found with
    | false =>
      obtain ⟨free, tasks⟩ := nothing rfl
      refine ⟨_, picks, rfl, ⟨supplies.num, supplies.searched, supplies.linked, ?_⟩, few.le⟩
      simpa [held, free] using tasks
    | true =>
      have tasks := nonempty rfl
      cases (turns count).defer with
      | true =>
        refine ⟨_, picks, rfl, ⟨supplies.num, supplies.searched, supplies.linked, tasks⟩, few.le⟩
      | false =>
        have room : members.length + picks.length < coro.num := by
          have := slots.enough
          simp only [coroQueueMinSlot, coroQueueLowSlot, coroQueueAddStep] at this low few
          omega
        obtain ⟨idx, walked, fetched, ended, searched⟩ := supplies.fetch slots ready room
        simp only [supplyIdleFetch, fetched, ok_bind]
        exact ih (supplies.link searched ended tasks) (by simpa [Nat.add_assoc, Nat.add_comm 1] using steps)

theorem supplies_nil (slots : Slots coro S members) : Supplies coro S members ⟨coro, S, none, []⟩ [] := by
  refine ⟨rfl, ⟨0, Nat.zero_le _, ?_, nodup_nil, by simp, by simp, by simp⟩, ?_, ?_⟩
  · exact (Nat.mod_eq_of_lt slots.cursor).symm
  · exact ⟨⟨rfl, rfl, rfl⟩, rfl, fun C _ => rfl, fun C => rfl, trivial, rfl, rfl⟩
  · simp

theorem Idle.supplyCoroQueue (idle : Idle S members) (slots : Slots coro S members) (turns : Nat → Turn τ)
    (low : members.length ≤ coroQueueLowSlot) :
    ∃ loop picks, Coro.supplyCoroQueue turns coro S = .ok loop ∧ Supplies coro S members loop picks ∧
      picks.length ≤ coroQueueAddStep :=
  (supplies_nil slots).supplyFrom turns slots idle.ready low (by simp)

section

variable (supplies : Supplies coro S members loop picks)

include supplies

theorem Supplies.fresh : Fresh loop.S members picks := by
  obtain ⟨walked, searched⟩ := supplies.searched
  refine ⟨searched.distinct, fun id member => (searched.absent id member).2, ?_, supplies.linked.chained⟩
  intro id member
  rw [supplies.linked.status, if_pos (mem_map_of_mem member)]

theorem Supplies.idle (idle : Idle S members) : Idle loop.S members := by
  refine idle.congr supplies.linked.fields ?_
  intro C member
  have other : C ∉ picks.map .coro := by
    intro picked
    obtain ⟨id, chosen, rfl⟩ := mem_map.mp picked
    exact coro_notMem (supplies.fresh.absent id chosen) member
  exact ⟨supplies.linked.next C other, by rw [supplies.linked.prev], by rw [supplies.linked.status, if_neg other]⟩

theorem Supplies.head : (loop.ends.map fun ends => Ref.coro ends.1) = picks.head?.map .coro := by
  rw [← supplies.linked.ends.1, Option.map_map]
  rfl

end

end supply

def Cycle.past : Cycle Nat → List Nat
  | .idle members => members
  | .busy before _ _ => before

def waiting (coro : SupexCoro τ) (S : Schedule Nat) (members : List Nat) : List τ :=
  (members.filter fun id => S.status (.coro id) = .enabled).map coro.task

structure Serves (worker : Worker τ) (cycle : Cycle Nat) : Prop where
  stands : Shows (worker.S, worker.context) cycle
  slots : Slots worker.coro worker.S cycle.members
  past : ∀ id ∈ cycle.past, worker.S.status (.coro id) = .suspend

section turn

variable {coro : SupexCoro τ} {S T : Schedule Nat} {before after members : List Nat}
    {state : Schedule Nat × Context Nat}

section

variable (turned : Turned T (Cycle.turn before after) state)

include turned

theorem Turned.nodup : (before ++ after).Nodup := by
  have distinct := turned.showing.ring.nodup
  rwa [members_turn] at distinct

theorem Turned.status_before {id : Nat} (member : id ∈ before) : state.1.status (.coro id) = T.status (.coro id) := by
  rw [turned.status, if_neg]
  cases after with
  | nil => simp [Cycle.turn]
  | cons current rest =>
    rintro ⟨⟩
    exact disjoint_of_nodup_append turned.nodup member (by simp)

theorem Turned.serves (slots : Slots coro T (before ++ after))
    (past : ∀ id ∈ before, T.status (.coro id) = .suspend) :
    Serves ⟨coro, state.1, state.2⟩ (Cycle.turn before after).1 := by
  refine ⟨turned.showing, ⟨slots.enough, slots.cursor, ?_⟩, ?_⟩
  · intro id inside outside
    rw [members_turn] at outside
    rw [turned.links, turned.status, if_neg]
    · exact slots.idle id inside outside
    · cases after with
      | nil => simp [Cycle.turn]
      | cons current rest =>
        rintro ⟨⟩
        exact outside (by simp)
  · intro id member
    have old : id ∈ before := by
      cases after with
      | nil => exact member
      | cons current rest => exact member
    show state.1.status (.coro id) = .suspend
    rw [turned.status_before old]
    exact past id old

theorem Turned.waiting (past : ∀ id ∈ before, T.status (.coro id) = .suspend)
    (same : ∀ id ∈ after, S.status (.coro id) = T.status (.coro id)) :
    Coro.waiting coro S after = started coro S state.2 ++ Coro.waiting coro state.1 (before ++ after) := by
  have old : before.filter (fun id => state.1.status (.coro id) = .enabled) = [] := by
    refine filter_eq_nil_iff.mpr ?_
    intro id member
    simp [turned.status_before member, past id member]
  obtain ⟨next, context⟩ := state
  have resumed := turned.resumed
  cases after with
  | nil =>
    cases context with
    | running id => cases resumed
    | supply => simpa [Coro.waiting, started] using old
  | cons current rest =>
    cases context with
    | supply => cases resumed
    | running id =>
      obtain rfl : id = current := Option.some.inj resumed
      have distinct := turned.nodup
      rw [nodup_middle, nodup_cons] at distinct
      have later : ∀ other ∈ rest, next.status (.coro other) = S.status (.coro other) := by
        intro other member
        rw [same other (mem_cons_of_mem _ member)]
        refine (turned.status other).trans (if_neg ?_)
        rintro ⟨⟩
        exact distinct.1 (mem_append_right before member)
      have runs : next.status (.coro id) = .running := (turned.status id).trans (if_pos rfl)
      have tail : rest.filter (fun id => next.status (.coro id) = .enabled) =
          rest.filter (fun id => S.status (.coro id) = .enabled) :=
        filter_congr fun other member => by rw [later other member]
      simp only [Coro.waiting, started, filter_append, old, filter_cons, runs, tail, nil_append]
      by_cases enabled : S.status (.coro id) = .enabled
      · simp [enabled]
      · simp [enabled]

end

end turn

variable {worker : Worker τ}

section work

variable {coro : SupexCoro τ} {S : Schedule Nat} {before after members : List Nat} {current : Nat}

theorem waiting_append (coro : SupexCoro τ) (S : Schedule Nat) (front back : List Nat) :
    waiting coro S (front ++ back) = waiting coro S front ++ waiting coro S back := by
  simp [waiting]

theorem waiting_eq_nil (other : ∀ id ∈ members, S.status (.coro id) ≠ .enabled) : waiting coro S members = [] := by
  rw [waiting, map_eq_nil_iff, filter_eq_nil_iff]
  simpa using other

theorem waiting_suspend (past : ∀ id ∈ members, S.status (.coro id) = .suspend) : waiting coro S members = [] :=
  waiting_eq_nil fun id member => by simp [past id member]

def pending (worker : Worker τ) (members : List Nat) : List τ :=
  waiting worker.coro worker.S members ++ held worker.coro

def Conserves (worker : Worker τ) (members : List Nat) (act : Act τ) : Prop :=
  ∃ next answer cycle, work worker act = .ok (next, answer) ∧ Serves next cycle ∧
    pending worker members ++ answer.1 = answer.2 ++ pending next cycle.members

theorem Idle.supply (idle : Idle S members) (slots : Slots coro S members)
    (past : ∀ id ∈ members, S.status (.coro id) = .suspend) (turns : Nat → Turn τ) :
    Conserves ⟨coro, S, .supply⟩ members (.supply turns) := by
  have nothing : waiting coro S members = [] := waiting_suspend past
  by_cases low : members.length ≤ coroQueueLowSlot
  · have few : S.nubs ≤ coroQueueLowSlot := by
      rw [idle.ring.count]
      exact_mod_cast low
    obtain ⟨loop, picks, supplied, supplies, short⟩ := idle.supplyCoroQueue slots turns low
    obtain ⟨pushed, pushes, idle, status, links⟩ := (supplies.idle idle).pushChain supplies.fresh
      (Nat.le_succ_of_le short)
    obtain ⟨state, first, turned⟩ := idle.loopFirst
    have old : ∀ id, id ∉ picks → pushed.status (.coro id) = S.status (.coro id) := by
      intro id other
      rw [status, if_neg other, supplies.linked.status, if_neg (by simpa using other)]
    have enabled : waiting loop.coro pushed (members ++ picks) = picks.map loop.coro.task := by
      rw [waiting_append, waiting_suspend, nil_append, waiting, filter_eq_self.mpr]
      · intro id member
        simp [status, member]
      · intro id member
        rw [old id fun picked => supplies.fresh.absent id picked member]
        exact past id member
    have slots : Slots loop.coro pushed (members ++ picks) := by
      obtain ⟨walked, searched⟩ := supplies.searched
      refine ⟨supplies.num ▸ slots.enough, ?_, ?_⟩
      · rw [supplies.num, searched.cursor]
        exact Nat.mod_lt _ (Nat.zero_lt_of_lt slots.cursor)
      · intro id inside outside
        have other : id ∉ members ∧ id ∉ picks := by simpa using outside
        rw [old id other.2, links id outside, supplies.linked.next _ (by simpa using other.2)]
        exact slots.idle id (supplies.num ▸ inside) other.1
    refine ⟨⟨loop.coro, state.1, state.2⟩, (loop.taken, started loop.coro pushed state.2), _, ?_,
      turned.serves slots (by simp), ?_⟩
    · simp only [work, if_pos few, supplied, ok_bind, supplies.head, pushes, first]
      rfl
    · have starts := @Turned.waiting τ loop.coro pushed pushed [] _ state turned (by simp) (fun id _ => rfl)
      rw [members_turn, pending, pending, nothing, nil_append, supplies.tasks, ← append_assoc, ← enabled, starts]
  · have many : ¬ S.nubs ≤ coroQueueLowSlot := by
      rw [idle.ring.count]
      exact_mod_cast low
    obtain ⟨state, first, turned⟩ := idle.loopFirst
    refine ⟨⟨coro, state.1, state.2⟩, ([], started coro S state.2), _, ?_, turned.serves slots (by simp), ?_⟩
    · simp only [work, if_neg many, first]
      rfl
    · have starts := @Turned.waiting τ coro S S [] _ state turned (by simp) (fun id _ => rfl)
      rw [members_turn, pending, pending, ← append_assoc, append_nil, starts]

section

variable (busy : Busy S before current after)

include busy

theorem Busy.waiting (past : ∀ id ∈ before, S.status (.coro id) = .suspend) :
    Coro.waiting coro S (before ++ current :: after) = Coro.waiting coro S after := by
  have running : ∀ id ∈ [current], S.status (.coro id) ≠ .enabled := by
    intro id member
    rw [mem_singleton.mp member, busy.running]
    decide
  rw [← singleton_append, waiting_append, waiting_append, waiting_suspend past, waiting_eq_nil running]
  rfl

theorem Busy.switch (slots : Slots coro S (before ++ current :: after))
    (past : ∀ id ∈ before, S.status (.coro id) = .suspend) :
    Conserves ⟨coro, S, .running current⟩ (before ++ current :: after) .switch := by
  obtain ⟨state, switched, turned⟩ := busy.coroutineSwitch
  have distinct := busy.ring.nodup
  rw [nodup_middle, nodup_cons] at distinct
  have same : ∀ id, id ≠ current → (yield S (.coro current)).status (.coro id) = S.status (.coro id) :=
    fun id other => yield_status (by simpa using other)
  have suspended : ∀ id ∈ before ++ [current], (yield S (.coro current)).status (.coro id) = .suspend := by
    intro id member
    by_cases self : id = current
    · rw [self]
      exact update_self ..
    · rw [same id self]
      exact past id (by simpa [self] using member)
  have slots : Slots coro (yield S (.coro current)) (before ++ [current] ++ after) := by
    refine ⟨slots.enough, slots.cursor, ?_⟩
    intro id inside outside
    have outside : id ∉ before ++ current :: after := by simpa using outside
    rw [same id fun self => outside (by simp [self])]
    exact slots.idle id inside outside
  have starts := @Turned.waiting τ coro S _ _ _ state turned suspended ?_
  · refine ⟨⟨coro, state.1, state.2⟩, ([], started coro S state.2), _, ?_, turned.serves slots suspended, ?_⟩
    · simp only [work, switched]
      rfl
    · rw [members_turn, pending, pending, busy.waiting past, starts, append_nil, append_assoc]
  · intro id member
    refine (same id ?_).symm
    rintro rfl
    exact distinct.1 (mem_append_right before member)

theorem Busy.finish (slots : Slots coro S (before ++ current :: after))
    (past : ∀ id ∈ before, S.status (.coro id) = .suspend) :
    Conserves ⟨coro, S, .running current⟩ (before ++ current :: after) .finish := by
  obtain ⟨state, popped, finished, turned, status, ended, links⟩ := busy.taskOver
  have distinct := busy.ring.nodup
  rw [nodup_middle, nodup_cons] at distinct
  have same : ∀ id, id ≠ current → popped.status (.coro id) = S.status (.coro id) := by
    intro id other
    rw [status, update_of_ne (by simpa using other)]
  have others : ∀ id ∈ before ++ after, id ≠ current := fun id member self => distinct.1 (self ▸ member)
  have suspended : ∀ id ∈ before, popped.status (.coro id) = .suspend := by
    intro id member
    rw [same id (others id (by simp [member]))]
    exact past id member
  have slots : Slots coro popped (before ++ after) := by
    refine ⟨slots.enough, slots.cursor, ?_⟩
    intro id inside outside
    by_cases self : id = current
    · rw [self, status, ended, update_self]
      exact ⟨rfl, rfl⟩
    · have outside : id ∉ before ++ current :: after := by simpa [self] using outside
      rw [same id self, links id outside]
      exact slots.idle id inside outside
  have starts := @Turned.waiting τ coro S _ _ _ state turned suspended ?_
  · refine ⟨⟨coro, state.1, state.2⟩, ([], started coro S state.2), _, ?_, turned.serves slots suspended, ?_⟩
    · simp only [work, finished]
      rfl
    · rw [members_turn, pending, pending, busy.waiting past, starts, append_nil, append_assoc]
  · intro id member
    exact (same id (others id (by simp [member]))).symm

end

theorem Serves.work {cycle : Cycle Nat} (serves : Serves worker cycle) (act : Act τ) :
    Conserves worker cycle.members act := by
  have idle : Coro.work worker act = .ok (worker, ([], [])) → Conserves worker cycle.members act := fun passed =>
    ⟨worker, ([], []), cycle, passed, serves, by simp⟩
  obtain ⟨coro, S, _ | running⟩ := worker
  · cases cycle with
    | busy before current after => exact serves.stands.elim
    | idle members =>
      cases act with
      | supply turns => exact Idle.supply serves.stands serves.slots serves.past turns
      | switch => exact idle rfl
      | finish => exact idle rfl
  · cases cycle with
    | idle members => exact serves.stands.elim
    | busy before current after =>
      obtain ⟨rfl, busy⟩ := serves.stands
      cases act with
      | supply turns => exact idle rfl
      | switch => exact busy.switch serves.slots serves.past
      | finish => exact busy.finish serves.slots serves.past

end work

theorem Serves.run {cycle : Cycle Nat} (serves : Serves worker cycle) (acts : List (Act τ)) :
    ∃ final answers after, run Coro.work worker acts = .ok (final, answers) ∧ Serves final after ∧
      pending worker cycle.members ++ answers.flatMap Prod.fst =
        answers.flatMap Prod.snd ++ pending final after.members := by
  induction acts generalizing worker cycle with
  | nil => exact ⟨worker, [], cycle, rfl, serves, by simp⟩
  | cons act acts ih =>
    obtain ⟨next, answer, middle, stepEq, serves, conserved⟩ := serves.work act
    obtain ⟨final, answers, after, runEq, serves, later⟩ := ih serves
    refine ⟨final, answer :: answers, after, run_cons stepEq runEq, serves, ?_⟩
    rw [flatMap_cons, flatMap_cons, ← append_assoc, conserved, append_assoc, later,
      append_assoc]

theorem init_slots (S : Schedule Nat) (ids : List Nat) {id : Nat} (member : id ∈ ids) :
    let opened := ids.foldl (fun S id => coroutineInit S (.coro id)) S
    opened.status (.coro id) = .initial ∧ opened.links.next (.coro id) = none := by
  induction ids using List.reverseRecOn with
  | nil => simp at member
  | append_singleton ids last ih =>
    simp only [foldl_append, foldl_cons, foldl_nil]
    by_cases same : id = last
    · subst same
      exact ⟨update_self .., update_self ..⟩
    · have apart : Ref.coro id ≠ .coro last := by simpa using same
      obtain ⟨status, next⟩ := ih (by simpa [same] using member)
      exact ⟨(update_of_ne apart ..).trans status, (update_of_ne apart ..).trans next⟩

theorem serves_open {coro : SupexCoro τ} (enough : coroQueueMinSlot ≤ coro.num) (cursor : coro.nxt < coro.num)
    (S : Schedule Nat) : Serves (supexCoroOpen coro S) (.idle []) := by
  refine ⟨shows_start _, ⟨enough, cursor, ?_⟩, by simp [Cycle.past]⟩
  intro id inside _
  obtain ⟨status, next⟩ := init_slots S (List.range coro.num) (mem_range.mpr inside)
  have other : Ref.coro id ≠ .main := by simp
  refine ⟨?_, (update_of_ne other (some .main) _).trans next⟩
  exact congrArg coroutineUseable status

def ReturnsChain (coro : SupexCoro τ) (S : Schedule Nat) (members : List Nat) (turns : Nat → Turn τ) : Prop :=
  ∃ loop chain, supplyCoroQueue turns coro S = .ok loop ∧ loop.ends.map Prod.fst = chain.head? ∧
    Chained loop.S.links chain ∧ chain.Nodup ∧ ∀ id ∈ chain, id < coro.num ∧ id ∉ members

theorem Serves.returnsChain {cycle : Cycle Nat} (serves : Serves worker cycle)
    (supply : worker.context = .supply) (low : worker.S.nubs ≤ coroQueueLowSlot) (turns : Nat → Turn τ) :
    ReturnsChain worker.coro worker.S cycle.members turns := by
  obtain ⟨members, rfl⟩ := serves.stands.idle supply
  have idle : Idle worker.S members := by
    have stands := serves.stands
    rw [supply] at stands
    exact stands
  have few : members.length ≤ coroQueueLowSlot := by
    rw [idle.ring.count] at low
    exact_mod_cast low
  obtain ⟨loop, picks, supplied, supplies, _⟩ := idle.supplyCoroQueue serves.slots turns few
  obtain ⟨walked, searched⟩ := supplies.searched
  exact ⟨loop, picks, supplied, supplies.linked.ends.1, supplies.linked.chained, searched.distinct, searched.absent⟩

end Libucmq.Coro
