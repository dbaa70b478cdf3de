import Mathlib.Data.List.Nodup
import Mathlib.Data.List.Perm.Subperm
import Libucmq.Library.Exclusive
import Libucmq.Library.Machine
import Libucmq.Library.Outcome

/-! The slots that count how many workers have finished a task. -/

namespace Libucmq.Swift

open List Machine

inductive Fault where
  | busy
  | assertion
  deriving DecidableEq, Repr

abbrev maxSwiftHttpNumber : Nat := 500000

abbrev maxSwiftQueueNumber : Nat := maxSwiftHttpNumber + 5 + 1

abbrev Slot : Type := Fin maxSwiftQueueNumber

abbrev taskIdUnuse : Int := 0

abbrev taskIdInuse : Int := 1

structure ShareTaskView where
  workerAffect : Int
  workerFinish : Int
  taskerAffect : Int
  taskerFinish : Int
  cntl : Int
  deriving DecidableEq, Repr

inductive Origin where
  | http
  | redis
  | init
  | msmq
  | time
  | unknown
  deriving DecidableEq, Repr

inductive TaskType where
  | alone
  | whole
  | unknown
  deriving DecidableEq, Repr

structure Registration where
  origin : Origin
  type : TaskType
  workers : Int
  taskers : Int
  mark : Slot

def Registration.workerAffect (task : Registration) : Int := if task.type = .alone then 1 else task.workers

def Registration.taskerAffect (task : Registration) : Int := if task.type = .alone then 1 else task.taskers

inductive Rgst where
  | take (i : Slot)
  | workerFinish (id : Slot)
  | taskerFinish (id : Slot)
  | workerAffect (id : Slot)
  | taskerAffect (id : Slot)
  | giveBack (id : Slot)
  | returned (id : Option Slot)
  deriving DecidableEq, Repr

def firstShared : Slot := ⟨maxSwiftHttpNumber, by decide⟩

def Registration.enter (task : Registration) : Rgst :=
  match task.origin with
  | .http | .redis => .take task.mark
  | .init | .msmq | .time => .take firstShared
  | .unknown => .returned none

def taken (task : Registration) (i : Slot) : Except Fault Rgst :=
  match task.origin with
  | .http | .redis => .error .busy
  | _ => if inside : i + 1 < maxSwiftQueueNumber then .ok (.take ⟨i + 1, inside⟩) else .ok (.returned none)

def swiftTaskRgst (task : Registration) : Rgst → ShareTaskView → Except Fault (Rgst × ShareTaskView)
  | .take i, view =>
    if view.cntl = taskIdUnuse then .ok (.workerFinish i, { view with cntl := taskIdInuse })
    else (taken task i).map fun next => (next, view)
  | .workerFinish id, view => .ok (.taskerFinish id, { view with workerFinish := 0 })
  | .taskerFinish id, view =>
    .ok (if task.type = .unknown then .giveBack id else .workerAffect id, { view with taskerFinish := 0 })
  | .workerAffect id, view => .ok (.taskerAffect id, { view with workerAffect := task.workerAffect })
  | .taskerAffect id, view => .ok (.returned (some id), { view with taskerAffect := task.taskerAffect })
  | .giveBack _, view =>
    if view.cntl = taskIdInuse then .ok (.returned none, { view with cntl := taskIdUnuse }) else .error .assertion
  | .returned id, view => .ok (.returned id, view)

def Rgst.slot : Rgst → Option Slot
  | .take i => some i
  | .workerFinish id | .taskerFinish id | .workerAffect id | .taskerAffect id | .giveBack id => some id
  | .returned _ => none

inductive Over where
  | check
  | read
  | add (max : Int)
  | workerFinish
  | workerAffect
  | taskerFinish
  | taskerAffect
  | free
  | returned (left : Int)
  deriving DecidableEq, Repr

def swiftTaskOver : Over → ShareTaskView → Except Fault (Over × ShareTaskView)
  | .check, view => if view.cntl = taskIdInuse then .ok (.read, view) else .error .assertion
  | .read, view => .ok (.add view.workerAffect, view)
  | .add max, view =>
    .ok (if 0 < max ∧ view.workerFinish = max - 1 then .workerFinish else .returned (max - view.workerFinish),
      { view with workerFinish := view.workerFinish + 1 })
  | .workerFinish, view => .ok (.workerAffect, { view with workerFinish := 0 })
  | .workerAffect, view => .ok (.taskerFinish, { view with workerAffect := 0 })
  | .taskerFinish, view => .ok (.taskerAffect, { view with taskerFinish := 0 })
  | .taskerAffect, view => .ok (.free, { view with taskerAffect := 0 })
  | .free, view =>
    if view.cntl = taskIdInuse then .ok (.returned 0, { view with cntl := taskIdUnuse }) else .error .assertion
  | .returned left, view => .ok (.returned left, view)

/-- One registration and its workers, with the order of their additions. -/
structure Part where
  rgst : Rgst
  calls : Nat → Over
  arrived : List Nat

structure System (ρ : Type) where
  view : Slot → ShareTaskView
  part : ρ → Part

inductive Event (ρ : Type) where
  | rgst (party : ρ)
  | over (party : ρ) (worker : Nat)
  deriving DecidableEq, Repr

def Over.adds : Over → Bool
  | .add _ => true
  | _ => false

def Part.call (part : Part) (worker : Nat) (next : Over) : Part :=
  { part with
    calls := Function.update part.calls worker next
    arrived := if (part.calls worker).adds then part.arrived ++ [worker] else part.arrived }

def Registration.count (task : Registration) : Nat := task.workerAffect.toNat

section step

variable {ρ : Type} [DecidableEq ρ]

def System.set (system : System ρ) (party : ρ) (part : Part) (slot : Slot) (view : ShareTaskView) : System ρ :=
  ⟨Function.update system.view slot view, Function.update system.part party part⟩

/-- `swift_task_over` is called only once a slot has been returned. -/
def step (tasks : ρ → Registration) (system : System ρ) : Event ρ → Except Fault (System ρ × Unit)
  | .rgst party =>
    match (system.part party).rgst.slot with
    | none => .ok (system, ())
    | some slot => do
      let (next, view) ← swiftTaskRgst (tasks party) (system.part party).rgst (system.view slot)
      return (system.set party { system.part party with rgst := next } slot view, ())
  | .over party worker =>
    match (system.part party).rgst with
    | .returned (some id) =>
      if worker < (tasks party).count then do
        let (next, view) ← swiftTaskOver ((system.part party).calls worker) (system.view id)
        return (system.set party ((system.part party).call worker next) id view, ())
      else .ok (system, ())
    | _ => .ok (system, ())

def freeView : ShareTaskView := ⟨0, 0, 0, 0, taskIdUnuse⟩

def startPart (task : Registration) : Part := ⟨task.enter, fun _ => .check, []⟩

def start (tasks : ρ → Registration) : System ρ := ⟨fun _ => freeView, fun party => startPart (tasks party)⟩

end step

def usedView : ShareTaskView := ⟨0, 0, 0, 0, taskIdInuse⟩

structure Counted (task : Registration) (part : Part) : Prop where
  distinct : part.arrived.Nodup
  inside : ∀ worker ∈ part.arrived, worker < task.count
  early : ∀ place worker, part.arrived[place]? = some worker → place + 1 < task.count →
    part.calls worker = .returned (task.workerAffect - place)
  later : ∀ worker, worker ∉ part.arrived →
    part.calls worker = .check ∨ part.calls worker = .read ∨ part.calls worker = .add task.workerAffect

def closing (task : Registration) (part : Part) : Option Over :=
  if part.arrived.length = task.count then part.arrived.getLast?.map part.calls else none

def closingView (task : Registration) : Over → Option ShareTaskView
  | .workerFinish => some ⟨task.workerAffect, task.workerAffect, task.taskerAffect, 0, taskIdInuse⟩
  | .workerAffect => some ⟨task.workerAffect, 0, task.taskerAffect, 0, taskIdInuse⟩
  | .taskerFinish | .taskerAffect => some ⟨0, 0, task.taskerAffect, 0, taskIdInuse⟩
  | .free => some usedView
  | _ => none

def countingView (task : Registration) (part : Part) : Option ShareTaskView :=
  match closing task part with
  | none => some ⟨task.workerAffect, part.arrived.length, task.taskerAffect, 0, taskIdInuse⟩
  | some call => closingView task call

section counting

variable {task : Registration} {part : Part} {worker : Nat} {view : ShareTaskView}

theorem Counted.length_le (counted : Counted task part) : part.arrived.length ≤ task.count := by
  have inside : part.arrived ⊆ List.range task.count := fun worker member =>
    mem_range.mpr (counted.inside worker member)
  simpa using (subperm_of_subset counted.distinct inside).length_le

theorem Counted.all_arrived (counted : Counted task part) (full : part.arrived.length = task.count)
    (inside : worker < task.count) : worker ∈ part.arrived := by
  have subset : part.arrived ⊆ List.range task.count := fun worker member =>
    mem_range.mpr (counted.inside worker member)
  have perm := (subperm_of_subset counted.distinct subset).perm_of_length_le (by simp [full])
  exact perm.mem_iff.mpr (mem_range.mpr inside)

theorem Counted.arrived_cases (counted : Counted task part) (member : worker ∈ part.arrived) :
    (∃ left, left ≠ 0 ∧ part.calls worker = .returned left) ∨
      part.arrived.length = task.count ∧ part.arrived.getLast? = some worker := by
  obtain ⟨place, found⟩ := mem_iff_getElem?.mp member
  obtain ⟨below, same⟩ := List.getElem?_eq_some_iff.mp found
  have short := counted.length_le
  by_cases early : place + 1 < task.count
  · refine .inl ⟨_, ?_, counted.early place worker found early⟩
    rw [Registration.count] at early
    omega
  · have last : place = part.arrived.length - 1 := by omega
    refine .inr ⟨by omega, ?_⟩
    rw [List.getLast?_eq_getElem?, ← last, found]

theorem closing_last (full : part.arrived.length = task.count) (last : part.arrived.getLast? = some worker) :
    closing task part = some (part.calls worker) := by
  rw [closing, if_pos full, last]
  rfl

theorem closing_some {call : Over} (ends : closing task part = some call) :
    part.arrived.length = task.count ∧ ∃ worker, part.calls worker = call := by
  unfold closing at ends
  split at ends
  · obtain ⟨worker, _, same⟩ := Option.map_eq_some_iff.mp ends
    exact ⟨by assumption, worker, same⟩
  · cases ends

theorem call_returned {left : Int} (returned : part.calls worker = .returned left) :
    part.call worker (.returned left) = part := by
  rw [Part.call, ← returned, Function.update_eq_self, returned]
  rfl

theorem Counted.update (counted : Counted task part) {next : Over} (quiet : (part.calls worker).adds = false)
    (before : worker ∉ part.arrived → next = .read ∨ next = .add task.workerAffect)
    (after : worker ∈ part.arrived → part.arrived.length = task.count ∧ part.arrived.getLast? = some worker) :
    Counted task (part.call worker next) ∧ (part.call worker next).arrived = part.arrived := by
  have arrived : (part.call worker next).arrived = part.arrived := if_neg (by simp [quiet])
  refine ⟨⟨?_, ?_, ?_, ?_⟩, arrived⟩
  · rw [arrived]
    exact counted.distinct
  · rw [arrived]
    exact counted.inside
  · intro place other found early
    rw [arrived] at found
    have apart : other ≠ worker := by
      rintro rfl
      obtain ⟨full, last⟩ := after (mem_iff_getElem?.mpr ⟨place, found⟩)
      rw [List.getLast?_eq_getElem?, ← found] at last
      obtain ⟨below, _⟩ := List.getElem?_eq_some_iff.mp found
      have := (List.getElem?_inj (by omega) counted.distinct).mp last
      omega
    exact (Function.update_of_ne apart ..).trans (counted.early place other found early)
  · intro other absent
    rw [arrived] at absent
    by_cases same : other = worker
    · subst same
      refine .inr ?_
      rw [show (part.call other next).calls other = next from Function.update_self ..]
      exact before absent
    · rw [show (part.call worker next).calls other = part.calls other from Function.update_of_ne same ..]
      exact counted.later other absent

theorem Counted.arrive (counted : Counted task part) {next : Over} (adds : (part.calls worker).adds = true)
    (inside : worker < task.count) (absent : worker ∉ part.arrived)
    (value : part.arrived.length + 1 < task.count → next = .returned (task.workerAffect - part.arrived.length)) :
    Counted task (part.call worker next) ∧ (part.call worker next).arrived = part.arrived ++ [worker] := by
  have arrived : (part.call worker next).arrived = part.arrived ++ [worker] := if_pos adds
  have others : ∀ other, other ≠ worker → (part.call worker next).calls other = part.calls other :=
    fun other apart => Function.update_of_ne apart ..
  refine ⟨⟨?_, ?_, ?_, ?_⟩, arrived⟩
  · rw [arrived]
    exact nodup_append_comm.mp (nodup_cons.mpr ⟨absent, counted.distinct⟩)
  · intro other member
    rw [arrived, mem_append, mem_singleton] at member
    obtain old | rfl := member
    · exact counted.inside other old
    · exact inside
  · intro place other found early
    rw [arrived, List.getElem?_append] at found
    split at found
    · have apart : other ≠ worker := fun same => absent (same ▸ mem_iff_getElem?.mpr ⟨place, found⟩)
      rw [others other apart]
      exact counted.early place other found early
    · obtain ⟨below, rfl⟩ := List.getElem?_eq_some_iff.mp found
      have last : place = part.arrived.length := by
        rw [length_singleton] at below
        omega
      subst last
      simp only [getElem_singleton]
      exact (Function.update_self ..).trans (value early)
  · intro other missing
    rw [arrived, mem_append, mem_singleton, not_or] at missing
    rw [others other missing.2]
    exact counted.later other missing.1

def Counts (task : Registration) (part : Part) (view : ShareTaskView) : Prop :=
  Counted task part ∧
    (countingView task part = some view ∨ view = freeView ∧ closing task part = some (.returned 0))

theorem countingView_of_length {next : Part} (same : next.arrived = part.arrived)
    (nonempty : part.arrived.length ≠ task.count) : countingView task next = countingView task part := by
  simp only [countingView, closing, same, if_neg nonempty]

section

variable (counted : Counted task part)

include counted

section

variable (shown : countingView task part = some view)

include shown

theorem Counted.over_waiting (inside : worker < task.count) (absent : worker ∉ part.arrived) :
    ∃ next after, swiftTaskOver (part.calls worker) view = .ok (next, after) ∧
      Counts task (part.call worker next) after := by
  have nonempty : part.arrived.length ≠ task.count := fun full => absent (counted.all_arrived full inside)
  have short := counted.length_le
  obtain rfl : ⟨task.workerAffect, part.arrived.length, task.taskerAffect, 0, taskIdInuse⟩ = view := by
    simpa only [countingView, closing, if_neg nonempty, Option.some.injEq] using shown
  obtain check | read | add := counted.later worker absent
  · obtain ⟨kept, same⟩ := @Counted.update task part worker counted .read (by rw [check]; rfl) (fun _ => .inl rfl)
      (fun member => absurd member absent)
    refine ⟨.read, _, by rw [check]; rfl, kept, .inl ?_⟩
    rw [countingView_of_length same nonempty, shown]
  · obtain ⟨kept, same⟩ := @Counted.update task part worker counted (.add task.workerAffect) (by rw [read]; rfl)
      (fun _ => .inr rfl) (fun member => absurd member absent)
    refine ⟨.add task.workerAffect, _, by rw [read]; rfl, kept, .inl ?_⟩
    rw [countingView_of_length same nonempty, shown]
  · have count : (task.count : Int) = task.workerAffect := by
      rw [Registration.count, Int.toNat_of_nonneg]
      rw [Registration.count] at inside
      omega
    have adds : (part.calls worker).adds = true := by rw [add]; rfl
    by_cases last : part.arrived.length + 1 = task.count
    · obtain ⟨kept, arrived⟩ := @Counted.arrive task part worker counted .workerFinish adds inside absent (by omega)
      have rest : 0 < task.workerAffect ∧ (part.arrived.length : Int) = task.workerAffect - 1 := by omega
      refine ⟨.workerFinish, ⟨task.workerAffect, part.arrived.length + 1, task.taskerAffect, 0, taskIdInuse⟩, ?_, kept,
        .inl ?_⟩
      · rw [add, swiftTaskOver, if_pos rest]
      · have ends : closing task (part.call worker .workerFinish) = some .workerFinish := by
          rw [closing_last (by simp [arrived, last]) (by rw [arrived, List.getLast?_concat])]
          exact congrArg some (Function.update_self ..)
        have shown : countingView task (part.call worker .workerFinish) = closingView task .workerFinish := by
          rw [countingView, ends]
        rw [shown, rest.2, Int.sub_add_cancel]
        rfl
    · have more : ¬ (0 < task.workerAffect ∧ (part.arrived.length : Int) = task.workerAffect - 1) := by omega
      obtain ⟨kept, arrived⟩ := @Counted.arrive task part worker counted
        (.returned (task.workerAffect - part.arrived.length)) adds inside absent (fun _ => rfl)
      refine ⟨.returned (task.workerAffect - part.arrived.length),
        ⟨task.workerAffect, part.arrived.length + 1, task.taskerAffect, 0, taskIdInuse⟩, ?_, kept, .inl ?_⟩
      · rw [add, swiftTaskOver, if_neg more]
      · rw [countingView, closing, if_neg (by simp [arrived, last]), arrived]
        simp

theorem Counted.over_arrived (member : worker ∈ part.arrived) :
    ∃ next after, swiftTaskOver (part.calls worker) view = .ok (next, after) ∧
      Counts task (part.call worker next) after := by
  obtain ⟨left, _, returned⟩ | ⟨full, last⟩ := counted.arrived_cases member
  · refine ⟨.returned left, view, by rw [returned]; rfl, ?_⟩
    rw [call_returned returned]
    exact ⟨counted, .inl shown⟩
  · have ends := closing_last full last
    rw [countingView, ends] at shown
    have goes : ∀ next after, (part.calls worker).adds = false →
      swiftTaskOver (part.calls worker) view = .ok (next, after) →
        (closingView task next = some after ∨ after = freeView ∧ next = .returned 0) →
        ∃ next after, swiftTaskOver (part.calls worker) view = .ok (next, after) ∧
          Counts task (part.call worker next) after := by
      intro next after quiet accessed result
      obtain ⟨kept, arrived⟩ := @Counted.update task part worker counted next quiet (fun absent => absurd member absent)
        (fun _ => ⟨full, last⟩)
      have ends : closing task (part.call worker next) = some next := by
        rw [closing_last (by rw [arrived, full]) (by rw [arrived, last])]
        exact congrArg some (Function.update_self ..)
      refine ⟨next, after, accessed, kept, ?_⟩
      rw [countingView, ends]
      exact result.imp_right (And.imp_right (congrArg some))
    generalize part.calls worker = call at shown goes ⊢
    cases call with
    | check | read | add max | returned left => cases shown
    | workerFinish | workerAffect | taskerFinish | taskerAffect =>
      cases shown
      exact goes _ _ rfl rfl (.inl rfl)
    | free =>
      cases shown
      exact goes _ freeView rfl rfl (.inr ⟨rfl, rfl⟩)

theorem Counted.over (inside : worker < task.count) :
    ∃ next after, swiftTaskOver (part.calls worker) view = .ok (next, after) ∧
      Counts task (part.call worker next) after := by
  by_cases member : worker ∈ part.arrived
  · exact counted.over_arrived shown member
  · exact counted.over_waiting shown inside member

end

theorem Counted.closed (ended : closing task part = some (.returned 0))
    (inside : worker < task.count) : ∃ left, part.calls worker = .returned left := by
  have full := (closing_some ended).1
  obtain ⟨left, _, found⟩ | ⟨_, last⟩ := counted.arrived_cases (counted.all_arrived full inside)
  · exact ⟨left, found⟩
  · rw [closing_last full last] at ended
    exact ⟨0, Option.some.inj ended⟩

end

end counting

def Part.Fresh (part : Part) : Prop := part.calls = (fun _ => .check) ∧ part.arrived = []

def Registration.Connection (task : Registration) : Prop := task.origin = .http ∨ task.origin = .redis

def Rgst.filling (task : Registration) : Rgst → Option (Slot × ShareTaskView)
  | .workerFinish id | .taskerFinish id | .workerAffect id | .giveBack id => some (id, usedView)
  | .taskerAffect id => some (id, { usedView with workerAffect := task.workerAffect })
  | .take _ | .returned _ => none

inductive Holds (task : Registration) (part : Part) (slot : Slot) (view : ShareTaskView) : Prop
  | filling (stage : part.rgst.filling task = some (slot, view)) (fresh : part.Fresh)
  | counting (stage : part.rgst = .returned (some slot)) (counted : Counted task part)
      (shown : countingView task part = some view)

inductive Rests (task : Registration) (part : Part) : Prop
  | taking (i : Slot) (stage : part.rgst = .take i) (fresh : part.Fresh) (own : task.Connection → i = task.mark)
  | refused (stage : part.rgst = .returned none) (fresh : part.Fresh)
  | closed (id : Slot) (stage : part.rgst = .returned (some id)) (counted : Counted task part)
      (ended : closing task part = some (.returned 0))

def Owns (part : Part) (slot : Slot) : Prop :=
  match part.rgst with
  | .take _ | .returned none => False
  | .workerFinish id | .taskerFinish id | .workerAffect id | .taskerAffect id | .giveBack id => id = slot
  | .returned (some id) => id = slot ∧ ∀ worker, part.calls worker ≠ .returned 0

section parties

variable {task : Registration} {part : Part} {slot : Slot} {view : ShareTaskView}

theorem closingView_inuse {call : Over} (shown : closingView task call = some view) : view.cntl = taskIdInuse := by
  cases call <;> cases shown <;> rfl

theorem countingView_inuse (shown : countingView task part = some view) : view.cntl = taskIdInuse := by
  unfold countingView at shown
  split at shown
  · exact Option.some.inj shown ▸ rfl
  · exact closingView_inuse shown

theorem filling_cases {stage : Rgst} (filled : stage.filling task = some (slot, view)) :
    view.cntl = taskIdInuse ∧ stage.slot = some slot ∧ ∀ calls arrived, Owns ⟨stage, calls, arrived⟩ slot := by
  cases stage <;> cases filled <;> exact ⟨rfl, rfl, fun _ _ => rfl⟩

theorem Holds.inuse (held : Holds task part slot view) : view.cntl = taskIdInuse := by
  cases held with
  | filling stage fresh => exact (filling_cases stage).1
  | counting stage counted shown => exact countingView_inuse shown

theorem Part.Fresh.counted (fresh : part.Fresh) : Counted task part := by
  refine ⟨by simp [fresh.2], by simp [fresh.2], by simp [fresh.2], ?_⟩
  intro worker _
  exact .inl (congrFun fresh.1 worker)

theorem Part.Fresh.countingView (fresh : part.Fresh) :
    Swift.countingView task part = some ⟨task.workerAffect, 0, task.taskerAffect, 0, taskIdInuse⟩ := by
  have nothing : closing task part = none := by simp [closing, fresh.2]
  simp [Swift.countingView, nothing, fresh.2]

theorem Holds.rgst (held : Holds task part slot view) (filled : part.rgst.filling task = some (slot, view)) :
    ∃ next after, swiftTaskRgst task part.rgst view = .ok (next, after) ∧
      (Holds task { part with rgst := next } slot after ∨
        after = freeView ∧ Rests task { part with rgst := next }) := by
  have fresh : part.Fresh := by
    cases held with
    | filling _ fresh => exact fresh
    | counting stage _ _ => rw [stage] at filled; cases filled
  generalize part.rgst = stage at filled
  cases stage with
  | take i | returned id => cases filled
  | workerFinish id | workerAffect id =>
    cases filled
    exact ⟨_, _, rfl, .inl (.filling rfl fresh)⟩
  | taskerFinish id =>
    cases filled
    refine ⟨_, _, rfl, .inl (.filling ?_ fresh)⟩
    by_cases unknown : task.type = .unknown
    · rw [if_pos unknown]
      rfl
    · rw [if_neg unknown]
      rfl
  | taskerAffect id =>
    cases filled
    refine ⟨_, _, rfl, .inl (.counting rfl ?_ ?_)⟩
    · exact Part.Fresh.counted fresh
    · exact Part.Fresh.countingView fresh
  | giveBack id =>
    cases filled
    exact ⟨.returned none, freeView, rfl, .inr ⟨rfl, .refused rfl fresh⟩⟩

end parties

section system

variable {ρ : Type} {tasks : ρ → Registration} {system : System ρ} {party : ρ} {task : Registration} {part : Part}
  {slot : Slot} {view : ShareTaskView} {worker : Nat}

abbrev Sound (tasks : ρ → Registration) (system : System ρ) : Prop :=
  Exclusive.Sound (fun party => Holds (tasks party)) (fun party => Rests (tasks party)) freeView system.view system.part

theorem Counted.zero_last (counted : Counted task part) (zero : part.calls worker = .returned 0) :
    part.arrived.length = task.count ∧ part.arrived.getLast? = some worker := by
  by_cases member : worker ∈ part.arrived
  · obtain ⟨left, nonzero, returned⟩ | last := counted.arrived_cases member
    · exact absurd (Over.returned.inj (returned.symm.trans zero)) nonzero
    · exact last
  · have waits := counted.later worker member
    rw [zero] at waits
    simp at waits

theorem Counted.not_zero (counted : Counted task part) (shown : countingView task part = some view) :
    part.calls worker ≠ .returned 0 := by
  intro zero
  obtain ⟨full, last⟩ := counted.zero_last zero
  rw [countingView, closing_last full last, zero] at shown
  cases shown

theorem Holds.owns (held : Holds task part slot view) : Owns part slot := by
  cases held with
  | filling filled fresh => exact (filling_cases filled).2.2 part.calls part.arrived
  | counting stage counted shown =>
    unfold Owns
    rw [stage]
    exact ⟨rfl, fun worker => counted.not_zero shown⟩

theorem Owns.slot_eq {other : Slot} (owns : Owns part slot) (also : Owns part other) : slot = other := by
  unfold Owns at owns also
  generalize part.rgst = stage at owns also
  cases stage with
  | take i => exact owns.elim
  | returned id =>
    cases id with
    | none => exact owns.elim
    | some id => exact owns.1.symm.trans also.1
  | workerFinish id | taskerFinish id | workerAffect id | taskerAffect id | giveBack id => exact owns.symm.trans also

theorem Rests.not_owns (resting : Rests task part) : ¬ Owns part slot := by
  intro owns
  unfold Owns at owns
  cases resting with
  | taking i stage _ _ | refused stage _ =>
    rw [stage] at owns
    exact owns
  | closed id stage counted ended =>
    rw [stage] at owns
    obtain ⟨worker, zero⟩ := (closing_some ended).2
    exact owns.2 worker zero

theorem Rests.not_holds (resting : Rests task part) : ¬ Holds task part slot view :=
  fun held => resting.not_owns held.owns

theorem rules (tasks : ρ → Registration) :
    Exclusive.Rules (fun party => Holds (tasks party)) (fun party => Rests (tasks party)) freeView :=
  ⟨fun _ _ _ held => absurd held.inuse (by decide), fun _ _ _ _ _ _ held also => held.owns.slot_eq also.owns,
    fun _ _ _ _ resting => resting.not_holds⟩

theorem owns_iff (sound : Sound tasks system) :
    Owns (system.part party) slot ↔ Holds (tasks party) (system.part party) slot (system.view slot) := by
  refine ⟨?_, Holds.owns⟩
  intro owns
  obtain ⟨cell, held⟩ | resting := sound.settled party
  · obtain rfl := owns.slot_eq held.owns
    exact held
  · exact absurd owns resting.not_owns

def Blocked (tasks : ρ → Registration) (system : System ρ) (event : Event ρ) : Prop :=
  ∃ party other, event = .rgst party ∧ (tasks party).Connection ∧ other ≠ party ∧
    Owns (system.part other) (tasks party).mark

variable [DecidableEq ρ]

theorem System.set_self (system : System ρ) (party : ρ) (slot : Slot) (part : Part) :
    system.set party part slot (system.view slot) = ⟨system.view, Function.update system.part party part⟩ := by
  rw [System.set, Function.update_eq_self]

theorem step_rgst (place : (system.part party).rgst.slot = some slot) {next : Rgst} {after : ShareTaskView}
    (accessed : swiftTaskRgst (tasks party) (system.part party).rgst (system.view slot) = .ok (next, after)) :
    step tasks system (.rgst party) =
      .ok (system.set party { system.part party with rgst := next } slot after, ()) := by
  simp only [step, place, accessed]
  rfl

theorem step_rgst_error (place : (system.part party).rgst.slot = some slot) {stop : Fault}
    (stopped : swiftTaskRgst (tasks party) (system.part party).rgst (system.view slot) = .error stop) :
    step tasks system (.rgst party) = .error stop := by
  simp only [step, place, stopped]
  rfl

omit [DecidableEq ρ] in
theorem taken_busy (connection : task.Connection) (i : Slot) : taken task i = .error .busy := by
  obtain http | redis := connection
  · rw [taken, http]
  · rw [taken, redis]

omit [DecidableEq ρ] in
theorem taken_rests (other : ¬ task.Connection) (fresh : part.Fresh) (i : Slot) :
    ∃ next, taken task i = .ok next ∧ Rests task { part with rgst := next } := by
  have passed : taken task i =
      if inside : i + 1 < maxSwiftQueueNumber then .ok (.take ⟨i + 1, inside⟩) else .ok (.returned none) := by
    unfold taken
    split
    · exact absurd (.inl (by assumption)) other
    · exact absurd (.inr (by assumption)) other
    · rfl
  rw [passed]
  by_cases inside : i + 1 < maxSwiftQueueNumber
  · exact ⟨_, dif_pos inside, .taking _ rfl fresh fun connection => absurd connection other⟩
  · exact ⟨_, dif_neg inside, .refused rfl fresh⟩

theorem Sound.take (sound : Sound tasks system) {i : Slot} (stage : (system.part party).rgst = .take i)
    (fresh : (system.part party).Fresh) (own : (tasks party).Connection → i = (tasks party).mark) :
    (∃ next, step tasks system (.rgst party) = .ok (next, ()) ∧ Sound tasks next) ∨
      step tasks system (.rgst party) = .error .busy ∧ Blocked tasks system (.rgst party) := by
  have resting : Rests (tasks party) (system.part party) := .taking i stage fresh own
  have place : (system.part party).rgst.slot = some i := by rw [stage]; rfl
  by_cases free : (system.view i).cntl = taskIdUnuse
  · have empty : system.view i = freeView := by
      obtain empty | ⟨other, held⟩ := sound.covered i
      · exact empty
      · rw [held.inuse] at free
        cases free
    have accessed : swiftTaskRgst (tasks party) (system.part party).rgst (system.view i) =
      .ok (.workerFinish i, usedView) := by
      rw [stage, empty]
      rfl
    exact .inl ⟨_, step_rgst place accessed,
      Exclusive.Sound.move sound (rules tasks) (.inr ⟨empty, resting⟩) (.inl (.filling rfl fresh))⟩
  · have accessed : swiftTaskRgst (tasks party) (system.part party).rgst (system.view i) =
        (taken (tasks party) i).map fun next => (next, system.view i) := by
      rw [stage]
      exact if_neg free
    by_cases connection : (tasks party).Connection
    · rw [taken_busy connection] at accessed
      refine .inr ⟨step_rgst_error place accessed, party, ?_⟩
      obtain empty | ⟨other, held⟩ := sound.covered i
      · rw [empty] at free
        exact absurd rfl free
      · refine ⟨other, rfl, connection, ?_, own connection ▸ held.owns⟩
        rintro rfl
        exact resting.not_holds held
    · obtain ⟨next, passed, rests⟩ := taken_rests connection fresh i
      rw [passed] at accessed
      refine .inl ⟨_, step_rgst place accessed, ?_⟩
      rw [System.set_self]
      exact Exclusive.Sound.stay sound (rules tasks) resting rests

theorem Sound.rgst (sound : Sound tasks system) (party : ρ) :
    (∃ next, step tasks system (.rgst party) = .ok (next, ()) ∧ Sound tasks next) ∨
      step tasks system (.rgst party) = .error .busy ∧ Blocked tasks system (.rgst party) := by
  have passed : (system.part party).rgst.slot = none →
      ∃ next, step tasks system (.rgst party) = .ok (next, ()) ∧ Sound tasks next := by
    intro nothing
    exact ⟨system, by simp only [step, nothing], sound⟩
  obtain ⟨cell, held⟩ | resting := sound.settled party
  · cases held with
    | filling filled fresh =>
      obtain ⟨next, after, accessed, result⟩ := (Holds.filling filled fresh).rgst filled
      exact .inl ⟨_, step_rgst (filling_cases filled).2.1 accessed,
        Exclusive.Sound.move sound (rules tasks) (.inl (.filling filled fresh)) result⟩
    | counting stage _ _ => exact .inl (passed (by rw [stage]; rfl))
  · cases resting with
    | taking i stage fresh own => exact sound.take stage fresh own
    | refused stage _ | closed id stage _ _ => exact .inl (passed (by rw [stage]; rfl))

theorem step_over {id : Slot} (stage : (system.part party).rgst = .returned (some id))
    (inside : worker < (tasks party).count) {next : Over} {after : ShareTaskView}
    (accessed : swiftTaskOver ((system.part party).calls worker) (system.view id) = .ok (next, after)) :
    step tasks system (.over party worker) =
      .ok (system.set party ((system.part party).call worker next) id after, ()) := by
  simp only [step, stage, if_pos inside, accessed]
  rfl

omit [DecidableEq ρ] in
theorem Sound.returned (sound : Sound tasks system) {id : Slot}
    (stage : (system.part party).rgst = .returned (some id)) :
    Counted (tasks party) (system.part party) ∧
      (countingView (tasks party) (system.part party) = some (system.view id) ∨
        closing (tasks party) (system.part party) = some (.returned 0)) := by
  obtain ⟨cell, held⟩ | resting := sound.settled party
  · cases held with
    | filling filled _ => rw [stage] at filled; cases filled
    | counting same counted shown =>
      rw [stage] at same
      cases same
      exact ⟨counted, .inl shown⟩
  · cases resting with
    | taking i other _ _ => rw [stage] at other; cases other
    | refused other _ => rw [stage] at other; cases other
    | closed same _ counted ended => exact ⟨counted, .inr ended⟩

theorem Sound.over_counting (sound : Sound tasks system) {id : Slot}
    (stage : (system.part party).rgst = .returned (some id)) (inside : worker < (tasks party).count) :
    ∃ next after, swiftTaskOver ((system.part party).calls worker) (system.view id) = .ok (next, after) ∧
      Sound tasks (system.set party ((system.part party).call worker next) id after) ∧
      ((system.part party).calls worker ≠ .returned 0 → next = .returned 0 → after = freeView) := by
  obtain ⟨counted, shown | ended⟩ := sound.returned stage
  · obtain ⟨next, after, accessed, kept, result⟩ := counted.over shown inside
    refine ⟨next, after, accessed, Exclusive.Sound.move sound (rules tasks) (.inl (.counting stage counted shown))
      ?_, ?_⟩
    · exact result.imp (fun shown => .counting stage kept shown)
        (And.imp_right fun ended => .closed id stage kept ended)
    · rintro _ rfl
      obtain shown | ⟨empty, _⟩ := result
      · exact absurd (Function.update_self ..) (kept.not_zero shown)
      · exact empty
  · obtain ⟨left, returned⟩ := counted.closed ended inside
    refine ⟨.returned left, system.view id, by rw [returned]; rfl, ?_, ?_⟩
    · rw [System.set_self, call_returned returned, Function.update_eq_self]
      exact sound
    · intro different zero
      exact absurd (returned.trans zero) different

theorem Sound.over (sound : Sound tasks system) (party : ρ) (worker : Nat) :
    ∃ next, step tasks system (.over party worker) = .ok (next, ()) ∧ Sound tasks next := by
  cases stage : (system.part party).rgst with
  | returned id =>
    cases id with
    | none => exact ⟨system, by simp only [step, stage], sound⟩
    | some id =>
      by_cases inside : worker < (tasks party).count
      · obtain ⟨next, after, accessed, kept, _⟩ := sound.over_counting stage inside
        exact ⟨_, step_over stage inside accessed, kept⟩
      · exact ⟨system, by simp only [step, stage, if_neg inside], sound⟩
  | take i | workerFinish id | taskerFinish id | workerAffect id | taskerAffect id | giveBack id =>
    exact ⟨system, by simp only [step, stage], sound⟩

omit [DecidableEq ρ] in
theorem rests_start (task : Registration) : Rests task (startPart task) := by
  have connection : task.enter = .take task.mark → Rests task (startPart task) := fun stage =>
    .taking task.mark stage ⟨rfl, rfl⟩ fun _ => rfl
  have shared : task.enter = .take firstShared → ¬ task.Connection → Rests task (startPart task) := fun stage other =>
    .taking firstShared stage ⟨rfl, rfl⟩ fun connection => absurd connection other
  cases origin : task.origin with
  | http | redis => exact connection (by rw [Registration.enter, origin])
  | init | msmq | time => exact shared (by rw [Registration.enter, origin]) (by simp [Registration.Connection, origin])
  | unknown => exact .refused (show task.enter = _ by rw [Registration.enter, origin]) ⟨rfl, rfl⟩

omit [DecidableEq ρ] in
theorem sound_start (tasks : ρ → Registration) : Sound tasks (start tasks) :=
  ⟨fun party => .inr (rests_start (tasks party)),
    fun party _ _ held _ => absurd held (rests_start (tasks party)).not_holds,
    fun _ => .inl rfl⟩

/-- One slot for a task; the last call, and it alone, returns zero. -/
structure Accounted (tasks : ρ → Registration) (system : System ρ) : Prop where
  single : ∀ party other slot, Owns (system.part party) slot → Owns (system.part other) slot → party = other
  last : ∀ party worker, (system.part party).calls worker = .returned 0 →
    (∀ other < (tasks party).count, other ∈ (system.part party).arrived) ∧
      (system.part party).arrived.getLast? = some worker
  one : ∀ party id, (system.part party).rgst = .returned (some id) → 1 ≤ (tasks party).workerAffect →
    (∀ worker < (tasks party).count, ∃ left, (system.part party).calls worker = .returned left) →
    ∃! worker, worker < (tasks party).count ∧ (system.part party).calls worker = .returned 0
  freed : ∀ party worker id next, (system.part party).rgst = .returned (some id) →
    (system.part party).calls worker ≠ .returned 0 → step tasks system (.over party worker) = .ok (next, ()) →
    (next.part party).calls worker = .returned 0 → next.view id = freeView

omit [DecidableEq ρ] in
theorem Sound.counted (sound : Sound tasks system) (party : ρ) : Counted (tasks party) (system.part party) := by
  obtain ⟨cell, held⟩ | resting := sound.settled party
  · cases held with
    | filling _ fresh => exact Part.Fresh.counted fresh
    | counting _ counted _ => exact counted
  · cases resting with
    | taking _ _ fresh _ | refused _ fresh => exact Part.Fresh.counted fresh
    | closed _ _ counted _ => exact counted

omit [DecidableEq ρ] in
theorem Sound.some_zero (sound : Sound tasks system) {id : Slot}
    (stage : (system.part party).rgst = .returned (some id)) (positive : 1 ≤ (tasks party).workerAffect)
    (done : ∀ worker < (tasks party).count, ∃ left, (system.part party).calls worker = .returned left) :
    ∃ worker < (tasks party).count, (system.part party).calls worker = .returned 0 := by
  obtain ⟨counted, result⟩ := sound.returned stage
  have all : ∀ worker < (tasks party).count, worker ∈ (system.part party).arrived := by
    intro worker inside
    by_contra absent
    obtain ⟨left, returned⟩ := done worker inside
    have waits := counted.later worker absent
    rw [returned] at waits
    simp at waits
  have full : (system.part party).arrived.length = (tasks party).count := by
    refine Nat.le_antisymm counted.length_le ?_
    have subset : List.range (tasks party).count ⊆ (system.part party).arrived := fun worker member =>
      all worker (mem_range.mp member)
    simpa using (subperm_of_subset nodup_range subset).length_le
  have count : 0 < (tasks party).count := by
    rw [Registration.count]
    omega
  obtain ⟨worker, last⟩ : ∃ worker, (system.part party).arrived.getLast? = some worker := by
    obtain nothing | ⟨front, worker, split⟩ := (system.part party).arrived.eq_nil_or_concat'
    · rw [nothing, length_nil] at full
      omega
    · exact ⟨worker, by rw [split, List.getLast?_concat]⟩
  have member : worker ∈ (system.part party).arrived := mem_of_getLast? last
  have ends := @closing_last (tasks party) _ _ full last
  refine ⟨worker, counted.inside worker member, ?_⟩
  obtain shown | ended := result
  · obtain ⟨left, returned⟩ := done worker (counted.inside worker member)
    rw [countingView, ends, returned] at shown
    cases shown
  · exact Option.some.inj (ends.symm.trans ended)

theorem Sound.accounted (sound : Sound tasks system) : Accounted tasks system := by
  have last : ∀ party worker, (system.part party).calls worker = .returned 0 →
      (∀ other < (tasks party).count, other ∈ (system.part party).arrived) ∧
        (system.part party).arrived.getLast? = some worker := by
    intro party worker zero
    obtain ⟨full, last⟩ := (sound.counted party).zero_last zero
    exact ⟨fun other inside => (sound.counted party).all_arrived full inside, last⟩
  refine ⟨?_, last, ?_, ?_⟩
  · intro party other slot owns also
    exact sound.single party other slot ((owns_iff sound).mp owns) ((owns_iff sound).mp also)
  · intro party id stage positive done
    obtain ⟨worker, inside, zero⟩ := sound.some_zero stage positive done
    refine ⟨worker, ⟨inside, zero⟩, ?_⟩
    rintro other ⟨_, also⟩
    exact Option.some.inj ((last party other also).2.symm.trans (last party worker zero).2)
  · intro party worker id next stage different stepped zero
    by_cases inside : worker < (tasks party).count
    · obtain ⟨call, after, accessed, _, freed⟩ := sound.over_counting stage inside
      rw [step_over stage inside accessed] at stepped
      cases stepped
      have self : (system.set party ((system.part party).call worker call) id after).part party =
        (system.part party).call worker call := Function.update_self ..
      have called : ((system.part party).call worker call).calls worker = call := Function.update_self ..
      rw [self, called] at zero
      exact (Function.update_self ..).trans (freed different zero)
    · simp only [step, stage, if_neg inside] at stepped
      cases stepped
      exact absurd zero different

theorem Sound.step (sound : Sound tasks system) (event : Event ρ) :
    (∃ next, Swift.step tasks system event = .ok (next, ()) ∧ Sound tasks next) ∨
      Swift.step tasks system event = .error .busy ∧ Blocked tasks system event := by
  rcases event with party | ⟨party, worker⟩
  · exact sound.rgst party
  · exact .inl (sound.over party worker)

theorem run_sound {events : List (Event ρ)} {answers : List Unit}
    (returned : run (Swift.step tasks) (start tasks) events = .ok (system, answers)) : Sound tasks system := by
  refine run_keeps ?_ (sound_start tasks) returned
  intro state event next answer sound stepped
  obtain ⟨other, same, kept⟩ | ⟨stopped, _⟩ := sound.step event
  · rw [same] at stepped
    cases stepped
    exact kept
  · rw [stopped] at stepped
    cases stepped

end system

end Libucmq.Swift
