import Mathlib.Algebra.BigOperators.Group.List.Basic
import Mathlib.Algebra.GroupWithZero.Nat
import Mathlib.Algebra.Order.BigOperators.Group.List
import Libucmq.Supex.Task
import Libucmq.Swift.TaskView

/-! The tasks of connections on their way through the porters. -/

namespace Libucmq.Swift

open List Function Machine

open Supex (SupexTaskList supexTaskInit supexTaskPush supexTaskPull)

inductive Watch where
  | recv
  | task
  | send
  deriving DecidableEq, Repr

structure SwiftTaskNode (φ : Type) where
  sfd : Slot
  type : TaskType
  origin : Origin
  func : Option φ

def SwiftTaskNode.typed {φ : Type} (task : SwiftTaskNode φ) (type : TaskType) : SwiftTaskNode φ := { task with type }

structure Porter (φ : Type) where
  tlist : SupexTaskList (SwiftTaskNode φ)
  task : Option (SwiftTaskNode φ)

def Porter.executes {φ : Type} (porter : Porter φ) (task : Option (SwiftTaskNode φ)) : Porter φ := ⟨porter.tlist, task⟩

structure Engine (φ : Type) where
  view : Slot → ShareTaskView
  watch : Slot → Watch
  porter : Nat → Porter φ

def accesses {σ : Type} (access : σ → ShareTaskView → Except Fault (σ × ShareTaskView)) :
    Nat → σ → ShareTaskView → Except Fault (σ × ShareTaskView)
  | 0, state, view => .ok (state, view)
  | count + 1, state, view => do
    let (state, view) ← access state view
    accesses access count state view

def rgstCall (task : Registration) (view : ShareTaskView) : Except Fault (Rgst × ShareTaskView) :=
  accesses (swiftTaskRgst task) 5 task.enter view

def overCall (view : ShareTaskView) : Except Fault (Over × ShareTaskView) := accesses swiftTaskOver 8 .check view

def SwiftTaskNode.ofConnection {φ : Type} (task : SwiftTaskNode φ) : Bool :=
  task.origin = .http || task.origin = .redis

section model

variable {φ : Type}

def Engine.setPorter (engine : Engine φ) (p : Nat) (porter : Porter φ) : Engine φ :=
  { engine with porter := update engine.porter p porter }

def Engine.setView (engine : Engine φ) (fd : Slot) (view : ShareTaskView) : Engine φ :=
  { engine with view := update engine.view fd view }

def Engine.setWatch (engine : Engine φ) (fd : Slot) (watch : Watch) : Engine φ :=
  { engine with watch := update engine.watch fd watch }

def register (porters : Nat) (engine : Engine φ) (task : SwiftTaskNode φ) : Except Fault (Rgst × Engine φ) := do
  let (result, view) ← rgstCall ⟨task.origin, task.type, porters, porters, task.sfd⟩ (engine.view task.sfd)
  return (result, engine.setView task.sfd view)

def swiftOneTaskRun (porters : Nat) (engine : Engine φ) (p : Nat) (task : SwiftTaskNode φ) :
    Except Fault (Engine φ) := do
  let (result, engine) ← register porters engine (task.typed .alone)
  if result = .returned (some task.sfd) then
    return engine.setPorter p ((engine.porter p).executes (some (task.typed .alone)))
  else .error .assertion

def Porter.push (porter : Porter φ) (task : SwiftTaskNode φ) : Porter φ :=
  { porter with tlist := (supexTaskPush porter.tlist task).2 }

def distribute (porters : Nat) (engine : Engine φ) (task : SwiftTaskNode φ) : Engine φ :=
  { engine with porter := fun i => if i < porters then (engine.porter i).push task else engine.porter i }

def swiftAllTaskHit (porters : Nat) (engine : Engine φ) (task : SwiftTaskNode φ) : Except Fault (Engine φ) := do
  let (result, engine) ← register porters engine (task.typed .whole)
  if result = .returned none then return engine else return distribute porters engine (task.typed .whole)

/-- Tasks of other origins have slots that are not of connections. -/
def taskHandle (engine : Engine φ) (p : Nat) (task : SwiftTaskNode φ) : Except Fault (Engine φ) :=
  let engine := engine.setPorter p ((engine.porter p).executes none)
  if task.func.isNone || !task.ofConnection then .ok engine
  else do
    let (result, view) ← overCall (engine.view task.sfd)
    let engine := engine.setView task.sfd view
    return if result = .returned 0 then engine.setWatch task.sfd .send else engine

inductive Act (φ : Type) where
  | recv (p : Nat) (task : SwiftTaskNode φ)
  | prepare (p : Nat)
  | handle (p : Nat)
  | send (fd : Slot)
  | other (p : Nat) (task : SwiftTaskNode φ)

def Engine.receives (porters : Nat) (engine : Engine φ) (p : Nat) (task : SwiftTaskNode φ) : Prop :=
  p < porters ∧ (engine.porter p).task.isNone = true ∧ engine.watch task.sfd = .recv ∧ task.ofConnection = true

instance (porters : Nat) (engine : Engine φ) (p : Nat) (task : SwiftTaskNode φ) :
    Decidable (engine.receives porters p task) := inferInstanceAs (Decidable (_ ∧ _ ∧ _ ∧ _))

def swiftRecvCb (porters : Nat) (engine : Engine φ) (p : Nat) (task : SwiftTaskNode φ) : Except Fault (Engine φ) :=
  let engine := engine.setWatch task.sfd .task
  match task.type with
  | .alone => swiftOneTaskRun porters engine p task
  | .whole => swiftAllTaskHit porters engine task
  | .unknown => .ok engine

def swiftPrepareCb (engine : Engine φ) (p : Nat) : Engine φ :=
  match supexTaskPull (engine.porter p).tlist with
  | (none, _) => engine
  | (some task, tlist) => engine.setPorter p ⟨tlist, some task⟩

def act (porters : Nat) (engine : Engine φ) : Act φ → Except Fault (Engine φ)
  | .recv p task => if engine.receives porters p task then swiftRecvCb porters engine p task else .ok engine
  | .prepare p =>
    .ok (if p < porters ∧ (engine.porter p).task.isNone = true then swiftPrepareCb engine p else engine)
  | .handle p =>
    match (engine.porter p).task with
    | none => .ok engine
    | some task => if p < porters then taskHandle engine p task else .ok engine
  | .send fd => .ok (if engine.watch fd = .send then engine.setWatch fd .recv else engine)
  | .other p task =>
    .ok (if p < porters ∧ task.ofConnection = false then engine.setPorter p ((engine.porter p).push task) else engine)

def engineStep (porters : Nat) (engine : Engine φ) (event : Act φ) : Except Fault (Engine φ × Unit) :=
  (act porters engine event).map fun engine => (engine, ())

def engineStart (zero : SwiftTaskNode φ) (max : Nat) (positive : 0 < max) (watch : Slot → Watch) : Engine φ :=
  ⟨fun _ => freeView, watch, fun _ => ⟨supexTaskInit zero max positive, none⟩⟩

def SwiftTaskNode.isFor (fd : Slot) (task : SwiftTaskNode φ) : Bool := task.ofConnection && decide (task.sfd = fd)

def Porter.load (fd : Slot) (porter : Porter φ) : Nat :=
  porter.tlist.contents.countP (SwiftTaskNode.isFor fd) + porter.task.toList.countP (SwiftTaskNode.isFor fd)

def copies (porters : Nat) (engine : Engine φ) (fd : Slot) : Nat :=
  ((List.range porters).map fun p => (engine.porter p).load fd).sum

def Served (porters : Nat) (engine : Engine φ) : Prop :=
  ∀ fd, (engine.view fd).cntl = taskIdInuse →
    (copies porters engine fd : Int) = (engine.view fd).workerAffect - (engine.view fd).workerFinish ∧
      0 < copies porters engine fd

def Kept (porters : Nat) (engine : Engine φ) : Act φ → Prop
  | .recv p task => engine.receives porters p task → task.type = .whole →
      ∀ i < porters, (engine.porter i).tlist.contents.length + 1 < (engine.porter i).tlist.max
  | .handle p => p < porters → ∀ task, (engine.porter p).task = some task → task.ofConnection = true →
      task.func.isSome = true
  | _ => True

end model

section calls

theorem rgstCall_free {task : Registration} (connection : task.Connection) (known : task.type ≠ .unknown) :
    rgstCall task freeView =
      .ok (.returned (some task.mark), ⟨task.workerAffect, 0, task.taskerAffect, 0, taskIdInuse⟩) := by
  have enter : task.enter = .take task.mark := by
    obtain http | redis := connection
    · rw [Registration.enter, http]
    · rw [Registration.enter, redis]
  rw [rgstCall, enter]
  simp [accesses, swiftTaskRgst, freeView, known, Outcome.ok_bind]

theorem overCall_last {affect finish tasker : Int} (last : 0 < affect ∧ finish = affect - 1) :
    overCall ⟨affect, finish, tasker, 0, taskIdInuse⟩ = .ok (.returned 0, freeView) := by
  simp [overCall, accesses, swiftTaskOver, last, Outcome.ok_bind, freeView]

theorem overCall_early {affect finish tasker : Int} (more : ¬ (0 < affect ∧ finish = affect - 1)) :
    overCall ⟨affect, finish, tasker, 0, taskIdInuse⟩ =
      .ok (.returned (affect - finish), ⟨affect, finish + 1, tasker, 0, taskIdInuse⟩) := by
  simp [overCall, accesses, swiftTaskOver, if_neg more, Outcome.ok_bind]

end calls

section copies

variable {φ : Type} {porters p : Nat} {engine : Engine φ} {fd : Slot} {task : SwiftTaskNode φ} {porter : Porter φ}

theorem sum_map_update (loads : Nat → Nat) (inside : p < porters) (value : Nat) :
    ((List.range porters).map (update loads p value)).sum + loads p =
      ((List.range porters).map loads).sum + value := by
  induction porters with
  | zero => omega
  | succ porters ih =>
    simp only [range_succ, map_append, sum_append, map_cons, map_nil, sum_singleton]
    by_cases last : p = porters
    · subst last
      have others : (List.range p).map (update loads p value) = (List.range p).map loads := by
        refine map_congr_left ?_
        intro place member
        exact update_of_ne (Nat.ne_of_lt (mem_range.mp member)) ..
      rw [others, update_self]
      omega
    · have := ih (by omega)
      rw [update_of_ne (Ne.symm last)]
      omega

theorem copies_setPorter (inside : p < porters) (porter : Porter φ) :
    copies porters (engine.setPorter p porter) fd + (engine.porter p).load fd =
      copies porters engine fd + porter.load fd := by
  have same : (fun q => ((engine.setPorter p porter).porter q).load fd) =
      update (fun q => (engine.porter q).load fd) p (porter.load fd) := by
    funext q
    exact apply_update (fun _ => Porter.load fd) engine.porter p porter q
  rw [copies, copies, same]
  exact sum_map_update (fun q => (engine.porter q).load fd) inside (porter.load fd)

theorem load_push (porter : Porter φ) (task : SwiftTaskNode φ) : (porter.push task).load fd = porter.load fd +
      if porter.tlist.contents.length + 1 < porter.tlist.max ∧ task.isFor fd = true then 1 else 0 := by
  by_cases room : porter.tlist.contents.length + 1 < porter.tlist.max
  · obtain ⟨next, pushed, contents, _⟩ := SupexTaskList.push_room room task
    simp only [Porter.load, Porter.push, pushed, contents, countP_append, countP_singleton, room, true_and]
    omega
  · simp only [Porter.load, Porter.push, SupexTaskList.push_full room, room, false_and, if_false, Nat.add_zero]

theorem load_pull {tlist : SupexTaskList (SwiftTaskNode φ)} (idle : porter.task = none)
    (pulled : supexTaskPull porter.tlist = (some task, tlist)) :
    (Porter.mk tlist (some task)).load fd = porter.load fd := by
  cases contents : porter.tlist.contents with
  | nil =>
    rw [SupexTaskList.pull_empty contents] at pulled
    cases pulled
  | cons first rest =>
    obtain ⟨next, same, later, _⟩ := SupexTaskList.pull_first contents
    rw [pulled] at same
    cases same
    simp only [Porter.load, contents, later, idle, Option.toList, countP_cons, countP_nil]
    omega

end copies

inductive Slotted (view : ShareTaskView) (watch : Watch) (copies : Nat) : Prop
  | free (empty : view = freeView) (absent : copies = 0)
  | used (affect finish tasker : Int) (shown : view = ⟨affect, finish, tasker, 0, taskIdInuse⟩) (waits : watch = .task)
      (started : 0 ≤ finish) (isOpen : finish < affect) (bound : (copies : Int) ≤ affect - finish)

def Formed {φ : Type} (porters : Nat) (engine : Engine φ) : Prop :=
  ∀ fd, Slotted (engine.view fd) (engine.watch fd) (copies porters engine fd)

def ServedAt (view : ShareTaskView) (copies : Nat) : Prop :=
  view.cntl = taskIdInuse → (copies : Int) = view.workerAffect - view.workerFinish ∧ 0 < copies

def Leaves {φ : Type} (porters : Nat) (engine next : Engine φ) (kept : Prop) : Prop :=
  Formed porters next ∧ (Served porters engine → (Served porters next ↔ kept))

section step

variable {φ : Type} {porters p : Nat} {engine next : Engine φ} {fd : Slot} {task : SwiftTaskNode φ} {kept : Prop}

section

variable (formed : Formed porters engine)

include formed

theorem Formed.leaves (fd : Slot)
    (others : ∀ other, other ≠ fd → next.view other = engine.view other ∧ next.watch other = engine.watch other ∧
      copies porters next other = copies porters engine other)
    (slotted : Slotted (next.view fd) (next.watch fd) (copies porters next fd))
    (served : ServedAt (engine.view fd) (copies porters engine fd) →
      (ServedAt (next.view fd) (copies porters next fd) ↔ kept)) : Leaves porters engine next kept := by
  refine ⟨?_, ?_⟩
  · intro other
    by_cases same : other = fd
    · exact same ▸ slotted
    · obtain ⟨view, watch, copies⟩ := others other same
      rw [view, watch, copies]
      exact formed other
  · intro before
    rw [← served (before fd)]
    refine ⟨fun after => after fd, ?_⟩
    intro after other
    by_cases same : other = fd
    · exact same ▸ after
    · obtain ⟨view, _, copies⟩ := others other same
      rw [view, copies]
      exact before other

theorem leaves_self (isKept : kept) : Leaves porters engine engine kept :=
  ⟨formed, fun served => iff_of_true served isKept⟩

theorem Formed.send (fd : Slot) :
    Leaves porters engine (if engine.watch fd = .send then engine.setWatch fd .recv else engine) True := by
  by_cases sends : engine.watch fd = .send
  · rw [if_pos sends]
    refine formed.leaves fd ?_ ?_ fun served => iff_of_true served trivial
    · intro other different
      exact ⟨rfl, update_of_ne different .., rfl⟩
    · cases formed fd with
      | free empty absent => exact .free empty absent
      | used _ _ _ _ waits => rw [sends] at waits; cases waits
  · rw [if_neg sends]
    exact leaves_self formed trivial

theorem Formed.moved (view : next.view = engine.view) (watch : next.watch = engine.watch)
    (same : ∀ fd, copies porters next fd = copies porters engine fd) : Leaves porters engine next True := by
  refine ⟨?_, fun served => iff_of_true ?_ trivial⟩
  · intro fd
    rw [view, watch, same]
    exact formed fd
  · intro fd
    rw [view, same]
    exact served fd

theorem Formed.prepare (p : Nat) : Leaves porters engine
      (if p < porters ∧ (engine.porter p).task.isNone = true then swiftPrepareCb engine p else engine) True := by
  by_cases idle : p < porters ∧ (engine.porter p).task.isNone = true
  · rw [if_pos idle, swiftPrepareCb]
    cases pulled : supexTaskPull (engine.porter p).tlist with
    | mk found tlist =>
      cases found with
      | none => exact leaves_self formed trivial
      | some task =>
        refine formed.moved rfl rfl ?_
        intro fd
        have moved := @copies_setPorter φ porters p engine fd idle.1 ⟨tlist, some task⟩
        rw [load_pull (Option.isNone_iff_eq_none.mp idle.2) pulled] at moved
        exact Nat.add_right_cancel moved
  · rw [if_neg idle]
    exact leaves_self formed trivial

theorem Formed.other (p : Nat) (task : SwiftTaskNode φ) : Leaves porters engine
      (if p < porters ∧ task.ofConnection = false then engine.setPorter p ((engine.porter p).push task) else engine)
      True := by
  by_cases foreign : p < porters ∧ task.ofConnection = false
  · rw [if_pos foreign]
    refine formed.moved rfl rfl ?_
    intro fd
    have pushed := @copies_setPorter φ porters p engine fd foreign.1 ((engine.porter p).push task)
    have notFor : ¬ ((engine.porter p).tlist.contents.length + 1 < (engine.porter p).tlist.max ∧
        task.isFor fd = true) := by simp [SwiftTaskNode.isFor, foreign.2]
    rw [load_push, if_neg notFor] at pushed
    exact Nat.add_right_cancel pushed
  · rw [if_neg foreign]
    exact leaves_self formed trivial

end

theorem copies_done (inside : p < porters) (executes : (engine.porter p).task = some task) (fd : Slot) :
    copies porters (engine.setPorter p ((engine.porter p).executes none)) fd +
      (if task.isFor fd = true then 1 else 0) = copies porters engine fd := by
  have load : ((engine.porter p).executes none).load fd + (if task.isFor fd = true then 1 else 0) =
      (engine.porter p).load fd := by
    simp only [Porter.load, Porter.executes, executes, Option.toList, countP_cons, countP_nil]
    omega
  have done := @copies_setPorter φ porters p engine fd inside ((engine.porter p).executes none)
  omega

theorem isFor_self (connection : task.ofConnection = true) : task.isFor task.sfd = true := by
  simp [SwiftTaskNode.isFor, connection]

theorem not_isFor (other : fd ≠ task.sfd) : ¬ task.isFor fd = true := by
  simp [SwiftTaskNode.isFor, Ne.symm other]

theorem Formed.handle_lost (formed : Formed porters engine) (inside : p < porters)
    (executes : (engine.porter p).task = some task) (connection : task.ofConnection = true) :
    Leaves porters engine (engine.setPorter p ((engine.porter p).executes none)) False := by
  have fewer := copies_done inside executes task.sfd
  rw [if_pos (isFor_self connection)] at fewer
  refine formed.leaves task.sfd ?_ ?_ ?_
  · intro other different
    have same := copies_done inside executes other
    rw [if_neg (not_isFor different)] at same
    exact ⟨rfl, rfl, same⟩
  · cases formed task.sfd with
    | free empty absent => omega
    | used affect finish tasker shown waits started isOpen bound =>
      exact .used affect finish tasker shown waits started isOpen (by omega)
  · intro served
    refine iff_of_false ?_ not_false
    intro after
    cases formed task.sfd with
    | free empty absent => omega
    | used affect finish tasker shown waits started isOpen bound =>
      have inuse : (engine.view task.sfd).cntl = taskIdInuse := by rw [shown]
      have whole := (served inuse).1
      have rest := (after inuse).1
      have same : (engine.setPorter p ((engine.porter p).executes none)).view = engine.view := rfl
      rw [same] at rest
      omega

theorem Formed.handle_done (formed : Formed porters engine) (inside : p < porters)
    (executes : (engine.porter p).task = some task) (connection : task.ofConnection = true) :
    ∃ result view, overCall (engine.view task.sfd) = .ok (result, view) ∧ Leaves porters engine
        (if result = .returned 0 then
          ((engine.setPorter p ((engine.porter p).executes none)).setView task.sfd view).setWatch task.sfd .send
        else (engine.setPorter p ((engine.porter p).executes none)).setView task.sfd view) True := by
  have fewer := copies_done inside executes task.sfd
  rw [if_pos (isFor_self connection)] at fewer
  have others : ∀ other, other ≠ task.sfd →
      copies porters (engine.setPorter p ((engine.porter p).executes none)) other = copies porters engine other := by
    intro other different
    have same := copies_done inside executes other
    rwa [if_neg (not_isFor different)] at same
  cases formed task.sfd with
  | free empty absent => omega
  | used affect finish tasker shown waits started isOpen bound =>
    rw [shown]
    by_cases last : 0 < affect ∧ finish = affect - 1
    · refine ⟨_, _, overCall_last last, ?_⟩
      rw [if_pos rfl]
      refine formed.leaves task.sfd ?_ ?_ ?_
      · intro other different
        exact ⟨update_of_ne different .., update_of_ne different .., others other different⟩
      · refine .free (update_self ..) ?_
        show copies porters (engine.setPorter p ((engine.porter p).executes none)) task.sfd = 0
        omega
      · intro _
        refine iff_of_true ?_ trivial
        intro inuse
        rw [show (Engine.view _ task.sfd) = freeView from update_self ..] at inuse
        cases inuse
    · have more : Over.returned (affect - finish) ≠ .returned 0 := by
        intro zero
        have := Over.returned.inj zero
        omega
      refine ⟨_, _, overCall_early last, ?_⟩
      rw [if_neg more]
      refine formed.leaves task.sfd ?_ ?_ ?_
      · intro other different
        exact ⟨update_of_ne different .., rfl, others other different⟩
      · refine .used affect (finish + 1) tasker (update_self ..) waits (by omega) (by omega) ?_
        show (copies porters (engine.setPorter p ((engine.porter p).executes none)) task.sfd : Int) ≤ _
        omega
      · intro served
        refine iff_of_true ?_ trivial
        intro _
        have whole : (copies porters engine task.sfd : Int) = affect - finish := by
          have counts := (served (by rw [shown])).1
          rwa [shown] at counts
        rw [show (Engine.view _ task.sfd) = _ from update_self ..]
        show (copies porters (engine.setPorter p ((engine.porter p).executes none)) task.sfd : Int) =
          affect - (finish + 1) ∧
          0 < copies porters (engine.setPorter p ((engine.porter p).executes none)) task.sfd
        omega

theorem Leaves.congr {other : Prop} (leaves : Leaves porters engine next kept) (same : kept ↔ other) :
    Leaves porters engine next other :=
  ⟨leaves.1, fun served => (leaves.2 served).trans same⟩

theorem Formed.handle (formed : Formed porters engine) (inside : p < porters)
    (executes : (engine.porter p).task = some task) : ∃ next, taskHandle engine p task = .ok next ∧
      Leaves porters engine next (task.ofConnection = true → task.func.isSome = true) := by
  by_cases connection : task.ofConnection = true
  · cases func : task.func with
    | none =>
      refine ⟨_, if_pos (by simp [func]), (formed.handle_lost inside executes connection).congr ?_⟩
      simp [connection]
    | some f =>
      obtain ⟨result, view, finished, leaves⟩ := formed.handle_done inside executes connection
      refine ⟨_, ?_, leaves.congr (by simp)⟩
      have sameView : (engine.setPorter p ((engine.porter p).executes none)).view = engine.view := rfl
      rw [taskHandle, if_neg (by simp [func, connection]), sameView, finished]
      rfl
  · have same : ∀ fd, copies porters (engine.setPorter p ((engine.porter p).executes none)) fd =
      copies porters engine fd := by
      intro fd
      have same := copies_done inside executes fd
      rwa [if_neg (by simp [SwiftTaskNode.isFor, connection])] at same
    have leaves : Leaves porters engine (engine.setPorter p ((engine.porter p).executes none)) True :=
      formed.moved rfl rfl same
    exact ⟨_, if_pos (by simp [connection]), leaves.congr (by simp [connection])⟩

theorem Formed.free_of_recv (formed : Formed porters engine) (listens : engine.watch fd = .recv) :
    engine.view fd = freeView ∧ copies porters engine fd = 0 := by
  cases formed fd with
  | free empty absent => exact ⟨empty, absent⟩
  | used _ _ _ _ waits => rw [listens] at waits; cases waits

section

variable (connection : task.ofConnection = true)

include connection

theorem register_free (known : task.type ≠ .unknown) (empty : engine.view task.sfd = freeView) :
    register porters engine task = .ok (.returned (some task.sfd), engine.setView task.sfd
      ⟨if task.type = .alone then 1 else porters, 0, if task.type = .alone then 1 else porters, 0, taskIdInuse⟩) := by
  have origin : Registration.Connection ⟨task.origin, task.type, porters, porters, task.sfd⟩ := by
    simpa [SwiftTaskNode.ofConnection, Registration.Connection] using connection
  rw [register, empty, rgstCall_free origin known]
  rfl

theorem swiftOneTaskRun_free (empty : engine.view task.sfd = freeView) :
    swiftOneTaskRun porters engine p task = .ok ((engine.setView task.sfd ⟨1, 0, 1, 0, taskIdInuse⟩).setPorter p
      ((engine.porter p).executes (some (task.typed .alone)))) := by
  have registered := @register_free φ porters engine (task.typed .alone) connection (by simp [SwiftTaskNode.typed])
    empty
  rw [swiftOneTaskRun, registered, Outcome.ok_bind]
  exact if_pos rfl

theorem swiftAllTaskHit_free (empty : engine.view task.sfd = freeView) :
    swiftAllTaskHit porters engine task = .ok (distribute porters
      (engine.setView task.sfd ⟨porters, 0, porters, 0, taskIdInuse⟩) (task.typed .whole)) := by
  have registered := @register_free φ porters engine (task.typed .whole) connection (by simp [SwiftTaskNode.typed])
    empty
  rw [swiftAllTaskHit, registered, Outcome.ok_bind]
  exact if_neg (by simp)

end

theorem Formed.registered (formed : Formed porters engine) (listens : engine.watch fd = .recv) {affect tasker : Int}
    {added : Nat} (positive : 0 < affect) (bound : added ≤ affect)
    (view : next.view = update engine.view fd ⟨affect, 0, tasker, 0, taskIdInuse⟩)
    (watch : next.watch = update engine.watch fd .task)
    (more : ∀ other, copies porters next other = copies porters engine other + if other = fd then added else 0) :
    Leaves porters engine next ((added : Int) = affect) := by
  have absent := (formed.free_of_recv listens).2
  have here : next.view fd = ⟨affect, 0, tasker, 0, taskIdInuse⟩ := by rw [view, update_self]
  have copied : copies porters next fd = added := by rw [more, absent, if_pos rfl, Nat.zero_add]
  refine formed.leaves fd ?_ ?_ ?_
  · intro other different
    rw [view, watch, more, if_neg different, update_of_ne different, update_of_ne different]
    exact ⟨rfl, rfl, rfl⟩
  · rw [copied]
    refine .used affect 0 tasker here ?_ (Int.le_refl 0) positive (by omega)
    rw [watch, update_self]
  · intro _
    rw [here, copied]
    refine ⟨fun served => ?_, fun whole _ => ?_⟩
    · have counts : (added : Int) = affect - 0 := (served rfl).1
      omega
    · show (added : Int) = affect - 0 ∧ 0 < added
      omega

theorem sum_ite (holds : Nat → Prop) [DecidablePred holds] (count : Nat) :
    ((List.range count).map fun i => if holds i then 1 else 0).sum ≤ count ∧
      (((List.range count).map fun i => if holds i then 1 else 0).sum = count ↔ ∀ i < count, holds i) := by
  induction count with
  | zero => simp
  | succ count ih =>
    simp only [range_succ, map_append, sum_append, map_cons, map_nil, sum_singleton,
      Nat.forall_lt_succ_right, ← ih.2]
    by_cases last : holds count
    · simp only [last, if_true, and_true]
      omega
    · simp only [last, if_false, and_false, iff_false]
      omega

theorem copies_distribute (porters : Nat) (engine : Engine φ) (task : SwiftTaskNode φ) (fd : Slot) :
    copies porters (distribute porters engine task) fd = copies porters engine fd +
      ((List.range porters).map fun i => if (engine.porter i).tlist.contents.length + 1 < (engine.porter i).tlist.max ∧
        task.isFor fd = true then 1 else 0).sum := by
  rw [copies, copies, ← sum_map_add]
  refine congrArg List.sum (map_congr_left ?_)
  intro i member
  have pushed : (distribute porters engine task).porter i = (engine.porter i).push task :=
    if_pos (mem_range.mp member)
  rw [pushed, load_push]

section

variable (formed : Formed porters engine)

include formed

section

variable (receives : engine.receives porters p task)

include receives

theorem Formed.recv_alone :
    ∃ next, swiftOneTaskRun porters (engine.setWatch task.sfd .task) p task = .ok next ∧
      Leaves porters engine next True := by
  obtain ⟨inside, idle, listens, connection⟩ := receives
  obtain ⟨empty, absent⟩ := formed.free_of_recv listens
  refine ⟨_, swiftOneTaskRun_free connection empty, ?_⟩
  have load : ∀ fd, ((engine.porter p).executes (some (task.typed .alone))).load fd =
      (engine.porter p).load fd + if task.isFor fd = true then 1 else 0 := by
    intro fd
    rw [Option.isNone_iff_eq_none] at idle
    simp only [Porter.load, Porter.executes, idle, Option.toList, countP_cons, countP_nil, Nat.zero_add,
      Nat.add_zero]
    rfl
  have leaves := @Formed.registered φ porters engine (((engine.setWatch task.sfd .task).setView task.sfd
    ⟨1, 0, 1, 0, taskIdInuse⟩).setPorter p ((engine.porter p).executes (some (task.typed .alone))))
      task.sfd formed listens
    1 1 1 (by omega) (by omega) rfl rfl ?_
  · exact leaves.congr (by simp)
  · intro fd
    have moved := @copies_setPorter φ porters p engine fd inside ((engine.porter p).executes (some (task.typed .alone)))
    rw [load] at moved
    have isFor : task.isFor fd = true ↔ fd = task.sfd := by simp [SwiftTaskNode.isFor, connection, eq_comm]
    simp only [isFor] at moved
    show copies porters (engine.setPorter p ((engine.porter p).executes (some (task.typed .alone)))) fd = _
    omega

theorem Formed.recv_whole :
    ∃ next, swiftAllTaskHit porters (engine.setWatch task.sfd .task) task = .ok next ∧ Leaves porters engine next
        (∀ i < porters, (engine.porter i).tlist.contents.length + 1 < (engine.porter i).tlist.max) := by
  obtain ⟨inside, idle, listens, connection⟩ := receives
  obtain ⟨empty, absent⟩ := formed.free_of_recv listens
  refine ⟨_, swiftAllTaskHit_free connection empty, ?_⟩
  obtain ⟨bound, all⟩ := sum_ite (fun i => (engine.porter i).tlist.contents.length + 1 <
    (engine.porter i).tlist.max) porters
  refine Leaves.congr (formed.registered listens (by omega) (Int.ofNat_le.mpr bound) rfl rfl ?_) ?_
  · intro fd
    refine (copies_distribute porters _ (task.typed .whole) fd).trans ?_
    have isFor : (task.typed .whole).isFor fd = true ↔ fd = task.sfd := by
      show task.isFor fd = true ↔ _
      simp [SwiftTaskNode.isFor, connection, eq_comm]
    simp only [isFor]
    by_cases same : fd = task.sfd
    · simp only [same, and_true, if_true]
      rfl
    · simp only [same, and_false, if_false, map_const', sum_replicate]
      simp
      rfl
  · rw [← all]
    exact Int.ofNat_inj

theorem Formed.recv_unknown : Leaves porters engine (engine.setWatch task.sfd .task) True := by
  obtain ⟨empty, absent⟩ := formed.free_of_recv receives.2.2.1
  refine formed.leaves task.sfd ?_ (.free empty absent) fun served => iff_of_true served trivial
  intro other different
  exact ⟨rfl, update_of_ne different .., rfl⟩

end

theorem Formed.act (event : Act φ) :
    ∃ next, Swift.act porters engine event = .ok next ∧ Leaves porters engine next (Kept porters engine event) := by
  cases event with
  | prepare p => exact ⟨_, rfl, formed.prepare p⟩
  | send fd => exact ⟨_, rfl, formed.send fd⟩
  | other p task => exact ⟨_, rfl, formed.other p task⟩
  | handle p =>
    cases executes : (engine.porter p).task with
    | none => exact ⟨engine, by simp only [Swift.act, executes], leaves_self formed (by simp [Kept, executes])⟩
    | some task =>
      by_cases inside : p < porters
      · obtain ⟨next, handled, leaves⟩ := formed.handle inside executes
        refine ⟨next, by simp only [Swift.act, executes, if_pos inside, handled], leaves.congr ?_⟩
        simp [Kept, inside, executes]
      · refine ⟨engine, by simp only [Swift.act, executes, if_neg inside], leaves_self formed ?_⟩
        exact fun within => absurd within inside
  | recv p task =>
    by_cases receives : engine.receives porters p task
    · simp only [Swift.act, if_pos receives, swiftRecvCb]
      cases type : task.type with
      | alone =>
        obtain ⟨next, ran, leaves⟩ := formed.recv_alone receives
        exact ⟨next, ran, leaves.congr (by simp [Kept, type])⟩
      | whole =>
        obtain ⟨next, hit, leaves⟩ := formed.recv_whole receives
        exact ⟨next, hit, leaves.congr (by simp [Kept, receives, type])⟩
      | unknown => exact ⟨_, rfl, (formed.recv_unknown receives).congr (by simp [Kept, type])⟩
    · refine ⟨engine, if_neg receives, leaves_self formed ?_⟩
      exact fun does => absurd does receives

end

theorem formed_start (porters : Nat) (zero : SwiftTaskNode φ) (max : Nat) (positive : 0 < max) (watch : Slot → Watch) :
    Formed porters (engineStart zero max positive watch) := by
  intro fd
  refine .free rfl ?_
  rw [copies]
  simp [engineStart, Porter.load]

/-- No assertion fails, and no copy is missing unless an event loses one. -/
theorem swiftRecvCb_served_iff (porters : Nat) (zero : SwiftTaskNode φ) (max : Nat) (positive : 0 < max)
    (watch : Slot → Watch) (events : List (Act φ)) :
    (∃ final answers, run (engineStep porters) (engineStart zero max positive watch) events = .ok (final, answers)) ∧
    (Always (engineStep porters) (Served porters) (engineStart zero max positive watch) events ↔
      Guarded (engineStep porters) (Kept porters) (engineStart zero max positive watch) events) := by
  have formed := formed_start porters zero max positive watch
  have steps : ∀ (engine : Engine φ) (event : Act φ), Formed porters engine → ∃ next,
      engineStep porters engine event = .ok (next, ()) ∧ Leaves porters engine next (Kept porters engine event) := by
    intro engine event formed
    obtain ⟨next, acted, leaves⟩ := formed.act event
    exact ⟨next, by rw [engineStep, acted]; rfl, leaves⟩
  have free : ∀ guard : Engine φ → Act φ → Prop, (∀ engine event, guard engine event) →
      Guarded (engineStep porters) guard (engineStart zero max positive watch) events :=
    fun guard all => guarded_of_forall_state fun engine event _ => all engine event
  refine ⟨?_, ?_⟩
  · obtain ⟨final, answers, returned, _⟩ := run_invariant (fun engine event formed _ => by
      obtain ⟨next, stepped, leaves⟩ := steps engine event formed
      exact ⟨next, (), stepped, leaves.1⟩) formed (free (fun _ _ => True) fun _ _ => trivial)
    exact ⟨final, answers, returned⟩
  · refine Machine.always_iff ?_ ?_ formed ?_ (free (fun _ _ => True) fun _ _ => trivial)
    · intro engine event formed served _
      obtain ⟨next, stepped, leaves⟩ := steps engine event formed
      rw [← leaves.2 served, stepped]
      refine ⟨?_, fun after => ⟨next, (), rfl, after⟩⟩
      rintro ⟨other, answer, same, after⟩
      cases same
      exact after
    · intro engine event next answer formed _ stepped
      obtain ⟨other, same, leaves⟩ := steps engine event formed
      rw [stepped] at same
      cases same
      exact leaves.1
    · intro fd inuse
      cases inuse

end step

theorem swiftRecvCb_lost_copies :
    let start : Engine Unit := engineStart ⟨0, .alone, .http, none⟩ 2 (by decide) fun _ => .recv
    (∃ final answers, run (engineStep 1) start [.recv 0 ⟨3, .alone, .http, none⟩, .handle 0] = .ok (final, answers) ∧
      final.view 3 = ⟨1, 0, 1, 0, taskIdInuse⟩ ∧ copies 1 final 3 = 0 ∧ ¬ Served 1 final) ∧
    ∃ final answers, run (engineStep 1) start
        [.recv 0 ⟨3, .whole, .http, some ()⟩, .recv 0 ⟨4, .whole, .http, some ()⟩] = .ok (final, answers) ∧
      final.view 4 = ⟨1, 0, 1, 0, taskIdInuse⟩ ∧ copies 1 final 4 = 0 ∧ ¬ Served 1 final := by
  intro start
  have lost : ∀ (final : Engine Unit) (fd : Slot), final.view fd = ⟨1, 0, 1, 0, taskIdInuse⟩ → copies 1 final fd = 0 →
      ¬ Served 1 final := by
    intro final fd shown absent served
    have nonempty := (served fd (by rw [shown])).2
    omega
  refine ⟨⟨_, _, rfl, rfl, rfl, lost _ 3 rfl rfl⟩,
    ⟨_, _, rfl, rfl, by decide +kernel, lost _ 4 rfl (by decide +kernel)⟩⟩

/-- A task for both porters, and one for a single porter while the second porter is still at the first. -/
theorem swiftRecvCb_served_alone :
    let start : Engine Unit := engineStart ⟨0, .alone, .http, none⟩ 4 (by decide) fun _ => .recv
    let events : List (Act Unit) := [.recv 0 ⟨3, .whole, .http, some ()⟩, .prepare 0, .handle 0, .prepare 1,
      .recv 0 ⟨5, .alone, .http, some ()⟩, .handle 1, .handle 0]
    Guarded (engineStep 2) (Kept 2) start events ∧ Always (engineStep 2) (Served 2) start events := by
  intro start events
  have executed : ∀ {engine : Engine Unit} {p : Nat} {task : SwiftTaskNode Unit}, (engine.porter p).task = some task →
      task.func.isSome = true → Kept 2 engine (.handle p) := by
    intro engine p task here func _ other same _
    cases here.symm.trans same
    exact func
  have kept : Guarded (engineStep 2) (Kept 2) start events := by
    refine (guarded_cons_iff rfl).mpr ⟨fun _ _ i _ => ?_, (guarded_cons_iff rfl).mpr ⟨trivial,
      (guarded_cons_iff rfl).mpr ⟨executed rfl rfl, (guarded_cons_iff rfl).mpr ⟨trivial,
      (guarded_cons_iff rfl).mpr ⟨fun _ whole => ?_, (guarded_cons_iff rfl).mpr ⟨executed rfl rfl,
      (guarded_cons_iff rfl).mpr ⟨executed rfl rfl, trivial⟩⟩⟩⟩⟩⟩⟩
    · exact (by decide : 0 + 1 < 4)
    · cases whole
  exact ⟨kept, (swiftRecvCb_served_iff 2 ⟨0, .alone, .http, none⟩ 4 (by decide) (fun _ => .recv) events).2.mpr kept⟩

end Libucmq.Swift
