import Libucmq.Store.Restart

/-! Many sessions: the store with its restarts stands for a store of queue models. -/

namespace Libucmq

open Segments Function Machine

structure StoreModel where
  queues : QueueName → Option QueueModel := fun _ => none
  number : Nat := 0

variable {model : StoreModel} {good : QueueModel → Prop} {queue : QueueModel}

namespace StoreModel

def put (model : StoreModel) (qname : QueueName) (queue : QueueModel) : StoreModel :=
  { model with queues := update model.queues qname (some queue) }

def step (model : StoreModel) : StoreOp → StoreModel × StoreAnswer
  | .add qname =>
    match model.queues qname with
    | some _ => (model, .added true)
    | none =>
      if defMaxQlistItems ≤ model.number then (model, .added false)
      else ({ model.put qname QueueModel.initial with number := model.number + 1 }, .added true)
  | .call qname op =>
    match model.queues qname with
    | none => (model, .missing)
    | some queue => (model.put qname (queue.step op).1, .called (queue.step op).2)
  | .reopen _ => ({ model with queues := fun qname => (model.queues qname).map .reopened }, .reopened)

def All (good : QueueModel → Prop) (model : StoreModel) : Prop :=
  ∀ qname queue, model.queues qname = some queue → good queue

theorem All.put (all : model.All good) (qname : QueueName)
    (holds : good queue) : (model.put qname queue).All good := by
  intro query other present
  by_cases same : query = qname
  · simp only [StoreModel.put, same, update_self, Option.some.injEq] at present
    exact present ▸ holds
  · simp only [StoreModel.put, ne_eq, same, not_false_eq_true, update_of_ne] at present
    exact all query other present

theorem All.step (all : model.All good)
    (new : good QueueModel.initial) {op : StoreOp}
    (calls : ∀ qname call queue, op = .call qname call → model.queues qname = some queue → good (queue.step call).1)
    (reopens : ∀ listing qname queue, op = .reopen listing → model.queues qname = some queue →
      good queue.reopened) : (model.step op).1.All good := by
  cases op with
  | add qname =>
    simp only [StoreModel.step]
    split
    · exact all
    · split
      · exact all
      · exact all.put qname new
  | call qname call =>
    cases present : model.queues qname with
    | none => simpa only [StoreModel.step, present] using all
    | some queue =>
      simp only [StoreModel.step, present]
      exact all.put qname (calls qname call queue rfl present)
  | reopen listing =>
    intro query queue present
    obtain ⟨old, oldPresent, rfl⟩ := Option.map_eq_some_iff.mp present
    exact reopens listing query old rfl oldPresent

def bodies (model : StoreModel) (qname : QueueName) : List (List UInt8) :=
  match model.queues qname with
  | none => []
  | some queue => queue.bodies

end StoreModel

structure Shows (store : Store) (model : StoreModel) : Prop where
  sound : Sound store
  number : store.qlist.length = model.number
  queues : ∀ qname, Option.Rel (fun node queue => Rep True node.queue node.os queue)
    (mqQmFindQueue store qname) (model.queues qname)

theorem shows_empty : Shows {} {} where
  sound := ⟨by simp [Table.keys], fun _ => rfl⟩
  number := rfl
  queues := fun _ => .none

def SessionSafe (store : Store) : StoreOp → Prop
  | .add _ => True
  | .call qname op => ∀ node, mqQmFindQueue store qname = some node → RollSafe node op
  | .reopen listing => ListsStore store listing ∧
      ∀ qname node, mqQmFindQueue store qname = some node → Reopenable node

variable {qname : QueueName}

namespace Shows

variable {store : Store} {model : StoreModel}

section

variable (showing : Shows store model)

include showing

theorem find (qname : QueueName) :
    (mqQmFindQueue store qname = none ∧ model.queues qname = none) ∨
      ∃ node queue, mqQmFindQueue store qname = some node ∧ model.queues qname = some queue ∧
        Rep True node.queue node.os queue := by
  have here := showing.queues qname
  generalize mqQmFindQueue store qname = found at here
  generalize model.queues qname = queue at here
  cases here with
  | none => exact Or.inl ⟨rfl, rfl⟩
  | some rep => exact Or.inr ⟨_, _, rfl, rfl, rep⟩

theorem of_found {node : Node} (found : mqQmFindQueue store qname = some node) :
    ∃ queue, model.queues qname = some queue ∧ Rep True node.queue node.os queue := by
  rcases showing.find qname with ⟨missing, _⟩ | ⟨same, queue, sameFound, present, rep⟩
  · rw [missing] at found
    cases found
  · obtain rfl := Option.some.inj (found.symm.trans sameFound)
    exact ⟨queue, present, rep⟩

theorem of_present (present : model.queues qname = some queue) :
    ∃ node, mqQmFindQueue store qname = some node ∧ Rep True node.queue node.os queue := by
  rcases showing.find qname with ⟨_, absent⟩ | ⟨node, same, found, samePresent, rep⟩
  · rw [absent] at present
    cases present
  · obtain rfl := Option.some.inj (present.symm.trans samePresent)
    exact ⟨node, found, rep⟩

theorem added {node : Node}
    (missing : mqQmFindQueue store qname = none) (rep : Rep True node.queue node.os QueueModel.initial) :
    Shows { qlist := store.qlist ++ [(qname, node)], leftover := update store.leftover qname none }
      { model.put qname QueueModel.initial with number := model.number + 1 } := by
  refine ⟨⟨distinct_added showing.sound.distinct missing node, fun query => ?_⟩, ?_, fun query => ?_⟩
  · by_cases same : query = qname
    · simp [same]
    · simp [same, showing.sound.clean query]
  · simp [showing.number]
  · rw [find_added missing]
    by_cases same : query = qname
    · simpa [same, StoreModel.put] using Option.Rel.some rep
    · simpa [same, StoreModel.put] using showing.queues query

theorem replaced {node next : Node}
    (found : mqQmFindQueue store qname = some node) (rep : Rep True next.queue next.os queue) :
    Shows (store.put qname next) (model.put qname queue) := by
  refine ⟨⟨?_, showing.sound.clean⟩, by rw [put_length]; exact showing.number, fun query => ?_⟩
  · rw [Store.put, Table.keys_replace]
    exact showing.sound.distinct
  · rw [find_put, found]
    by_cases same : query = qname
    · simpa [same, StoreModel.put] using Option.Rel.some rep
    · simpa [same, StoreModel.put] using showing.queues query

theorem add (qname : QueueName) :
    ∃ next, storeStep store (.add qname) = .ok (next, (model.step (.add qname)).2) ∧
      Shows next (model.step (.add qname)).1 := by
  simp only [storeStep, StoreModel.step]
  rcases showing.find qname with ⟨missing, absent⟩ | ⟨_, _, found, present, _⟩
  · rw [missing, absent]
    have number := showing.number
    rcases addQueue_spec store qname with ⟨full, addEq⟩ | ⟨node, room, rep, addEq⟩
    · rw [addEq, if_pos (by omega)]
      exact ⟨store, rfl, showing⟩
    · rw [addEq, if_neg (by omega)]
      exact ⟨_, rfl, showing.added missing rep⟩
  · rw [found, present]
    exact ⟨store, rfl, showing⟩

theorem call (qname : QueueName) (op : QueueOp)
    (safe : ∀ node, mqQmFindQueue store qname = some node → RollSafe node op) :
    ∃ next, storeStep store (.call qname op) = .ok (next, (model.step (.call qname op)).2) ∧
      Shows next (model.step (.call qname op)).1 := by
  simp only [storeStep, StoreModel.step]
  rcases showing.find qname with ⟨missing, absent⟩ | ⟨node, queue, found, present, rep⟩
  · rw [missing, absent]
    exact ⟨store, rfl, showing⟩
  · obtain ⟨next, stepEq, nextRep⟩ := queueStep_rep op rep (safe node found)
    rw [found, present]
    exact ⟨store.put qname next, by simp only [stepEq], showing.replaced found nextRep⟩

theorem reopen {listing : Listing} (lists : ListsStore store listing)
    (reopenable : ∀ qname node, mqQmFindQueue store qname = some node → Reopenable node) :
    ∃ next, storeStep store (.reopen listing) = .ok (next, (model.step (.reopen listing)).2) ∧
      Shows next (model.step (.reopen listing)).1 := by
  have opens : ∀ qname node queue, mqQmFindQueue store qname = some node →
      Rep True node.queue node.os queue →
      ∃ next, openQueue qname listing.cwd (listing.files qname) (closeQueue node) = some next ∧
        Rep True next.queue next.os queue.reopened := by
    intro qname node queue found rep
    have closed : mqQmCloseStore store qname = some (closeQueue node) := by
      rw [mqQmCloseStore, found]
    have listed := lists.files qname _ closed
    rw [(closeQueue_spec rep.reliable rep.fresh).1] at listed
    exact (reopenable qname node found).reopen rep qname listing.cwd listed
  obtain ⟨next, reopenEq, sound, number, finds⟩ := showing.sound.reopen lists (by
    intro qname node found
    obtain ⟨queue, _, rep⟩ := showing.of_found found
    exact (opens qname node queue found rep).imp fun _ opened => opened.1)
  refine ⟨next, reopenEq, sound, number.trans showing.number, fun qname => ?_⟩
  rw [finds]
  simp only [StoreModel.step]
  rcases showing.find qname with ⟨missing, absent⟩ | ⟨node, queue, found, present, rep⟩
  · rw [missing, absent]
    exact .none
  · obtain ⟨opened, openEq, openedRep⟩ := opens qname node queue found rep
    rw [found, present, Option.bind_some, openEq]
    exact .some openedRep

theorem step (op : StoreOp) (safe : SessionSafe store op) :
    ∃ next, storeStep store op = .ok (next, (model.step op).2) ∧ Shows next (model.step op).1 := by
  cases op with
  | add qname => exact showing.add qname
  | call qname op => exact showing.call qname op safe
  | reopen listing => exact showing.reopen safe.1 safe.2

end

end Shows

def acceptedOf (qname : QueueName) : List StoreOp → List StoreAnswer → List (List UInt8)
  | .call query op :: ops, .called answer :: answers =>
    (if query = qname then accepted [op] [answer] else []) ++ acceptedOf qname ops answers
  | _ :: ops, _ :: answers => acceptedOf qname ops answers
  | _, _ => []

def returnedOf (qname : QueueName) : List StoreOp → List StoreAnswer → List (List UInt8)
  | .call query _ :: ops, .called answer :: answers =>
    (if query = qname then returned [answer] else []) ++ returnedOf qname ops answers
  | _ :: ops, _ :: answers => returnedOf qname ops answers
  | _, _ => []

namespace StoreModel

theorem bodies_put (model : StoreModel) (qname query : QueueName) (queue : QueueModel) :
    (model.put qname queue).bodies query = if query = qname then queue.bodies else model.bodies query := by
  by_cases same : query = qname
  · simp [bodies, put, same]
  · simp [bodies, put, same]

theorem step_balance (model : StoreModel) (qname : QueueName) (op : StoreOp) :
    model.bodies qname ++ acceptedOf qname [op] [(model.step op).2] =
      returnedOf qname [op] [(model.step op).2] ++ (model.step op).1.bodies qname := by
  cases op with
  | add query =>
    cases present : model.queues query with
    | some queue => simp [step, present, acceptedOf, returnedOf]
    | none =>
      by_cases full : defMaxQlistItems ≤ model.number
      · simp [step, present, full, acceptedOf, returnedOf]
      · have empty : QueueModel.initial.bodies = [] := rfl
        by_cases same : qname = query
        · simp [step, present, full, acceptedOf, returnedOf, bodies, put, same, empty]
        · simp [step, present, full, acceptedOf, returnedOf, bodies, put, same]
  | call query op =>
    cases present : model.queues query with
    | none => simp [step, present, acceptedOf, returnedOf]
    | some queue =>
      have balance := queue.step_balance op
      simp only [step, present, acceptedOf, returnedOf, List.append_nil, bodies_put]
      by_cases same : query = qname
      · subst same
        simpa [bodies, present] using balance
      · simp [same, Ne.symm same]
  | reopen listing =>
    cases present : model.queues qname with
    | none => simp [step, bodies, present, acceptedOf, returnedOf]
    | some queue =>
      simp [step, bodies, present, acceptedOf, returnedOf, QueueModel.bodies, QueueModel.unread,
        QueueModel.reopened]

end StoreModel

theorem acceptedOf_cons (qname : QueueName) (op : StoreOp) (answer : StoreAnswer) (ops : List StoreOp)
    (answers : List StoreAnswer) : acceptedOf qname (op :: ops) (answer :: answers) =
      acceptedOf qname [op] [answer] ++ acceptedOf qname ops answers := by
  cases op <;> cases answer <;> simp [acceptedOf]

theorem returnedOf_cons (qname : QueueName) (op : StoreOp) (answer : StoreAnswer) (ops : List StoreOp)
    (answers : List StoreAnswer) : returnedOf qname (op :: ops) (answer :: answers) =
      returnedOf qname [op] [answer] ++ returnedOf qname ops answers := by
  cases op <;> cases answer <;> simp [returnedOf]

abbrev storeModelRun (model : StoreModel) (ops : List StoreOp) : StoreModel × List StoreAnswer :=
  specRun StoreModel.step model ops

theorem storeModelRun_balance (model : StoreModel) (qname : QueueName) (ops : List StoreOp) :
    model.bodies qname ++ acceptedOf qname ops (storeModelRun model ops).2 =
      returnedOf qname ops (storeModelRun model ops).2 ++ (storeModelRun model ops).1.bodies qname := by
  induction ops generalizing model with
  | nil => simp [specRun, acceptedOf, returnedOf]
  | cons op ops ih =>
    have first := model.step_balance qname op
    have later := ih (model.step op).1
    simp only [specRun]
    rw [acceptedOf_cons, returnedOf_cons, ← List.append_assoc, first, List.append_assoc, later,
      List.append_assoc]

theorem storeRun_all {guard : Store → StoreOp → Prop}
    (safe : ∀ store model op, Shows store model → model.All good → guard store op → SessionSafe store op)
    (new : good QueueModel.initial) (calls : ∀ store qname op node model, guard store (.call qname op) →
      mqQmFindQueue store qname = some node → Rep True node.queue node.os model → good model → good (model.step op).1)
    (reopens : ∀ store listing qname node model, guard store (.reopen listing) →
      mqQmFindQueue store qname = some node → Rep True node.queue node.os model → good model → good model.reopened)
    {ops : List StoreOp} (guarded : Guarded storeStep guard {} ops) :
    ∃ store, run storeStep {} ops = .ok (store, (storeModelRun {} ops).2) ∧
      Shows store (storeModelRun {} ops).1 ∧ (storeModelRun {} ops).1.All good := by
  refine @Machine.run_simulation _ _ _ _ _ storeStep guard StoreModel.step
    (fun store model => Shows store model ∧ model.All good) ?_ {} {} ops
    ⟨shows_empty, fun _ _ absent => by cases absent⟩ guarded
  rintro store model op ⟨showing, all⟩ allowed
  obtain ⟨next, stepEq, nextShows⟩ := showing.step op (safe store model op showing all allowed)
  refine ⟨next, stepEq, nextShows, all.step new ?_ ?_⟩
  · rintro qname call queue rfl present
    obtain ⟨node, found, rep⟩ := showing.of_present present
    exact calls store qname call node queue allowed found rep (all qname queue present)
  · rintro listing qname queue rfl present
    obtain ⟨node, found, rep⟩ := showing.of_present present
    exact reopens store listing qname node queue allowed found rep (all qname queue present)

end Libucmq
