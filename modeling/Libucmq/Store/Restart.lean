import Libucmq.Store.Api
import Libucmq.Store.Fifo
import Libucmq.Store.Reopen

/-! Closing and opening the store. -/

namespace Libucmq

open Segments List Function Machine Decimal

variable {store : Store} {qname : QueueName} {node : Node} {model : QueueModel}

def Alike (left right : Node) : Prop :=
  ∃ model, Rep True left.queue left.os model ∧ Rep True right.queue right.os model

variable {op : QueueOp}

theorem Alike.rollSafe {left right : Node} (alike : Alike left right)
    (safe : RollSafe left op) : RollSafe right op := by
  obtain ⟨model, leftRep, rightRep⟩ := alike
  cases op with
  | push record =>
    intro full
    rw [rightRep.writeIndex, ← leftRep.writeIndex]
    exact safe (by rw [leftRep.writeFull_eq, ← rightRep.writeFull_eq, full])
  | pop stack => trivial
  | setMaxqueue maxque => trivial

theorem Alike.step {left right : Node} (alike : Alike left right) (safe : RollSafe left op) :
    ∃ nextLeft nextRight answer, queueStep left op = .ok (nextLeft, answer) ∧
      queueStep right op = .ok (nextRight, answer) ∧ Alike nextLeft nextRight := by
  have rightSafe := alike.rollSafe safe
  obtain ⟨model, leftRep, rightRep⟩ := alike
  obtain ⟨nextLeft, leftEq, leftNext⟩ := queueStep_rep op leftRep safe
  obtain ⟨nextRight, rightEq, rightNext⟩ := queueStep_rep op rightRep rightSafe
  exact ⟨nextLeft, nextRight, _, leftEq, rightEq, _, leftNext, rightNext⟩

structure Agree (left right : Store) : Prop where
  number : left.qlist.length = right.qlist.length
  queues : ∀ qname, Option.Rel Alike (mqQmFindQueue left qname) (mqQmFindQueue right qname)

def StoreSafe (store : Store) : StoreOp → Prop
  | .add _ => True
  | .call qname op => ∀ node, mqQmFindQueue store qname = some node → RollSafe node op
  | .reopen _ => False

theorem find_put (store : Store) (qname query : QueueName) (node : Node) :
    mqQmFindQueue (store.put qname node) query =
      if query = qname then (mqQmFindQueue store qname).map fun _ => node
      else mqQmFindQueue store query := Table.find_replace

theorem put_length (store : Store) (qname : QueueName) (node : Node) :
    (store.put qname node).qlist.length = store.qlist.length := by
  simp [Store.put, Table.replace]

theorem addQueue_spec (store : Store) (qname : QueueName) :
    defMaxQlistItems ≤ store.qlist.length ∧ mqQmAddQueue store qname = (none, store) ∨
      ∃ node, store.qlist.length < defMaxQlistItems ∧ Rep True node.queue node.os QueueModel.initial ∧
        mqQmAddQueue store qname =
          (some node, { qlist := store.qlist ++ [(qname, node)]
                        leftover := update store.leftover qname none }) := by
  by_cases full : defMaxQlistItems ≤ store.qlist.length
  · exact Or.inl ⟨full, if_pos full⟩
  · obtain ⟨node, createEq, rep⟩ := @createQueue_rep qname
      { dir := (store.leftover qname).getD {} } (fun _ => rfl) (fun _ _ => ⟨rfl, rfl⟩)
    refine Or.inr ⟨node, by omega, rep, ?_⟩
    rw [mqQmAddQueue, if_neg full, createEq]

theorem find_added (missing : mqQmFindQueue store qname = none)
    (node : Node) (leftover : QueueName → Option QueueDir) (query : QueueName) :
    mqQmFindQueue { qlist := store.qlist ++ [(qname, node)], leftover } query =
      if query = qname then some node else mqQmFindQueue store query := by
  simp only [mqQmFindQueue] at missing ⊢
  rw [Table.find_append]
  by_cases same : query = qname
  · simp [same, missing, Table.find]
  · simp [same, Table.find]

namespace Agree

variable {left right : Store}

section

variable (agree : Agree left right)

include agree

theorem find (qname : QueueName) :
    (mqQmFindQueue left qname = none ∧ mqQmFindQueue right qname = none) ∨
      ∃ leftNode rightNode, mqQmFindQueue left qname = some leftNode ∧
        mqQmFindQueue right qname = some rightNode ∧ Alike leftNode rightNode := by
  have here := agree.queues qname
  generalize mqQmFindQueue left qname = leftFind at here
  generalize mqQmFindQueue right qname = rightFind at here
  cases here with
  | none => exact Or.inl ⟨rfl, rfl⟩
  | some alike => exact Or.inr ⟨_, _, rfl, rfl, alike⟩

theorem add (qname : QueueName) :
    ∃ nextLeft nextRight answer, storeStep left (.add qname) = .ok (nextLeft, answer) ∧
      storeStep right (.add qname) = .ok (nextRight, answer) ∧ Agree nextLeft nextRight := by
  simp only [storeStep]
  rcases agree.find qname with ⟨leftFind, rightFind⟩ | ⟨_, _, leftFind, rightFind, _⟩
  · rw [leftFind, rightFind]
    have number := agree.number
    rcases addQueue_spec left qname with ⟨full, leftEq⟩ | ⟨leftNode, room, leftRep, leftEq⟩ <;>
      rcases addQueue_spec right qname with ⟨rightFull, rightEq⟩ | ⟨rightNode, rightRoom, rightRep, rightEq⟩
    · exact ⟨left, right, .added false, by simp only [leftEq], by simp only [rightEq], agree⟩
    · omega
    · omega
    · refine ⟨_, _, .added true, by simp only [leftEq]; rfl, by simp only [rightEq]; rfl, by simp [number], ?_⟩
      intro query
      rw [find_added leftFind, find_added rightFind]
      split
      · exact .some ⟨_, leftRep, rightRep⟩
      · exact agree.queues query
  · rw [leftFind, rightFind]
    exact ⟨left, right, .added true, rfl, rfl, agree⟩

theorem call (qname : QueueName) (op : QueueOp)
    (safe : ∀ node, mqQmFindQueue left qname = some node → RollSafe node op) :
    ∃ nextLeft nextRight answer, storeStep left (.call qname op) = .ok (nextLeft, answer) ∧
      storeStep right (.call qname op) = .ok (nextRight, answer) ∧ Agree nextLeft nextRight := by
  simp only [storeStep]
  rcases agree.find qname with ⟨leftFind, rightFind⟩ | ⟨leftNode, rightNode, leftFind, rightFind, alike⟩
  · rw [leftFind, rightFind]
    exact ⟨left, right, .missing, rfl, rfl, agree⟩
  · obtain ⟨nextLeft, nextRight, answer, leftEq, rightEq, next⟩ := alike.step (safe leftNode leftFind)
    rw [leftFind, rightFind]
    refine ⟨left.put qname nextLeft, right.put qname nextRight, .called answer, by simp only [leftEq],
      by simp only [rightEq], by rw [put_length, put_length, agree.number], ?_⟩
    intro query
    rw [find_put, find_put, leftFind, rightFind]
    split
    · exact .some next
    · exact agree.queues query

theorem step (op : StoreOp) (safe : StoreSafe left op) :
    ∃ nextLeft nextRight answer, storeStep left op = .ok (nextLeft, answer) ∧
      storeStep right op = .ok (nextRight, answer) ∧ Agree nextLeft nextRight := by
  cases op with
  | add qname => exact agree.add qname
  | call qname op => exact agree.call qname op safe
  | reopen listing => exact safe.elim

end

end Agree

structure Sound (store : Store) : Prop where
  distinct : (Table.keys store.qlist).Nodup
  clean : ∀ qname, store.leftover qname = none

theorem distinct_added (distinct : (Table.keys store.qlist).Nodup)
    (missing : mqQmFindQueue store qname = none) (node : Node) :
    (Table.keys (store.qlist ++ [(qname, node)])).Nodup := by
  simp only [Table.keys, map_append, map_cons, map_nil]
  rw [nodup_append]
  refine ⟨distinct, by simp, ?_⟩
  intro name member other single
  rw [mem_singleton] at single
  rintro rfl
  subst single
  exact Table.find_none_iff.mp missing member

theorem Sound.step {store next : Store} {answer : StoreAnswer} (sound : Sound store) {op : StoreOp}
    (safe : StoreSafe store op) (stepEq : storeStep store op = .ok (next, answer)) : Sound next := by
  cases op with
  | add qname =>
    simp only [storeStep] at stepEq
    cases found : mqQmFindQueue store qname with
    | some node =>
      simp only [found, Except.ok.injEq, Prod.mk.injEq] at stepEq
      exact stepEq.1 ▸ sound
    | none =>
      rcases addQueue_spec store qname with ⟨_, addEq⟩ | ⟨node, _, _, addEq⟩
      · simp only [found, addEq, Except.ok.injEq, Prod.mk.injEq] at stepEq
        exact stepEq.1 ▸ sound
      · simp only [found, addEq, Except.ok.injEq, Prod.mk.injEq] at stepEq
        rw [← stepEq.1]
        refine ⟨distinct_added sound.distinct found node, fun query => ?_⟩
        by_cases same : query = qname
        · simp [same]
        · simp [same, sound.clean query]
  | call qname op =>
    simp only [storeStep] at stepEq
    split at stepEq
    · cases stepEq
      exact sound
    · split at stepEq
      · cases stepEq
      · cases stepEq
        exact ⟨by rw [Store.put, Table.keys_replace]; exact sound.distinct, sound.clean⟩
  | reopen listing => exact safe.elim

structure ListsStore (store : Store) (listing : Listing) : Prop where
  names : ∀ qname, qname ∈ listing.names ↔ mqQmCloseStore store qname ≠ none
  distinct : listing.names.Nodup
  files : ∀ qname os, mqQmCloseStore store qname = some os → Lists os.dir (listing.files qname)

def Listing.opens (listing : Listing) (disk : QueueName → Option Os) (qname : QueueName) : Option Node :=
  (disk qname).bind (openQueue qname listing.cwd (listing.files qname))

theorem openStoreStep_eq (listing : Listing) (disk : QueueName → Option Os) (store : Store) (qname : QueueName) :
    openStoreStep listing disk store qname =
      match listing.opens disk qname with
      | some node => { qlist := store.qlist ++ [(qname, node)]
                       leftover := update store.leftover qname none }
      | none => store := by
  rw [openStoreStep, Listing.opens]
  cases disk qname <;> rfl

theorem openStore_fold (listing : Listing) (disk : QueueName → Option Os) (names : List QueueName)
    {store : Store} (once : names.Nodup) (missing : ∀ qname ∈ names, mqQmFindQueue store qname = none)
    (distinct : (Table.keys store.qlist).Nodup) :
    (Table.keys (names.foldl (openStoreStep listing disk) store).qlist).Nodup ∧ ∀ qname,
        mqQmFindQueue (names.foldl (openStoreStep listing disk) store) qname =
            (if qname ∈ names then listing.opens disk qname else mqQmFindQueue store qname) ∧
          (names.foldl (openStoreStep listing disk) store).leftover qname =
            if qname ∈ names ∧ listing.opens disk qname ≠ none then none else store.leftover qname := by
  induction names generalizing store with
  | nil => exact ⟨distinct, fun qname => by simp⟩
  | cons name names ih =>
    obtain ⟨first, later⟩ := nodup_cons.mp once
    have here := missing name mem_cons_self
    have rest := fun query member => missing query (mem_cons_of_mem name member)
    rw [foldl_cons, openStoreStep_eq]
    cases opened : listing.opens disk name with
    | none =>
      obtain ⟨kept, finds⟩ := ih later rest distinct
      refine ⟨kept, fun query => ?_⟩
      rw [(finds query).1, (finds query).2]
      by_cases asked : query = name
      · subst asked
        simp [first, opened, here]
      · simp [asked]
    | some node =>
      have added := find_added here node (update store.leftover name none)
      obtain ⟨kept, finds⟩ := ih later (fun query member => by
          have other : query ≠ name := fun same => first (same ▸ member)
          rw [added, if_neg other]
          exact rest query member)
        (distinct_added distinct here node)
      refine ⟨kept, fun query => ?_⟩
      rw [(finds query).1, (finds query).2, added]
      by_cases asked : query = name
      · subst asked
        simp [first, opened]
      · simp [asked]

theorem Sound.reopen (sound : Sound store) {listing : Listing} (lists : ListsStore store listing)
    (accepts : ∀ qname node, mqQmFindQueue store qname = some node →
      ∃ next, openQueue qname listing.cwd (listing.files qname) (closeQueue node) = some next) :
    ∃ reopened, storeStep store (.reopen listing) = .ok (reopened, .reopened) ∧ Sound reopened ∧
      reopened.qlist.length = store.qlist.length ∧
      ∀ qname, mqQmFindQueue reopened qname = (mqQmFindQueue store qname).bind fun node =>
        openQueue qname listing.cwd (listing.files qname) (closeQueue node) := by
  have disk : ∀ qname, mqQmCloseStore store qname = (mqQmFindQueue store qname).map closeQueue := by
    intro qname
    rw [mqQmCloseStore, sound.clean]
    cases mqQmFindQueue store qname <;> rfl
  obtain ⟨distinct, finds⟩ := @openStore_fold listing (mqQmCloseStore store) listing.names
    { leftover := fun qname => (mqQmCloseStore store qname).map Os.dir } lists.distinct
    (fun _ _ => rfl) (by simp [Table.keys])
  change (Table.keys (mqQmOpenStore listing (mqQmCloseStore store)).qlist).Nodup at distinct
  have found : ∀ qname, mqQmFindQueue (mqQmOpenStore listing (mqQmCloseStore store)) qname =
      (mqQmFindQueue store qname).bind fun node =>
        openQueue qname listing.cwd (listing.files qname) (closeQueue node) := by
    intro qname
    rw [mqQmOpenStore, (finds qname).1]
    simp only [lists.names, Listing.opens, disk]
    cases mqQmFindQueue store qname <;> simp [mqQmFindQueue, Table.find]
  refine ⟨_, rfl, ⟨distinct, ?_⟩, ?_, found⟩
  · intro qname
    rw [mqQmOpenStore, (finds qname).2]
    simp only [lists.names, Listing.opens, disk]
    cases present : mqQmFindQueue store qname with
    | none => simp
    | some node =>
      obtain ⟨next, openEq⟩ := accepts qname node present
      simp [openEq]
  · have same : (Table.keys (mqQmOpenStore listing (mqQmCloseStore store)).qlist).Perm
        (Table.keys store.qlist) := by
      refine (perm_ext_iff_of_nodup distinct sound.distinct).mpr fun qname => ?_
      rw [← not_iff_not, ← Table.find_none_iff, ← Table.find_none_iff]
      have here := found qname
      simp only [mqQmFindQueue] at here
      rw [here]
      cases present : Table.find store.qlist qname with
      | none => simp
      | some node =>
        obtain ⟨next, openEq⟩ := accepts qname node present
        simp [openEq]
    simpa [Table.keys] using same.length_eq

structure Reopenable (node : Node) : Prop where
  pos : ∃ front putNum maxque, node.os.dir.tag .wtag node.queue.curWdb.curIndex =
    some (front ++ wtagItem putNum node.queue.curWdb.pos maxque)
  size : ∀ content, node.os.dir.tag .wtag node.queue.curWdb.curIndex = some content →
    41 ≤ toCInt content.length
  fits : node.queue.curWdb.curIndex.toNat < 10 ^ 12

theorem wtagItem_inj {front other : List UInt8} {putNum otherNum : UInt64} {pos maxque otherPos otherMax : UInt32}
    (same : front ++ wtagItem putNum pos maxque = other ++ wtagItem otherNum otherPos otherMax) :
    putNum = otherNum ∧ pos = otherPos ∧ maxque = otherMax := by
  have line := (append_inj' same (by rw [wtagItem_length, wtagItem_length])).2
  simp only [wtagItem, padded_of_fits (show 0 < 20 by omega) (uint64_fits _),
    padded_of_fits (show 0 < 10 by omega) (uint32_fits _)] at line
  obtain ⟨fields, _⟩ := append_inj' line rfl
  obtain ⟨two, maxEq⟩ := append_inj' fields (by simp)
  obtain ⟨putEq, posEq⟩ := append_inj' two (by simp)
  exact ⟨UInt64.toNat_inj.mp (fixedDigits_injective (uint64_fits _) (uint64_fits _) putEq),
    UInt32.toNat_inj.mp (fixedDigits_injective (uint32_fits _) (uint32_fits _) posEq),
    UInt32.toNat_inj.mp (fixedDigits_injective (uint32_fits _) (uint32_fits _) maxEq)⟩

theorem Reopenable.reopen (reopenable : Reopenable node) (rep : Rep True node.queue node.os model)
    (qname : List UInt8) (cwd : FileName → Bool) {listing : List FileName} (lists : Lists node.os.dir listing) :
    ∃ next, openQueue qname cwd listing (closeQueue node) = some next ∧
      Rep True next.queue next.os model.reopened := by
  obtain ⟨front, _, _, lineEq⟩ := reopenable.pos
  obtain ⟨noted, notedEq⟩ := (rep.tags trivial).line
  obtain ⟨content, length, contentEq, _⟩ := (rep.tags trivial).wtag
  obtain ⟨_, posEq, _⟩ := wtagItem_inj (Option.some.inj (lineEq.symm.trans notedEq))
  have size := reopenable.size content contentEq
  rw [length] at size
  have fits := reopenable.fits
  rw [rep.writeIndex] at fits
  exact rep.reopen qname cwd lists fits size (by rw [← posEq, rep.writePos])

structure Settled (node : Node) : Prop where
  line : ∃ front, node.os.dir.tag .wtag node.queue.curWdb.curIndex =
    some (front ++ wtagItem node.queue.putNum node.queue.curWdb.pos node.queue.maxque)
  size : ∀ content, node.os.dir.tag .wtag node.queue.curWdb.curIndex = some content →
    41 ≤ toCInt content.length
  fits : node.queue.curWdb.curIndex.toNat < 10 ^ 12

theorem Settled.reopened_eq (settled : Settled node)
    (rep : Rep True node.queue node.os model) : model.reopened = model := by
  obtain ⟨front, lineEq⟩ := settled.line
  obtain ⟨noted, notedEq⟩ := (rep.tags trivial).line
  obtain ⟨putEq, _, maxEq⟩ := wtagItem_inj (Option.some.inj (lineEq.symm.trans notedEq))
  rw [QueueModel.reopened, ← putEq, ← maxEq, rep.putNum, rep.maxque]

theorem Settled.reopen (settled : Settled node) (rep : Rep True node.queue node.os model) (qname : List UInt8)
    (cwd : FileName → Bool) {listing : List FileName} (lists : Lists node.os.dir listing) :
    ∃ next, openQueue qname cwd listing (closeQueue node) = some next ∧ Rep True next.queue next.os model := by
  obtain ⟨front, lineEq⟩ := settled.line
  have reopenable : Reopenable node := ⟨⟨front, _, _, lineEq⟩, settled.size, settled.fits⟩
  obtain ⟨next, openEq, nextRep⟩ := reopenable.reopen rep qname cwd lists
  exact ⟨next, openEq, settled.reopened_eq rep ▸ nextRep⟩

structure SameQueue (before after : Node) : Prop where
  alike : Alike before after
  count : after.queue.putNum - after.queue.getNum = before.queue.putNum - before.queue.getNum
  limit : after.queue.maxque = before.queue.maxque

theorem Alike.same {before after : Node} (alike : Alike before after) : SameQueue before after := by
  obtain ⟨model, beforeRep, afterRep⟩ := alike
  exact ⟨⟨model, beforeRep, afterRep⟩,
    by rw [afterRep.putNum, afterRep.getNum, beforeRep.putNum, beforeRep.getNum],
    by rw [afterRep.maxque, beforeRep.maxque]⟩

/-- Closing and opening gives back every queue, when all are settled. -/
theorem restart_preserves (ops : List StoreOp) (safe : Guarded storeStep StoreSafe {} ops) :
    ∃ store answers, run storeStep {} ops = .ok (store, answers) ∧ ∀ listing, ListsStore store listing →
        (∀ qname node, mqQmFindQueue store qname = some node → Settled node) →
        ∃ reopened, storeStep store (.reopen listing) = .ok (reopened, .reopened) ∧
          (∀ qname, Option.Rel SameQueue (mqQmFindQueue store qname) (mqQmFindQueue reopened qname)) ∧
          ∀ future, Guarded storeStep StoreSafe store future →
            ∃ final other later, run storeStep store future = .ok (final, later) ∧
              run storeStep reopened future = .ok (other, later) := by
  have start : Agree {} {} ∧ Sound {} :=
    ⟨⟨rfl, fun _ => .none⟩, ⟨by simp [Table.keys], fun _ => rfl⟩⟩
  obtain ⟨store, answers, runEq, agree, sound⟩ := @Machine.run_invariant _ _ _ _ storeStep StoreSafe
    (fun store => Agree store store ∧ Sound store) (by
      rintro store op ⟨agree, sound⟩ safe
      obtain ⟨next, other, answer, stepEq, otherEq, nextAgree⟩ := agree.step op safe
      rw [stepEq] at otherEq
      cases otherEq
      exact ⟨next, answer, stepEq, nextAgree, sound.step safe stepEq⟩) {} ops start safe
  refine ⟨store, answers, runEq, ?_⟩
  intro listing lists settled
  have opens : ∀ qname node, mqQmFindQueue store qname = some node →
      ∃ next, openQueue qname listing.cwd (listing.files qname) (closeQueue node) = some next ∧
        Alike node next := by
    intro qname node found
    rcases agree.find qname with ⟨absent, _⟩ | ⟨_, _, foundLeft, _, model, rep, _⟩
    · rw [absent] at found
      cases found
    · rw [found] at foundLeft
      cases foundLeft
      have closed : mqQmCloseStore store qname = some (closeQueue node) := by
        rw [mqQmCloseStore, found]
      have listed := lists.files qname _ closed
      rw [(closeQueue_spec rep.reliable rep.fresh).1] at listed
      obtain ⟨next, openEq, nextRep⟩ := (settled qname node found).reopen rep qname listing.cwd listed
      exact ⟨next, openEq, model, rep, nextRep⟩
  obtain ⟨reopened, reopenEq, _, number, finds⟩ := sound.reopen lists
    (fun qname node found => (opens qname node found).imp fun _ opened => opened.1)
  have reopenedAgree : Agree store reopened := by
    refine ⟨number.symm, fun qname => ?_⟩
    rw [finds]
    cases found : mqQmFindQueue store qname with
    | none => exact .none
    | some node =>
      obtain ⟨next, openEq, alike⟩ := opens qname node found
      rw [Option.bind_some, openEq]
      exact .some alike
  refine ⟨reopened, reopenEq, fun qname => ?_, fun future futureSafe => ?_⟩
  · rcases reopenedAgree.find qname with ⟨here, there⟩ | ⟨_, _, here, there, alike⟩
    · rw [here, there]
      exact .none
    · rw [here, there]
      exact .some alike.same
  · obtain ⟨final, other, later, finalEq, otherEq, _⟩ := run_agree
      (fun left right op related guard => related.step op guard) reopenedAgree futureSafe
    exact ⟨final, other, later, finalEq, otherEq⟩

def single (qname : QueueName) (node : Node) : Store := { qlist := [(qname, node)] }

theorem find_single (qname query : QueueName) (node : Node) :
    mqQmFindQueue (single qname node) query = if query = qname then some node else none := rfl

theorem add_single (qname : QueueName) : ∃ node, storeStep {} (.add qname) = .ok (single qname node, .added true) ∧
      Rep True node.queue node.os QueueModel.initial := by
  rcases addQueue_spec {} qname with ⟨full, _⟩ | ⟨node, _, rep, addEq⟩
  · simp [defMaxQlistItems] at full
  · refine ⟨node, ?_, rep⟩
    rw [storeStep, show mqQmFindQueue {} qname = none from rfl]
    simp only [addEq, single]
    simp

theorem call_single (qname : QueueName) {next : Node} {answer : QueueAnswer}
    (stepEq : queueStep node op = .ok (next, answer)) :
    storeStep (single qname node) (.call qname op) = .ok (single qname next, .called answer) := by
  rw [storeStep, find_single, if_pos rfl]
  simp [stepEq, single, Store.put, Table.replace]

theorem run_single (qname : QueueName) {final : Node} {ops : List QueueOp}
    {answers : List QueueAnswer} (runEq : run queueStep node ops = .ok (final, answers)) :
    run storeStep (single qname node) (ops.map (.call qname)) =
      .ok (single qname final, answers.map .called) := by
  induction ops generalizing node answers with
  | nil =>
    cases runEq
    rfl
  | cons op ops ih =>
    obtain ⟨next, answer, later, stepEq, restEq, rfl⟩ := run_cons_ok runEq
    exact run_cons (call_single qname stepEq) (ih restEq)

def singleListing (qname : QueueName) (index : UInt64) : Listing where
  names := [qname]
  files := fun _ => [.db index, .tag .rtag index, .tag .wtag index]
  cwd := fun _ => false

theorem lists_single (qname : QueueName) (rep : Rep True node.queue node.os model) (alone : model.log.more = []) :
    ListsStore (single qname node) (singleListing qname node.queue.curRdb.curIndex) := by
  have same : node.queue.curWdb.curIndex = node.queue.curRdb.curIndex := by
    apply UInt64.toNat_inj.mp
    rw [rep.readIndex, rep.writeIndex, Log.last, alone]
    rfl
  have tags := rep.tags trivial
  obtain ⟨file, found, _⟩ := rep.head_file
  obtain ⟨_, _, _, _, rtag, _⟩ := tags.rtag
  obtain ⟨_, _, wtag, _⟩ := tags.wtag
  have rtagAlone := tags.rtagAlone
  have wtagAlone := tags.wtagAlone
  rw [same] at wtag wtagAlone
  have closed : ∀ query, mqQmCloseStore (single qname node) query =
      if query = qname then some (closeQueue node) else none := by
    intro query
    rw [mqQmCloseStore, find_single]
    by_cases asked : query = qname <;> simp [asked, single]
  refine ⟨fun query => by simp [singleListing, closed], by simp [singleListing], ?_⟩
  intro query os closedEq
  rw [closed] at closedEq
  split at closedEq
  · obtain rfl := Option.some.inj closedEq
    rw [(closeQueue_spec rep.reliable rep.fresh).1]
    refine ⟨fun index => ?_, fun kind index => ?_, by simp [singleListing]⟩
    · by_cases here : index = node.queue.curRdb.curIndex
      · simp [singleListing, here, found]
      · have missing : node.os.dir.db index = none := by
          have apart : index.toNat ≠ model.log.first := by
            rw [← rep.readIndex]
            exact fun equal => here (UInt64.toNat_inj.mp equal)
          rcases Nat.lt_or_gt_of_ne apart with early | late
          · exact tags.noneBefore index early
          · exact rep.absent index (by simpa [Log.last, alone] using late)
        simp [singleListing, here, missing]
    · by_cases here : index = node.queue.curRdb.curIndex
      · cases kind <;> simp [singleListing, here, rtag, wtag]
      · cases kind <;> simp [singleListing, here, rtagAlone index here, wtagAlone index here]
  · cases closedEq

theorem sound_single (qname : QueueName) (node : Node) : Sound (single qname node) :=
  ⟨by simp [Table.keys, single], fun _ => rfl⟩

theorem reopen_single {next : Node} {listing : Listing} (lists : ListsStore (single qname node) listing)
    (openEq : openQueue qname listing.cwd (listing.files qname) (closeQueue node) = some next) :
    ∃ reopened, storeStep (single qname node) (.reopen listing) = .ok (reopened, .reopened) ∧
      mqQmFindQueue reopened qname = some next := by
  obtain ⟨reopened, reopenEq, _, _, finds⟩ := (sound_single qname node).reopen lists (by
    intro query other found
    rw [find_single] at found
    split at found
    · rename_i same
      subst same
      obtain rfl := Option.some.inj found
      exact ⟨next, openEq⟩
    · cases found)
  refine ⟨reopened, reopenEq, ?_⟩
  rw [finds, find_single, if_pos rfl]
  exact openEq

theorem call_found {next : Node} {answer : QueueAnswer} (found : mqQmFindQueue store qname = some node)
    (stepEq : queueStep node op = .ok (next, answer)) :
    storeStep store (.call qname op) = .ok (store.put qname next, .called answer) := by
  rw [storeStep, found]
  simp only [stepEq]

def jobsName : QueueName := ⟨[106, 111, 98, 115], by decide⟩

theorem run_new (qname : QueueName) {ops : List QueueOp} (few : ops.length < 100) :
    ∃ node, run storeStep {} (.add qname :: ops.map (.call qname)) = .ok (single qname node,
          .added true :: (modelRun QueueModel.initial ops).2.map .called) ∧
      Rep True node.queue node.os (modelRun QueueModel.initial ops).1 := by
  obtain ⟨node, addEq, rep⟩ := add_single qname
  obtain ⟨final, runEq, finalRep⟩ := queueRun_rep rep
    (@guarded_of_length _ _ _ ops rep (by simp only [QueueModel.initial, Log.last, length_nil]; omega))
  exact ⟨final, run_cons addEq (run_single qname runEq), finalRep⟩

theorem guarded_single (qname : QueueName) {node : Node} {ops : List QueueOp}
    (guarded : Guarded queueStep RollSafe node ops) :
    Guarded storeStep StoreSafe (single qname node) (ops.map (.call qname)) := by
  induction ops generalizing node with
  | nil => trivial
  | cons op ops ih =>
    refine ⟨fun other found => ?_, fun store answer stepEq => ?_⟩
    · rw [find_single, if_pos rfl] at found
      exact Option.some.inj found ▸ guarded.1
    · cases nextEq : queueStep node op with
      | error abort =>
        rw [storeStep, find_single, if_pos rfl] at stepEq
        simp only [nextEq] at stepEq
        cases stepEq
      | ok pair =>
        rw [call_single qname nextEq] at stepEq
        cases stepEq
        exact ih (guarded.2 _ _ nextEq)

theorem guarded_new (qname : QueueName) {ops : List QueueOp} (few : ops.length < 100) :
    Guarded storeStep StoreSafe {} (.add qname :: ops.map (.call qname)) := by
  refine ⟨trivial, fun store answer stepEq => ?_⟩
  obtain ⟨node, addEq, rep⟩ := add_single qname
  rw [addEq] at stepEq
  cases stepEq
  exact guarded_single qname
    (guarded_of_length rep (by simp only [QueueModel.initial, Log.last, length_nil]; omega))

theorem Rep.settled (rep : Rep True node.queue node.os model) (putNum : model.noted.putNum = model.putNum)
    (pos : model.noted.pos.toNat = used model.log.tail) (maxque : model.noted.maxque = model.maxque)
    (size : 41 ≤ toCInt (41 * model.lines)) (fits : model.log.last < 10 ^ 12) : Settled node := by
  obtain ⟨front, lineEq⟩ := (rep.tags trivial).line
  obtain ⟨content, length, contentEq, _⟩ := (rep.tags trivial).wtag
  refine ⟨⟨front, ?_⟩, ?_, by rw [rep.writeIndex]; exact fits⟩
  · rw [rep.putNum, rep.maxque, ← putNum, ← maxque,
      show node.queue.curWdb.pos = model.noted.pos from UInt32.toNat_inj.mp (rep.writePos.trans pos.symm)]
    exact lineEq
  · intro other otherEq
    obtain rfl := Option.some.inj (contentEq.symm.trans otherEq)
    rw [length]
    exact size

theorem restart_preserves_hello : ∃ store reopened final other answers later listing,
    run storeStep {} (.add jobsName :: [.push helloRecord].map (.call jobsName)) = .ok (store, answers) ∧
      storeStep store (.reopen listing) = .ok (reopened, .reopened) ∧
      Option.Rel SameQueue (mqQmFindQueue store jobsName) (mqQmFindQueue reopened jobsName) ∧
      run storeStep store ([.pop {}].map (.call jobsName)) = .ok (final, later) ∧
      run storeStep reopened ([.pop {}].map (.call jobsName)) = .ok (other, later) := by
  obtain ⟨store, answers, runEq, restart⟩ :=
    restart_preserves (.add jobsName :: [.push helloRecord].map (.call jobsName))
      (guarded_new jobsName (by decide))
  obtain ⟨node, newEq, rep⟩ := @run_new jobsName [.push helloRecord] (by decide)
  have same : store = single jobsName node := by
    rw [runEq] at newEq
    exact (Prod.mk.inj (Except.ok.inj newEq)).1
  subst same
  obtain ⟨reopened, reopenEq, queues, future⟩ := restart _ (lists_single jobsName rep rfl) (by
    intro qname other found
    rw [find_single] at found
    split at found
    · obtain rfl := Option.some.inj found
      exact rep.settled rfl (by decide) rfl (by decide) (by decide)
    · cases found)
  obtain ⟨final, other, later, finalEq, otherEq⟩ := future ([.pop {}].map (.call jobsName))
    (@guarded_single jobsName node [.pop {}] ⟨trivial, fun _ _ _ => trivial⟩)
  exact ⟨_, reopened, final, other, answers, later, _, runEq, reopenEq, queues jobsName, finalEq, otherEq⟩

def lowLimitOps : List QueueOp := [.setMaxqueue 1, .push helloRecord, .pop {}]

theorem lowLimit_reopens : ∃ node reopened next listing,
    run storeStep {} (.add jobsName :: lowLimitOps.map (.call jobsName)) =
        .ok (single jobsName node, .added true :: (modelRun QueueModel.initial lowLimitOps).2.map .called) ∧
      Rep True node.queue node.os (modelRun QueueModel.initial lowLimitOps).1 ∧
      ListsStore (single jobsName node) listing ∧
      storeStep (single jobsName node) (.reopen listing) = .ok (reopened, .reopened) ∧
      mqQmFindQueue reopened jobsName = some next ∧
      Rep True next.queue next.os (modelRun QueueModel.initial lowLimitOps).1.reopened := by
  obtain ⟨node, runEq, rep⟩ := @run_new jobsName lowLimitOps (by decide)
  have lists := lists_single jobsName rep rfl
  have closed : mqQmCloseStore (single jobsName node) jobsName = some (closeQueue node) := rfl
  have listed := lists.files jobsName _ closed
  rw [(closeQueue_spec rep.reliable rep.fresh).1] at listed
  obtain ⟨next, openEq, nextRep⟩ := rep.reopen jobsName (fun _ => false) listed (by decide) (by decide)
    (by decide)
  obtain ⟨reopened, reopenEq, found⟩ := reopen_single lists openEq
  exact ⟨node, reopened, next, _, runEq, rep, lists, reopenEq, found, nextRep⟩

theorem restart_forgets : ∃ store reopened pushed refused answers listing,
    run storeStep {} (.add jobsName :: lowLimitOps.map (.call jobsName)) = .ok (store, answers) ∧
      ListsStore store listing ∧ storeStep store (.reopen listing) = .ok (reopened, .reopened) ∧
      storeStep store (.call jobsName (.push helloRecord)) = .ok (pushed, .called (.put .putOk)) ∧
      storeStep reopened (.call jobsName (.push helloRecord)) = .ok (refused, .called (.put .full)) := by
  obtain ⟨node, reopened, next, listing, runEq, rep, lists, reopenEq, found, nextRep⟩ := lowLimit_reopens
  have safe : ∀ {node : Node} {model : QueueModel}, Rep True node.queue node.os model →
      model.log.last = 1 → RollSafe node (.push helloRecord) := by
    intro node model rep last _
    rw [rep.writeIndex, last]
    decide
  obtain ⟨pushed, pushEq, _⟩ := queueStep_rep (.push helloRecord) rep (safe rep rfl)
  rw [show ((modelRun QueueModel.initial lowLimitOps).1.step (.push helloRecord)).2 = .put .putOk by decide]
    at pushEq
  obtain ⟨refused, refuseEq, _⟩ := queueStep_rep (.push helloRecord) nextRep (safe nextRep rfl)
  rw [show ((modelRun QueueModel.initial lowLimitOps).1.reopened.step (.push helloRecord)).2 = .put .full
    by decide] at refuseEq
  exact ⟨_, reopened, _, _, _, _, runEq, lists, reopenEq, call_single jobsName pushEq, call_found found refuseEq⟩

end Libucmq
