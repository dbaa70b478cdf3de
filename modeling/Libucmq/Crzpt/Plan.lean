import Libucmq.Library.Outcome
import Libucmq.Library.Machine
import Libucmq.Library.Circle

/-! The plans of `crzpt_plan.c`: time nodes, each with a ring of plans. -/

namespace Libucmq.Crzpt

open List Function Machine Outcome

open Circle (Links Line Round)

variable {node : TimeRef} {plan : Nat} {nodes : List TimeRef}

inductive Fault
  | null
  | endless
deriving DecidableEq, Repr

inductive TimeRef
  | head
  | node (address : Nat)
deriving DecidableEq, Repr

inductive PlanRef
  | ring (time : TimeRef)
  | plan (address : Nat)
deriving DecidableEq, Repr

structure PlanList where
  time : TimeRef → Int
  times : Links TimeRef
  done : Option TimeRef
  nubs : TimeRef → Int
  plans : Links PlanRef
  pidx : Nat → Nat
  live : Nat → Int
  pidxMark : Nat
  timeCount : Nat
  planCount : Nat

def oneDayTimestamp : Int := 24 * 60 * 60

def blankList : PlanList where
  time := fun _ => 0
  times := ⟨fun _ => none, fun _ => none⟩
  done := none
  nubs := fun _ => 0
  plans := ⟨fun _ => none, fun _ => none⟩
  pidx := fun _ => 0
  live := fun _ => 0
  pidxMark := 0
  timeCount := 0
  planCount := 0

def setStartFrom (startTime : Int) : Nat → Option TimeRef → PlanList → Except Fault PlanList
  | _, none, list => .ok list
  | 0, some _, _ => .error .endless
  | fuel + 1, some node, list =>
    if list.time node < startTime then
      match list.done with
      | none => .error .null
      | some done => setStartFrom startTime fuel (list.times.next node) { list with done := list.times.next done }
    else .ok list

def crzptSetStartTime (list : PlanList) (startTime : Int) : Except Fault PlanList :=
  setStartFrom startTime list.timeCount (list.times.next .head) { list with done := some .head }

def crzptPlanListInit (now : Int) : Except Fault PlanList := crzptSetStartTime blankList now

def findTimeFrom (list : PlanList) (time : Int) : Nat → Option TimeRef → Except Fault (Option TimeRef)
  | _, none => .ok none
  | 0, some _ => .error .endless
  | fuel + 1, some node =>
    if list.time node ≤ time then
      if list.time node = time then .ok (some node) else findTimeFrom list time fuel (list.times.next node)
    else .ok none

def findTime (list : PlanList) (time : Int) : Except Fault (Option TimeRef) :=
  findTimeFrom list time list.timeCount (list.times.next .head)

def addTimeFrom (list : PlanList) (add : TimeRef) : Nat → TimeRef → Except Fault (Links TimeRef)
  | 0, _ => .error .endless
  | fuel + 1, node =>
    match list.times.next node with
    | none => .ok (list.times.join node add)
    | some next =>
      if list.time node < list.time add ∧ list.time add < list.time next then
        .ok ((list.times.join node add).join add next)
      else addTimeFrom list add fuel next

def addTime (list : PlanList) (add : TimeRef) : Except Fault PlanList := do
  let times ← addTimeFrom list add list.timeCount .head
  .ok { list with times := times }

def newTime (list : PlanList) (time : Int) : TimeRef × PlanList :=
  let node := .node list.timeCount
  (node, { list with
    time := update list.time node time
    times := list.times.clear node
    nubs := update list.nubs node 0
    plans := list.plans.join (.ring node) (.ring node)
    timeCount := list.timeCount + 1 })

def addPlan (list : PlanList) (node : TimeRef) (plan : Nat) : Except Fault PlanList :=
  match list.plans.pushBack (.ring node) (.plan plan) with
  | none => .error .null
  | some plans => .ok { list with nubs := update list.nubs node (list.nubs node + 1), plans := plans }

structure Call where
  time : Int
  live : Int
  planMemory : Bool
  timeMemory : Bool

def newPlan (list : PlanList) (pidx : Nat) (live : Int) : PlanList :=
  { list with
    pidx := update list.pidx list.planCount pidx
    live := update list.live list.planCount live
    planCount := list.planCount + 1 }

def attachPlan (list : PlanList) (call : Call) (plan : Nat) : Except Fault (PlanList × Option Nat) := do
  match ← findTime list call.time with
  | some node =>
    let list ← addPlan list node plan
    .ok (list, some plan)
  | none =>
    if !call.timeMemory then .ok (list, none)
    else
      let (node, list) := newTime list call.time
      let list ← addTime list node
      let list ← addPlan list node plan
      .ok (list, some plan)

def crzptCppMakePlan (list : PlanList) (call : Call) : Except Fault (PlanList × Option Nat) :=
  let pidx := list.pidxMark
  let list := { list with pidxMark := (list.pidxMark + 1) % 4294967296 }
  if oneDayTimestamp ≤ call.time ∨ (call.live ≠ 0 ∧ call.live ≠ 1) then .ok (list, none)
  else if !call.planMemory then .ok (list, none)
  else attachPlan (newPlan list pidx call.live) call list.planCount

section loops

variable {time : TimeRef → Int} {wanted : Int} {nodes rest : List TimeRef} {node add : TimeRef}

def lookupTime (time : TimeRef → Int) (wanted : Int) : List TimeRef → Option TimeRef
  | [] => none
  | node :: rest =>
    if time node ≤ wanted then if time node = wanted then some node else lookupTime time wanted rest else none

def insertTime (time : TimeRef → Int) (add : TimeRef) : TimeRef → List TimeRef → List TimeRef
  | _, [] => [add]
  | node, next :: rest =>
    if time node < time add ∧ time add < time next then add :: next :: rest
    else next :: insertTime time add next rest

theorem lookupTime_some (found : lookupTime time wanted nodes = some node) : node ∈ nodes ∧ time node = wanted := by
  induction nodes with
  | nil => cases found
  | cons first rest ih =>
    rw [lookupTime] at found
    split at found
    · split at found
      · rename_i here
        cases found
        exact ⟨mem_cons_self, here⟩
      · exact ⟨mem_cons_of_mem first (ih found).1, (ih found).2⟩
    · cases found

def Increasing (time : TimeRef → Int) (nodes : List TimeRef) : Prop :=
  nodes.Pairwise fun left right => time left < time right

theorem Increasing.lookupTime (increasing : Increasing time nodes) (member : node ∈ nodes) :
    lookupTime time (time node) nodes = some node := by
  induction nodes with
  | nil => cases member
  | cons first rest ih =>
    obtain ⟨least, increasing⟩ := pairwise_cons.mp increasing
    rw [Crzpt.lookupTime]
    obtain rfl | behind := mem_cons.mp member
    · simp
    · have smaller := least node behind
      rw [if_pos (by omega), if_neg (by omega), ih increasing behind]

theorem insertTime_perm : (insertTime time add node rest).Perm (add :: rest) := by
  induction rest generalizing node with
  | nil => exact List.Perm.refl _
  | cons next rest ih =>
    rw [insertTime]
    split
    · exact List.Perm.refl _
    · exact (ih.cons next).trans (List.Perm.swap add next rest)

theorem sublist_insertTime : rest.Sublist (insertTime time add node rest) := by
  induction rest generalizing node with
  | nil => exact nil_sublist _
  | cons next rest ih =>
    rw [insertTime]
    split
    · exact sublist_cons_self add (next :: rest)
    · exact ih.cons_cons next

theorem insertTime_increasing (increasing : Increasing time rest) (smaller : time node < time add)
    (absent : ∀ other ∈ rest, time other ≠ time add) : Increasing time (insertTime time add node rest) := by
  induction rest generalizing node with
  | nil => exact pairwise_singleton _ add
  | cons next rest ih =>
    obtain ⟨least, behind⟩ := pairwise_cons.mp increasing
    have other := absent next mem_cons_self
    rw [insertTime]
    split
    · rename_i here
      refine pairwise_cons.mpr ⟨?_, increasing⟩
      intro later member
      obtain rfl | member := mem_cons.mp member
      · exact here.2
      · exact Int.lt_trans here.2 (least later member)
    · have passed : time next < time add := by omega
      refine pairwise_cons.mpr ⟨?_, ih behind passed fun later member => absent later (mem_cons_of_mem next member)⟩
      intro later member
      obtain rfl | member := mem_cons.mp (insertTime_perm.mem_iff.mp member)
      · exact passed
      · exact least later member

theorem insertTime_least (least : ∀ other ∈ node :: rest, time add < time other) :
    insertTime time add node rest = rest ++ [add] := by
  induction rest generalizing node with
  | nil => rfl
  | cons next rest ih =>
    have here := least node mem_cons_self
    rw [insertTime, if_neg (by omega), ih fun other member => least other (mem_cons_of_mem node member)]
    rfl

theorem insertTime_increasing_iff (headTime : time node = 0) (increasing : Increasing time rest)
    (absent : ∀ other ∈ rest, time other ≠ time add) : Increasing time (insertTime time add node rest) ↔
      (time add ≤ 0 → rest = [] ∨ ∃ other ∈ rest, time other ≤ time add) := by
  by_cases positive : 0 < time add
  · exact ⟨fun _ small => by omega, fun _ => insertTime_increasing increasing (by omega) absent⟩
  · cases rest with
    | nil => exact ⟨fun _ _ => Or.inl rfl, fun _ => pairwise_singleton _ add⟩
    | cons next rest =>
      obtain ⟨least, behind⟩ := pairwise_cons.mp increasing
      have other := absent next mem_cons_self
      rw [insertTime, if_neg (by omega)]
      by_cases passed : time next < time add
      · refine ⟨fun _ _ => Or.inr ⟨next, mem_cons_self, by omega⟩, fun _ => ?_⟩
        refine pairwise_cons.mpr ⟨?_, insertTime_increasing behind passed fun later member =>
          absent later (mem_cons_of_mem next member)⟩
        intro later member
        obtain rfl | member := mem_cons.mp (insertTime_perm.mem_iff.mp member)
        · exact passed
        · exact least later member
      · have all : ∀ later ∈ next :: rest, time add < time later := by
          intro later member
          obtain rfl | member := mem_cons.mp member
          · omega
          · have larger := least later member
            omega
        rw [insertTime_least all]
        constructor
        · intro sorted
          have wrong := (pairwise_cons.mp sorted).1 add (by simp)
          omega
        · intro fits
          obtain impossible | ⟨later, member, small⟩ := fits (by omega)
          · cases impossible
          · have larger := all later member
            omega

end loops

section pointers

variable {list : PlanList} {nodes front rest : List TimeRef} {node add : TimeRef} {wanted : Int} {fuel : Nat}

theorem findTimeFrom_eq (line : Line list.times (node :: rest)) (enough : rest.length ≤ fuel) :
    findTimeFrom list wanted fuel (list.times.next node) = .ok (lookupTime list.time wanted rest) := by
  induction rest generalizing node fuel with
  | nil =>
    rw [@Line.last _ list.times [] node line]
    cases fuel <;> rfl
  | cons next rest ih =>
    rw [@Line.next _ list.times [] rest node next line]
    cases fuel with
    | zero => simp at enough
    | succ fuel => rw [findTimeFrom, lookupTime, ih line.tail (by simpa using enough), apply_ite Except.ok,
        apply_ite Except.ok]

theorem addTimeFrom_line (line : Line list.times (front ++ node :: rest)) (fresh : add ∉ front ++ node :: rest)
    (unlinked : list.times.next add = none) (enough : rest.length < fuel) :
    ∃ links, addTimeFrom list add fuel node = .ok links ∧
      Line links (front ++ node :: insertTime list.time add node rest) := by
  induction rest generalizing front node fuel with
  | nil =>
    cases fuel with
    | zero => simp at enough
    | succ fuel => exact ⟨_, by rw [addTimeFrom, line.last], line.append fresh unlinked⟩
  | cons next rest ih =>
    cases fuel with
    | zero => simp at enough
    | succ fuel =>
      rw [addTimeFrom, line.next, insertTime]
      dsimp only
      split
      · exact ⟨_, rfl, line.insert fresh⟩
      · rw [← singleton_append, ← append_assoc] at line fresh
        obtain ⟨links, added, longer⟩ := ih line fresh (by simpa using enough)
        exact ⟨links, added, by simpa using longer⟩

end pointers

def ringOf (owner : List (Nat × TimeRef)) (node : TimeRef) : List PlanRef :=
  (owner.filter fun entry => entry.2 = node).map fun entry => .plan entry.1

structure Shape (list : PlanList) (nodes : List TimeRef) (owner : List (Nat × TimeRef)) : Prop where
  line : Line list.times (.head :: nodes)
  made : ∀ address, .node address ∈ nodes → address < list.timeCount
  count : nodes.length ≤ list.timeCount
  headTime : list.time .head = 0
  rings : ∀ node ∈ nodes, Round list.plans (.ring node) (ringOf owner node)
  owned : ∀ entry ∈ owner, entry.1 < list.planCount ∧ entry.2 ∈ nodes
  single : (owner.map Prod.fst).Nodup

section shape

variable {list next : PlanList} {nodes : List TimeRef} {owner : List (Nat × TimeRef)}

theorem mem_ringOf {item : PlanRef} :
    item ∈ ringOf owner node ↔ ∃ plan, (plan, node) ∈ owner ∧ item = .plan plan := by
  simp [ringOf, eq_comm]

theorem ringOf_concat {other : TimeRef} :
    ringOf (owner ++ [(plan, node)]) other = ringOf owner other ++ if other = node then [.plan plan] else [] := by
  rw [ringOf, filter_append, map_append]
  by_cases same : other = node
  · simp [ringOf, same]
  · simp [ringOf, same, Ne.symm same]

theorem owner_unique (single : (owner.map Prod.fst).Nodup) {left right : TimeRef}
    (first : (plan, left) ∈ owner) (second : (plan, right) ∈ owner) : left = right :=
  congrArg Prod.snd (inj_on_of_nodup_map single first second rfl)

theorem rings_disjoint (single : (owner.map Prod.fst).Nodup) {other : TimeRef} {item : PlanRef}
    (different : other ≠ node) (inRing : item ∈ .ring other :: ringOf owner other) :
    item ∉ .ring node :: ringOf owner node := by
  rw [mem_cons, mem_ringOf] at inRing ⊢
  rintro (rfl | ⟨plan, owned, rfl⟩)
  · obtain same | ⟨_, _, wrong⟩ := inRing
    · exact different (PlanRef.ring.inj same).symm
    · cases wrong
  · obtain wrong | ⟨old, also, same⟩ := inRing
    · cases wrong
    · cases same
      exact different (owner_unique single also owned)

section

variable (shape : Shape list nodes owner)

include shape

theorem Shape.like (time : next.time = list.time) (times : next.times = list.times)
    (plans : next.plans = list.plans) (timeCount : next.timeCount = list.timeCount)
    (planCount : list.planCount ≤ next.planCount) : Shape next nodes owner := by
  refine ⟨times ▸ shape.line, timeCount ▸ shape.made, timeCount ▸ shape.count, time ▸ shape.headTime,
    plans ▸ shape.rings, ?_, shape.single⟩
  intro entry member
  obtain ⟨early, inside⟩ := shape.owned entry member
  exact ⟨Nat.lt_of_lt_of_le early planCount, inside⟩

theorem Shape.findTime (wanted : Int) :
    findTime list wanted = .ok (lookupTime list.time wanted nodes) := findTimeFrom_eq shape.line shape.count

theorem Shape.addPlan (inside : node ∈ nodes)
    (fresh : ∀ entry ∈ owner, entry.1 ≠ plan) (made : plan < list.planCount) :
    ∃ next, addPlan list node plan = .ok next ∧ Shape next nodes (owner ++ [(plan, node)]) ∧ next.time = list.time ∧
      next.done = list.done := by
  have absent : ∀ other, PlanRef.plan plan ∉ .ring other :: ringOf owner other := by
    intro other
    rw [mem_cons, mem_ringOf]
    rintro (wrong | ⟨old, member, same⟩)
    · cases wrong
    · exact fresh (old, other) member (PlanRef.plan.inj same).symm
  obtain ⟨plans, pushed, longer, frame⟩ := (shape.rings node inside).pushBack (absent node)
  refine ⟨{ list with nubs := update list.nubs node (list.nubs node + 1), plans := plans },
    by rw [Crzpt.addPlan, pushed], ⟨shape.line, shape.made, shape.count, shape.headTime, ?_, ?_, ?_⟩, rfl, rfl⟩
  · intro other member
    rw [ringOf_concat]
    split
    · rename_i same
      exact same ▸ longer
    · rename_i different
      have apart : ∀ item ∈ .ring other :: ringOf owner other,
          plans.next item = list.plans.next item ∧ plans.prev item = list.plans.prev item := fun item inRing =>
        frame item (ne_of_mem_of_not_mem inRing (absent other)) (rings_disjoint shape.single different inRing)
      rw [append_nil]
      exact (shape.rings other member).congr (fun item inRing => (apart item inRing).1) fun item inRing =>
        (apart item inRing).2
  · intro entry member
    obtain old | new := mem_append.mp member
    · exact shape.owned entry old
    · obtain rfl := mem_singleton.mp new
      exact ⟨made, inside⟩
  · rw [map_append, map_singleton, nodup_append_comm]
    refine nodup_cons.mpr ⟨?_, shape.single⟩
    intro member
    obtain ⟨entry, inOwner, same⟩ := mem_map.mp member
    exact fresh entry inOwner same

theorem Shape.addTime (time : Int) :
    ∃ next, addTime (newTime list time).2 (.node list.timeCount) = .ok next ∧
      Shape next (insertTime next.time (.node list.timeCount) .head nodes) owner ∧
      next.time = update list.time (.node list.timeCount) time ∧ next.planCount = list.planCount ∧
      next.done = list.done := by
  have newNode : TimeRef.node list.timeCount ∉ .head :: nodes := by
    rw [mem_cons]
    rintro (wrong | member)
    · cases wrong
    · exact Nat.lt_irrefl _ (shape.made _ member)
  obtain ⟨times, added, line⟩ : ∃ times,
      addTimeFrom (newTime list time).2 (.node list.timeCount) (newTime list time).2.timeCount .head = .ok times ∧ _ :=
    @addTimeFrom_line (newTime list time).2 [] nodes .head (.node list.timeCount) (list.timeCount + 1)
      (shape.line.clear newNode) newNode (update_self ..) (Nat.lt_succ_of_le shape.count)
  have members : ∀ node, node ∈ insertTime (newTime list time).2.time (.node list.timeCount) .head nodes ↔
      node = .node list.timeCount ∨ node ∈ nodes := fun node => insertTime_perm.mem_iff.trans mem_cons
  refine ⟨{ (newTime list time).2 with times := times }, by rw [Crzpt.addTime, added, ok_bind],
    ⟨line, ?_, ?_, ?_, ?_, ?_, shape.single⟩, rfl, rfl, rfl⟩
  · intro address member
    obtain same | old := (members _).mp member
    · cases same
      exact Nat.lt_succ_self _
    · exact Nat.lt_succ_of_lt (shape.made address old)
  · rw [insertTime_perm.length_eq]
    exact Nat.succ_le_succ shape.count
  · show update list.time (.node list.timeCount) time .head = 0
    exact (update_of_ne (by simp) ..).trans shape.headTime
  · intro node member
    obtain rfl | old := (members node).mp member
    · have unowned : ringOf owner (.node list.timeCount) = [] := by
        rw [eq_nil_iff_forall_not_mem]
        intro item inRing
        obtain ⟨plan, owned, _⟩ := mem_ringOf.mp inRing
        exact newNode (mem_cons_of_mem _ (shape.owned _ owned).2)
      rw [unowned]
      exact Circle.round_single ..
    · have apart : ∀ item ∈ .ring node :: ringOf owner node, item ≠ .ring (.node list.timeCount) := by
        intro item inRing
        rw [mem_cons, mem_ringOf] at inRing
        rintro rfl
        obtain same | ⟨plan, _, wrong⟩ := inRing
        · cases same
          exact newNode (mem_cons_of_mem _ old)
        · cases wrong
      exact (shape.rings node old).congr (fun item inRing => update_of_ne (apart item inRing) ..)
        fun item inRing => update_of_ne (apart item inRing) ..
  · intro entry member
    obtain ⟨early, inside⟩ := shape.owned entry member
    exact ⟨early, (members entry.2).mpr (Or.inr inside)⟩

end

def Grows (list : PlanList) (nodes : List TimeRef) (owner : List (Nat × TimeRef)) (call : Call) (next : PlanList)
    (answer : Option Nat) : Prop :=
  (answer = none ∧ Shape next nodes owner ∧ next.time = list.time) ∨
    (∃ plan node, answer = some plan ∧ node ∈ nodes ∧ list.time node = call.time ∧
      Shape next nodes (owner ++ [(plan, node)]) ∧ next.time = list.time) ∨
    ∃ plan node, answer = some plan ∧ node ∉ nodes ∧ lookupTime list.time call.time nodes = none ∧
      Shape next (insertTime next.time node .head nodes) (owner ++ [(plan, node)]) ∧
      next.time = update list.time node call.time

theorem Shape.attachPlan {call : Call} (shape : Shape list nodes owner)
    (fresh : ∀ entry ∈ owner, entry.1 ≠ plan) (made : plan < list.planCount) :
    ∃ next answer, attachPlan list call plan = .ok (next, answer) ∧ Grows list nodes owner call next answer ∧
      next.done = list.done := by
  rw [Crzpt.attachPlan, shape.findTime, ok_bind]
  cases found : lookupTime list.time call.time nodes with
  | some node =>
    obtain ⟨inside, time⟩ := lookupTime_some found
    obtain ⟨next, added, longer, same, done⟩ := shape.addPlan inside fresh made
    exact ⟨next, some plan, by simp only [added, ok_bind],
      Or.inr (Or.inl ⟨plan, node, rfl, inside, time, longer, same⟩), done⟩
  | none =>
    cases memory : call.timeMemory with
    | false => exact ⟨list, none, rfl, Or.inl ⟨rfl, shape, rfl⟩, rfl⟩
    | true =>
      obtain ⟨timed, inserted, larger, time, planCount, timedDone⟩ := shape.addTime call.time
      obtain ⟨next, added, longer, same, done⟩ := larger.addPlan (insertTime_perm.mem_iff.mpr mem_cons_self) fresh
        (planCount ▸ made)
      refine ⟨next, some plan, ?_, Or.inr (Or.inr ⟨plan, .node list.timeCount, rfl, ?_, found, ?_, ?_⟩),
        done.trans timedDone⟩
      · have inserted' : Crzpt.addTime (newTime list call.time).2 (newTime list call.time).1 = .ok timed := inserted
        have added' : Crzpt.addPlan timed (newTime list call.time).1 plan = .ok next := added
        simp only [Bool.not_true, Bool.false_eq_true, if_false, inserted', added', ok_bind]
      · exact fun member => Nat.lt_irrefl _ (shape.made _ member)
      · rw [same]
        exact longer
      · rw [same, time]

theorem Shape.makePlan (shape : Shape list nodes owner) (call : Call) :
    ∃ next answer, crzptCppMakePlan list call = .ok (next, answer) ∧ Grows list nodes owner call next answer ∧
      next.done = list.done := by
  rw [crzptCppMakePlan]
  dsimp only
  split
  · exact ⟨_, _, rfl, Or.inl ⟨rfl, shape.like rfl rfl rfl rfl (Nat.le_refl _), rfl⟩, rfl⟩
  split
  · exact ⟨_, _, rfl, Or.inl ⟨rfl, shape.like rfl rfl rfl rfl (Nat.le_refl _), rfl⟩, rfl⟩
  refine Shape.attachPlan (shape.like rfl rfl rfl rfl (Nat.le_succ _)) ?_ (Nat.lt_succ_self _)
  exact fun entry member => Nat.ne_of_lt (shape.owned entry member).1

end shape

def created (history : List (Call × Option Nat)) : List (Nat × Int) :=
  history.filterMap fun entry => entry.2.map fun plan => (plan, entry.1.time)

theorem created_concat (history : List (Call × Option Nat)) (call : Call) (answer : Option Nat) :
    created (history ++ [(call, answer)]) =
      created history ++ (answer.map fun plan => (plan, call.time)).toList := by
  rw [created, filterMap_append]
  cases answer <;> rfl

def Fits (times : List Int) : Prop :=
  ∀ front time back, times = front ++ time :: back → time ≤ 0 → front = [] ∨ ∃ earlier ∈ front, earlier ≤ time

theorem fits_concat {times : List Int} {time : Int} :
    Fits (times ++ [time]) ↔ Fits times ∧ (time ≤ 0 → times = [] ∨ ∃ earlier ∈ times, earlier ≤ time) := by
  constructor
  · intro fits
    refine ⟨?_, fits times time [] rfl⟩
    intro front early back same
    exact fits front early (back ++ [time]) (by simp [same])
  · rintro ⟨fits, last⟩ front other back same
    obtain rfl | ⟨more, final, rfl⟩ := eq_nil_or_concat' back
    · obtain ⟨rfl, rest⟩ := append_inj' same rfl
      cases rest
      exact last
    · rw [← cons_append, ← append_assoc] at same
      exact fits front other more (append_inj' same rfl).1

def Recorded (history : List (Call × Option Nat)) (list : PlanList) : Prop :=
  ∃ nodes owner, Shape list nodes owner ∧ created history = owner.map (fun entry => (entry.1, list.time entry.2)) ∧
    (∀ node ∈ nodes, ∃ entry ∈ owner, entry.2 = node) ∧
    (Increasing list.time nodes ↔ Fits ((created history).map Prod.snd))

theorem Increasing.congr {time other : TimeRef → Int} (increasing : Increasing time nodes)
    (same : ∀ node ∈ nodes, other node = time node) : Increasing other nodes := by
  refine List.Pairwise.imp_of_mem ?_ increasing
  intro left right leftIn rightIn less
  rw [same left leftIn, same right rightIn]
  exact less

variable {time : TimeRef → Int}

theorem mem_times_iff {owner : List (Nat × TimeRef)} {wanted : Int}
    (owned : ∀ entry ∈ owner, entry.2 ∈ nodes) (used : ∀ node ∈ nodes, ∃ entry ∈ owner, entry.2 = node) :
    wanted ∈ (owner.map fun entry => (entry.1, time entry.2)).map Prod.snd ↔ ∃ node ∈ nodes, time node = wanted := by
  simp only [map_map, mem_map, comp_apply]
  constructor
  · rintro ⟨entry, member, rfl⟩
    exact ⟨entry.2, owned entry member, rfl⟩
  · rintro ⟨node, member, rfl⟩
    obtain ⟨entry, inOwner, rfl⟩ := used node member
    exact ⟨entry, inOwner, rfl⟩

theorem times_fit_iff {times : List Int} {bound : Int}
    (same : ∀ wanted, wanted ∈ times ↔ ∃ node ∈ nodes, time node = wanted) :
    (times = [] ∨ ∃ earlier ∈ times, earlier ≤ bound) ↔ nodes = [] ∨ ∃ node ∈ nodes, time node ≤ bound := by
  have empty : times = [] ↔ nodes = [] := by
    rw [eq_nil_iff_forall_not_mem, eq_nil_iff_forall_not_mem]
    refine ⟨fun missing node member => missing _ ((same _).mpr ⟨node, member, rfl⟩), fun missing wanted member => ?_⟩
    obtain ⟨node, inside, _⟩ := (same wanted).mp member
    exact missing node inside
  refine or_congr empty ⟨?_, ?_⟩
  · rintro ⟨earlier, member, small⟩
    obtain ⟨node, inside, rfl⟩ := (same earlier).mp member
    exact ⟨node, inside, small⟩
  · rintro ⟨node, inside, small⟩
    exact ⟨_, (same _).mpr ⟨node, inside, rfl⟩, small⟩

theorem Recorded.makePlan {history : List (Call × Option Nat)} {list : PlanList} (recorded : Recorded history list)
    (call : Call) :
    ∃ next answer, crzptCppMakePlan list call = .ok (next, answer) ∧ Recorded (history ++ [(call, answer)]) next ∧
      next.done = list.done := by
  obtain ⟨nodes, owner, shape, plans, used, order⟩ := recorded
  have owned : ∀ entry ∈ owner, entry.2 ∈ nodes := fun entry member => (shape.owned entry member).2
  obtain ⟨next, answer, made, grows, done⟩ := shape.makePlan call
  refine ⟨next, answer, made, ?_, done⟩
  obtain ⟨rfl, shape, time⟩ | ⟨plan, node, rfl, inside, here, shape, time⟩ |
    ⟨plan, node, rfl, outside, missed, shape, time⟩ := grows
  · refine ⟨nodes, owner, shape, ?_, used, ?_⟩
    · simpa [created_concat, time] using plans
    · simpa [created_concat, time] using order
  · refine ⟨nodes, _, shape, ?_, ?_, ?_⟩
    · simp [created_concat, time, plans, here]
    · intro other member
      obtain ⟨entry, inOwner, same⟩ := used other member
      exact ⟨entry, mem_append_left _ inOwner, same⟩
    · rw [created_concat, Option.map_some, Option.toList_some, map_append, map_singleton, fits_concat, time,
        order]
      have known : call.time ∈ (created history).map Prod.snd := by
        rw [plans, mem_times_iff owned used]
        exact ⟨node, inside, here⟩
      exact ⟨fun fits => ⟨fits, fun _ => Or.inr ⟨_, known, Int.le_refl _⟩⟩, And.left⟩
  · have kept : ∀ other ∈ nodes, next.time other = list.time other := by
      intro other member
      rw [time]
      exact update_of_ne (ne_of_mem_of_not_mem member outside) ..
    have new : next.time node = call.time := by rw [time, update_self]
    refine ⟨_, _, shape, ?_, ?_, ?_⟩
    · rw [created_concat, plans, map_append, map_singleton, new]
      congr 1
      refine map_congr_left ?_
      intro entry member
      rw [kept entry.2 (owned entry member)]
    · intro other member
      obtain rfl | old := mem_cons.mp (insertTime_perm.mem_iff.mp member)
      · exact ⟨(plan, other), by simp, rfl⟩
      · obtain ⟨entry, inOwner, same⟩ := used other old
        exact ⟨entry, mem_append_left _ inOwner, same⟩
    · rw [created_concat, Option.map_some, Option.toList_some, map_append, map_singleton, fits_concat, ← order]
      by_cases increasing : Increasing list.time nodes
      · have absent : ∀ other ∈ nodes, next.time other ≠ next.time node := by
          intro other member same
          rw [kept other member, new] at same
          rw [← same, increasing.lookupTime member] at missed
          cases missed
        have same : ∀ wanted, wanted ∈ (created history).map Prod.snd ↔ ∃ node ∈ nodes, next.time node = wanted := by
          intro wanted
          rw [plans, mem_times_iff owned used]
          exact exists_congr fun node => and_congr_right fun member => by rw [kept node member]
        rw [insertTime_increasing_iff shape.headTime (increasing.congr kept) absent, new, times_fit_iff same]
        exact (and_iff_right increasing).symm
      · refine ⟨fun sorted => absurd ?_ increasing, fun fits => absurd fits.1 increasing⟩
        exact Increasing.congr (sorted.sublist sublist_insertTime) fun other member => (kept other member).symm

theorem Increasing.eq_of_time {left right : TimeRef} (increasing : Increasing time nodes)
    (leftIn : left ∈ nodes) (rightIn : right ∈ nodes) (same : time left = time right) : left = right := by
  have found := increasing.lookupTime leftIn
  rw [same, increasing.lookupTime rightIn] at found
  exact (Option.some.inj found).symm

/-- The times increase, and the ring of a node has the plans of its time. -/
structure Ordered (list : PlanList) (plans : List (Nat × Int)) (nodes : List TimeRef) : Prop where
  line : Line list.times (.head :: nodes)
  increasing : Increasing list.time nodes
  times : ∀ time, (∃ node ∈ nodes, list.time node = time) ↔ time ∈ plans.map Prod.snd
  found : ∀ node ∈ nodes, findTime list (list.time node) = .ok (some node)
  rings : ∀ node ∈ nodes, Round list.plans (.ring node)
    ((plans.filter fun entry => entry.2 = list.time node).map fun entry => .plan entry.1)

theorem crzptPlanListInit_eq (now : Int) : crzptPlanListInit now = .ok { blankList with done := some .head } := rfl

theorem recorded_init : Recorded [] { blankList with done := some .head } := by
  refine ⟨[], [], ⟨⟨by simp, isChain_singleton _, fun _ _ => rfl⟩, by simp, by simp, rfl, by simp, by simp, by simp⟩,
    rfl, by simp, ?_⟩
  refine ⟨fun _ front time back wrong => ?_, fun _ => List.Pairwise.nil⟩
  simp [created] at wrong

theorem Recorded.ordered_iff {history : List (Call × Option Nat)} {list : PlanList} (recorded : Recorded history list) :
    (∃ nodes, Ordered list (created history) nodes) ↔ Fits ((created history).map Prod.snd) := by
  obtain ⟨nodes, owner, shape, plans, used, order⟩ := recorded
  have owned : ∀ entry ∈ owner, entry.2 ∈ nodes := fun entry member => (shape.owned entry member).2
  rw [← order]
  constructor
  · rintro ⟨other, ordered⟩
    obtain rfl := shape.line.unique ordered.line
    exact ordered.increasing
  · intro increasing
    refine ⟨nodes, shape.line, increasing, ?_, ?_, ?_⟩
    · intro time
      rw [plans, mem_times_iff owned used]
    · intro node member
      rw [shape.findTime, increasing.lookupTime member]
    · intro node member
      have same : (owner.filter fun entry => list.time entry.2 = list.time node) =
          owner.filter fun entry => entry.2 = node := by
        refine filter_congr ?_
        intro entry inOwner
        rw [decide_eq_decide]
        exact ⟨increasing.eq_of_time (owned entry inOwner) member, congrArg list.time⟩
      rw [plans, filter_map, map_map]
      exact same ▸ shape.rings node member

theorem run_makePlan (now : Int) (calls : List Call) :
    ∃ start list answers, crzptPlanListInit now = .ok start ∧
      Machine.run crzptCppMakePlan start calls = .ok (list, answers) ∧
      Recorded (calls.zip answers) list ∧ list.done = some .head := by
  have always : Guarded crzptCppMakePlan (fun _ _ => True) { blankList with done := some .head } calls :=
    guarded_of_forall fun _ _ => trivial
  obtain ⟨list, answers, run, recorded⟩ | ⟨_, _, impossible⟩ :=
    @Machine.run_history _ _ _ _ crzptCppMakePlan (fun _ _ => True)
      (fun history list => Recorded history list ∧ list.done = some .head) (fun _ => False)
      (fun history list call recorded _ => by
        obtain ⟨next, answer, made, longer, done⟩ := recorded.1.makePlan call
        exact Or.inl ⟨next, answer, made, longer, done.trans recorded.2⟩)
      [] _ calls ⟨recorded_init, rfl⟩ always
  · exact ⟨_, list, answers, crzptPlanListInit_eq now, run, recorded⟩
  · cases impossible

/-- For which calls the list is ordered after them. -/
theorem crzptCppMakePlan_ordered_iff (now : Int) (calls : List Call) :
    ∃ start list answers, crzptPlanListInit now = .ok start ∧
      Machine.run crzptCppMakePlan start calls = .ok (list, answers) ∧
      ((∃ nodes, Ordered list (created (calls.zip answers)) nodes) ↔
        Fits ((created (calls.zip answers)).map Prod.snd)) := by
  obtain ⟨start, list, answers, init, run, recorded, _⟩ := run_makePlan now calls
  exact ⟨start, list, answers, init, run, recorded.ordered_iff⟩

theorem crzptCppMakePlan_midnight :
    ∃ list, Machine.run crzptCppMakePlan { blankList with done := some .head }
      [⟨5, 1, true, true⟩, ⟨0, 1, true, true⟩] =
        .ok (list, [some 0, some 1]) ∧
      (list.times.next .head = some (.node 0) ∧ list.time (.node 0) = 5) ∧
      (list.times.next (.node 0) = some (.node 1) ∧ list.time (.node 1) = 0) ∧
      findTime list 0 = .ok none ∧ ¬ ∃ nodes, Ordered list [(0, 5), (1, 0)] nodes := by
  have run : ∃ list, Machine.run crzptCppMakePlan { blankList with done := some .head }
      [⟨5, 1, true, true⟩, ⟨0, 1, true, true⟩] = .ok (list, [some 0, some 1]) ∧
      (list.times.next .head = some (.node 0) ∧ list.time (.node 0) = 5) ∧
      (list.times.next (.node 0) = some (.node 1) ∧ list.time (.node 1) = 0) ∧ findTime list 0 = .ok none :=
    ⟨_, rfl, ⟨rfl, rfl⟩, ⟨rfl, rfl⟩, rfl⟩
  obtain ⟨list, returned, first, second, missed⟩ := run
  refine ⟨list, returned, first, second, missed, ?_⟩
  rintro ⟨nodes, ordered⟩
  obtain ⟨node, member, time⟩ := (ordered.times 0).mpr (by simp)
  have found := ordered.found node member
  rw [time, missed] at found
  cases found

end Libucmq.Crzpt
