import Mathlib.Data.List.Perm.Subperm
import Libucmq.Crzpt.Plan

/-! The day of the roamer thread: `crzpt_idle_cb` plays the plans that are due. -/

namespace Libucmq.Crzpt

open List Function Machine Outcome

open Circle (Line Round)

def crzptGetPlanList (list : PlanList) (endTime : Int) : Except Fault (PlanList × Option TimeRef) :=
  match list.done with
  | none => .error .null
  | some done =>
    match list.times.next done with
    | none => .ok (list, none)
    | some node =>
      if list.time node ≤ endTime then .ok ({ list with done := some node }, some node) else .ok (list, none)

def crzptGetNextTime (list : PlanList) (startTime : Int) : Except Fault Int :=
  match list.done with
  | none => .error .null
  | some done =>
    let delay := if 0 < oneDayTimestamp - startTime then oneDayTimestamp - startTime else 1
    match list.times.next done with
    | none => .ok delay
    | some node => .ok (if startTime < list.time node then list.time node - startTime else delay)

def removeDead (list : PlanList) (node : TimeRef) (plan : Nat) : Except Fault PlanList :=
  if list.live plan = 0 then
    match list.plans.remove (.plan plan) with
    | none => .error .null
    | some plans => .ok { list with nubs := update list.nubs node (list.nubs node - 1), plans := plans }
  else .ok list

/-- The loop of `crzpt_list_for_each`; another `pl_head` is never met. -/
def listForEachFrom (node : TimeRef) : Nat → Option PlanRef → PlanList → Except Fault (PlanList × List Nat)
  | _, none, list => .ok (list, [])
  | _, some (.ring other), list => if other = node then .ok (list, []) else .error .endless
  | 0, some (.plan _), _ => .error .endless
  | fuel + 1, some (.plan plan), list => do
    let following := list.plans.next (.plan plan)
    let list ← removeDead list node plan
    let (list, played) ← listForEachFrom node fuel following list
    .ok (list, plan :: played)

def crzptListForEach (list : PlanList) (node : TimeRef) : Except Fault (PlanList × List Nat) :=
  listForEachFrom node list.planCount (list.plans.next (.ring node)) list

structure Roamer where
  list : PlanList
  roamerTime : Int

inductive Idle
  | play (node : TimeRef) (plans : List Nat)
  | sleep (delay : Int)

def Idle.node : Idle → Option TimeRef
  | .play node _ => some node
  | .sleep _ => none

def crzptIdleCb (roamer : Roamer) (now : Int) : Except Fault (Roamer × Idle) := do
  let list ← if now < roamer.roamerTime then crzptSetStartTime roamer.list 0 else .ok roamer.list
  let (list, found) ← crzptGetPlanList list now
  match found with
  | none =>
    let delay ← crzptGetNextTime list now
    .ok (⟨list, now⟩, .sleep delay)
  | some node =>
    let (list, played) ← crzptListForEach list node
    .ok (⟨list, now⟩, .play node played)

section play

variable {list : PlanList} {nodes : List TimeRef} {owner : List (Nat × TimeRef)} {node : TimeRef} {plan : Nat}

theorem ringOf_filter : ringOf (owner.filter fun entry => entry.1 ≠ plan) node =
    (ringOf owner node).filter fun item => item ≠ .plan plan := by
  rw [ringOf, ringOf, filter_map, filter_filter, filter_filter]
  congr 1
  refine filter_congr ?_
  intro entry _
  simp [Bool.and_comm]

structure SameTimes (list next : PlanList) : Prop where
  time : next.time = list.time
  times : next.times = list.times
  done : next.done = list.done

theorem SameTimes.trans {first second third : PlanList} (left : SameTimes first second)
    (right : SameTimes second third) : SameTimes first third :=
  ⟨right.time.trans left.time, right.times.trans left.times, right.done.trans left.done⟩

theorem Shape.removeDead {front back : List PlanRef} (shape : Shape list nodes owner) (inside : node ∈ nodes)
    (place : ringOf owner node = front ++ .plan plan :: back) :
    ∃ next owner', removeDead list node plan = .ok next ∧ Shape next nodes owner' ∧ SameTimes list next ∧
      ∃ kept, ringOf owner' node = kept ++ back := by
  rw [Crzpt.removeDead]
  split
  · have round := shape.rings node inside
    rw [place] at round
    obtain ⟨plans, removed, shorter, _, _, frame⟩ := round.remove
    rw [cons_append, ← place] at frame
    obtain ⟨distinctItem, _⟩ := nodup_cons.mp (nodup_middle.mp (nodup_cons.mp round.distinct).2)
    rw [mem_append, not_or] at distinctItem
    have left : ringOf (owner.filter fun entry => entry.1 ≠ plan) node = front ++ back := by
      rw [ringOf_filter, place, filter_append, filter_cons_of_neg (by simp),
        filter_eq_self.mpr (by simpa using fun item member => ne_of_mem_of_not_mem member distinctItem.1),
        filter_eq_self.mpr (by simpa using fun item member => ne_of_mem_of_not_mem member distinctItem.2)]
    refine ⟨{ list with nubs := update list.nubs node (list.nubs node - 1), plans := plans },
      owner.filter fun entry => entry.1 ≠ plan, by rw [removed],
      ⟨shape.line, shape.made, shape.count, shape.headTime, ?_, ?_, ?_⟩, ⟨rfl, rfl, rfl⟩, front, left⟩
    · intro other member
      by_cases same : other = node
      · rw [same, left]
        exact shorter
      · have apart := fun item (inRing : item ∈ .ring other :: ringOf owner other) =>
          frame item (rings_disjoint shape.single same inRing)
        have kept : ringOf (owner.filter fun entry => entry.1 ≠ plan) other = ringOf owner other := by
          rw [ringOf_filter, filter_eq_self]
          intro item inRing
          have here : item ∉ .ring node :: ringOf owner node :=
            rings_disjoint shape.single same (mem_cons_of_mem _ inRing)
          rw [place] at here
          simpa using fun same : item = .plan plan => here (by simp [same])
        rw [kept]
        exact (shape.rings other member).congr (fun item inRing => (apart item inRing).1) fun item inRing =>
          (apart item inRing).2
    · intro entry member
      exact shape.owned entry (mem_of_mem_filter member)
    · exact shape.single.sublist (filter_sublist.map _)
  · exact ⟨list, owner, rfl, shape, ⟨rfl, rfl, rfl⟩, front ++ [.plan plan], by simp [place]⟩

theorem Shape.next_in_ring {front : List PlanRef} {item : PlanRef} {plans : List Nat} (shape : Shape list nodes owner)
    (inside : node ∈ nodes) (place : .ring node :: ringOf owner node = front ++ item :: plans.map .plan) :
    list.plans.next item = (plans.map PlanRef.plan ++ [PlanRef.ring node]).head? := by
  have round := shape.rings node inside
  cases plans with
  | nil =>
    exact (@Round.joined _ list.plans front [] (ringOf owner node) (.ring node) item (.ring node) round
      (by rw [place]; simp)).1
  | cons plan plans =>
    exact (@Round.joined _ list.plans front (plans.map .plan ++ [.ring node]) (ringOf owner node) (.ring node) item
      (.plan plan) round (by rw [place]; simp)).1

theorem Shape.listForEachFrom {fuel : Nat} {front : List PlanRef} {plans : List Nat} (shape : Shape list nodes owner)
    (inside : node ∈ nodes) (place : ringOf owner node = front ++ plans.map .plan) (enough : plans.length ≤ fuel) :
    ∃ next owner' played, listForEachFrom node fuel (plans.map PlanRef.plan ++ [PlanRef.ring node]).head? list =
      .ok (next, played) ∧
      Shape next nodes owner' ∧ SameTimes list next := by
  induction plans generalizing list owner front fuel with
  | nil =>
    refine ⟨list, owner, [], ?_, shape, rfl, rfl, rfl⟩
    cases fuel <;> simp [Crzpt.listForEachFrom]
  | cons plan plans ih =>
    cases fuel with
    | zero => simp at enough
    | succ fuel =>
      have following := @Shape.next_in_ring list nodes owner node (.ring node :: front) (.plan plan) plans shape inside
        (by rw [place]; rfl)
      obtain ⟨changed, owner', removed, shape, same, kept, rest⟩ := shape.removeDead inside place
      obtain ⟨next, owner', played, walked, shape, sameLater⟩ := ih shape rest (by simpa using enough)
      refine ⟨next, owner', plan :: played, ?_, shape, same.trans sameLater⟩
      simp only [map_cons, cons_append, List.head?_cons, Crzpt.listForEachFrom, following, removed,
        ok_bind, walked]

theorem Shape.listForEach (shape : Shape list nodes owner) (inside : node ∈ nodes) :
    ∃ next owner' played, crzptListForEach list node = .ok (next, played) ∧ Shape next nodes owner' ∧
      SameTimes list next := by
  have place : ringOf owner node = [] ++ ((owner.filter fun entry => entry.2 = node).map Prod.fst).map .plan := by
    simp [ringOf]
  have few : ((owner.filter fun entry => entry.2 = node).map Prod.fst).length ≤ list.planCount := by
    have distinct : ((owner.filter fun entry => entry.2 = node).map Prod.fst).Nodup :=
      shape.single.sublist (filter_sublist.map _)
    have early : (owner.filter fun entry => entry.2 = node).map Prod.fst ⊆ List.range list.planCount := by
      intro plan member
      obtain ⟨entry, inOwner, rfl⟩ := mem_map.mp member
      exact mem_range.mpr (shape.owned entry (mem_of_mem_filter inOwner)).1
    simpa using (distinct.subperm early).length_le
  rw [crzptListForEach, @Shape.next_in_ring list nodes owner node [] (.ring node) _ shape inside (by rw [place]; rfl)]
  exact shape.listForEachFrom inside place few

end play

def handOut : List Int → List Int → List (Option Int)
  | _, [] => []
  | [], _ :: readings => none :: handOut [] readings
  | time :: times, now :: readings =>
    if time ≤ now then some time :: handOut times readings else none :: handOut (time :: times) readings

def FirstDue (readings : List Int) (time : Int) (call : Nat) : Prop :=
  (∃ now, readings[call]? = some now ∧ time ≤ now) ∧
    ∀ earlier < call, ∀ now, readings[earlier]? = some now → now < time

structure Daily (start : Int) (times readings : List Int) (answers : List (Option Int)) : Prop where
  due : ∀ time ∈ times, start ≤ time → ∀ call : Nat, answers[call]? = some (some time) ↔ FirstDue readings time call
  past : ∀ time ∈ times, time < start → ∀ call : Nat, answers[call]? ≠ some (some time)
  increasing : ∀ left right, ∀ first second : Nat, first < second → answers[first]? = some (some left) →
    answers[second]? = some (some right) → left < right

/-- No time before the start is due, and no two times are due at one call. -/
structure Spaced (start : Int) (times readings : List Int) : Prop where
  none_past : ∀ time ∈ times, ∀ call, FirstDue readings time call → start ≤ time
  one_due : ∀ left ∈ times, ∀ right ∈ times, ∀ call,
    FirstDue readings left call → FirstDue readings right call → left = right

section day

variable {start time now : Int} {times readings : List Int} {call : Nat}

theorem firstDue_zero : FirstDue (now :: readings) time 0 ↔ time ≤ now := by
  simp [FirstDue]

theorem firstDue_succ : FirstDue (now :: readings) time (call + 1) ↔ now < time ∧ FirstDue readings time call := by
  constructor
  · rintro ⟨due, before⟩
    refine ⟨before 0 (Nat.succ_pos call) now rfl, due, ?_⟩
    intro earlier early reading found
    exact before (earlier + 1) (Nat.succ_lt_succ early) reading found
  · rintro ⟨first, due, before⟩
    refine ⟨due, ?_⟩
    intro earlier early reading found
    cases earlier with
    | zero =>
      cases found
      exact first
    | succ earlier => exact before earlier (Nat.lt_of_succ_lt_succ early) reading found

theorem exists_firstDue (found : readings[call]? = some now) (due : time ≤ now) :
    ∃ first, FirstDue readings time first := by
  induction readings generalizing call with
  | nil => simp at found
  | cons reading readings ih =>
    by_cases here : time ≤ reading
    · exact ⟨0, firstDue_zero.mpr here⟩
    · cases call with
      | zero =>
        cases found
        exact absurd due here
      | succ call =>
        obtain ⟨first, isFirst⟩ := ih found
        exact ⟨first + 1, firstDue_succ.mpr ⟨by omega, isFirst⟩⟩

theorem handOut_first (due : FirstDue readings time call) :
    (handOut (time :: times) readings)[call]? = some (some time) := by
  induction readings generalizing call with
  | nil => simp [FirstDue] at due
  | cons reading readings ih =>
    rw [handOut]
    cases call with
    | zero =>
      rw [if_pos (firstDue_zero.mp due)]
      rfl
    | succ call =>
      obtain ⟨later, due⟩ := firstDue_succ.mp due
      rw [if_neg (by omega)]
      exact ih due

theorem handOut_iff (increasing : times.Pairwise (· < ·)) (oneDue : ∀ left ∈ times, ∀ right ∈ times, ∀ call,
      FirstDue readings left call → FirstDue readings right call → left = right) :
    (handOut times readings)[call]? = some (some time) ↔ time ∈ times ∧ FirstDue readings time call := by
  induction readings generalizing times call with
  | nil => simp [handOut, FirstDue]
  | cons reading readings ih =>
    have later : ∀ nonempty ⊆ times, (∀ time ∈ nonempty, reading < time) → ∀ left ∈ nonempty, ∀ right ∈ nonempty, ∀ call,
        FirstDue readings left call → FirstDue readings right call → left = right := by
      intro nonempty subset behind left leftIn right rightIn call leftDue rightDue
      exact oneDue left (subset leftIn) right (subset rightIn) (call + 1)
        (firstDue_succ.mpr ⟨behind left leftIn, leftDue⟩) (firstDue_succ.mpr ⟨behind right rightIn, rightDue⟩)
    cases times with
    | nil =>
      cases call with
      | zero => simp [handOut]
      | succ call => simpa [handOut] using @ih [] call List.Pairwise.nil (by simp)
    | cons first times =>
      obtain ⟨least, rest⟩ := pairwise_cons.mp increasing
      rw [handOut]
      split
      · rename_i due
        have behind : ∀ time ∈ times, reading < time := by
          intro time member
          by_contra also
          have same := oneDue first mem_cons_self time (mem_cons_of_mem first member) 0
            (firstDue_zero.mpr due) (firstDue_zero.mpr (by omega))
          have less := least time member
          omega
        cases call with
        | zero =>
          rw [firstDue_zero, List.getElem?_cons_zero, Option.some.injEq, Option.some.injEq]
          constructor
          · rintro rfl
            exact ⟨mem_cons_self, due⟩
          · rintro ⟨member, early⟩
            obtain rfl | member := mem_cons.mp member
            · rfl
            · have late := behind time member
              omega
        | succ call =>
          rw [List.getElem?_cons_succ, ih rest (later times (subset_cons_self ..) behind), firstDue_succ]
          constructor
          · rintro ⟨member, isFirst⟩
            exact ⟨mem_cons_of_mem first member, behind time member, isFirst⟩
          · rintro ⟨member, late, isFirst⟩
            obtain rfl | member := mem_cons.mp member
            · omega
            · exact ⟨member, isFirst⟩
      · rename_i notDue
        have behind : ∀ time ∈ first :: times, reading < time := by
          intro time member
          obtain rfl | member := mem_cons.mp member
          · omega
          · have less := least time member
            omega
        cases call with
        | zero =>
          rw [firstDue_zero, List.getElem?_cons_zero]
          refine ⟨nofun, fun ⟨member, early⟩ => ?_⟩
          have late := behind time member
          omega
        | succ call =>
          rw [List.getElem?_cons_succ, ih increasing (later _ (List.Subset.refl _) behind), firstDue_succ]
          exact and_congr_right fun member => (and_iff_right (behind time member)).symm

theorem daily_iff (increasing : times.Pairwise (· < ·)) :
    Daily start times readings (handOut times readings) ↔ Spaced start times readings := by
  constructor
  · intro daily
    have nonePast : ∀ time ∈ times, ∀ call, FirstDue readings time call → start ≤ time := by
      intro time member call due
      by_contra early
      cases times with
      | nil => cases member
      | cons first rest =>
        have least : first ≤ time := by
          obtain rfl | member := mem_cons.mp member
          · exact Int.le_refl _
          · exact Int.le_of_lt ((pairwise_cons.mp increasing).1 time member)
        obtain ⟨now, found, reached⟩ := due.1
        obtain ⟨call, isFirst⟩ := exists_firstDue found (Int.le_trans least reached)
        exact daily.past first mem_cons_self (by omega) call (handOut_first isFirst)
    refine ⟨nonePast, ?_⟩
    intro left leftIn right rightIn call leftDue rightDue
    have first := (daily.due left leftIn (nonePast left leftIn call leftDue) call).mpr leftDue
    rw [(daily.due right rightIn (nonePast right rightIn call rightDue) call).mpr rightDue] at first
    exact (Option.some.inj (Option.some.inj first)).symm
  · intro spaced
    have handed : ∀ {time call}, (handOut times readings)[call]? = some (some time) ↔
        time ∈ times ∧ FirstDue readings time call := handOut_iff increasing spaced.one_due
    refine ⟨?_, ?_, ?_⟩
    · intro time member _ call
      rw [handed]
      exact and_iff_right member
    · intro time member early call found
      have late := spaced.none_past time member call (handed.mp found).2
      omega
    · intro left right first second before leftFound rightFound
      obtain ⟨now, found, reached⟩ := (handed.mp leftFound).2.1
      have later := (handed.mp rightFound).2.2 first before now found
      omega

theorem daily_congr {other : List Int} {answers : List (Option Int)} (same : ∀ time, time ∈ times ↔ time ∈ other) :
    Daily start times readings answers ↔ Daily start other readings answers :=
  ⟨fun daily => ⟨fun time member => daily.due time ((same time).mpr member),
      fun time member => daily.past time ((same time).mpr member), daily.increasing⟩,
    fun daily => ⟨fun time member => daily.due time ((same time).mp member),
      fun time member => daily.past time ((same time).mp member), daily.increasing⟩⟩

theorem spaced_congr {other : List Int} (same : ∀ time, time ∈ times ↔ time ∈ other) :
    Spaced start times readings ↔ Spaced start other readings := by
  constructor
  · intro spaced
    refine ⟨fun time member => spaced.none_past time ((same time).mpr member), ?_⟩
    intro left leftIn right rightIn
    exact spaced.one_due left ((same left).mpr leftIn) right ((same right).mpr rightIn)
  · intro spaced
    refine ⟨fun time member => spaced.none_past time ((same time).mp member), ?_⟩
    intro left leftIn right rightIn
    exact spaced.one_due left ((same left).mp leftIn) right ((same right).mp rightIn)

end day

structure Cursor (list : PlanList) (nodes rest : List TimeRef) : Prop where
  shape : ∃ owner, Shape list nodes owner
  place : ∃ front done, list.done = some done ∧ .head :: nodes = front ++ done :: rest

section run

variable {list : PlanList} {nodes rest : List TimeRef} {roamerTime now : Int}

theorem Cursor.idle_sleep (cursor : Cursor list nodes rest) (forward : roamerTime ≤ now)
    (early : ∀ node ∈ rest.head?, now < list.time node) :
    ∃ delay, crzptIdleCb ⟨list, roamerTime⟩ now = .ok (⟨list, now⟩, .sleep delay) := by
  obtain ⟨owner, shape⟩ := cursor.shape
  obtain ⟨front, done, current, place⟩ := cursor.place
  have line := shape.line
  rw [place] at line
  rw [crzptIdleCb, if_neg (by simpa using forward), ok_bind]
  cases rest with
  | nil =>
    simp only [crzptGetPlanList, crzptGetNextTime, current, line.last, ok_bind]
    exact ⟨_, rfl⟩
  | cons node rest =>
    have notDue : ¬ list.time node ≤ now := by simpa using early node rfl
    simp only [crzptGetPlanList, crzptGetNextTime, current, line.next, if_neg notDue, ok_bind]
    exact ⟨_, rfl⟩

theorem Cursor.idle_play {node : TimeRef} (cursor : Cursor list nodes (node :: rest)) (forward : roamerTime ≤ now)
    (due : list.time node ≤ now) :
    ∃ next played, crzptIdleCb ⟨list, roamerTime⟩ now = .ok (⟨next, now⟩, .play node played) ∧
      Cursor next nodes rest ∧ next.time = list.time := by
  obtain ⟨owner, shape⟩ := cursor.shape
  obtain ⟨front, done, current, place⟩ := cursor.place
  have line := shape.line
  rw [place] at line
  have inside : node ∈ nodes := by
    cases front with
    | nil => exact (List.cons.inj place).2 ▸ mem_cons_self
    | cons first front => exact (List.cons.inj place).2 ▸ by simp
  have moved : Shape { list with done := some node } nodes owner := shape.like rfl rfl rfl rfl (Nat.le_refl _)
  obtain ⟨next, owner', played, walked, shape, same⟩ := moved.listForEach inside
  refine ⟨next, played, ?_, ⟨⟨owner', shape⟩, front ++ [done], node, same.done, by simp [place]⟩, same.time⟩
  rw [crzptIdleCb, if_neg (by simpa using forward), ok_bind]
  simp only [crzptGetPlanList, current, line.next, if_pos due, ok_bind, walked]

theorem Cursor.run {readings : List Int} (cursor : Cursor list nodes rest)
    (forward : ∀ now ∈ readings, roamerTime ≤ now) (ordered : readings.Pairwise (· ≤ ·)) :
    ∃ final answers, Machine.run crzptIdleCb ⟨list, roamerTime⟩ readings = .ok (final, answers) ∧
      answers.map (fun answer => answer.node.map list.time) = handOut (rest.map list.time) readings := by
  induction readings generalizing list rest roamerTime with
  | nil => exact ⟨_, [], rfl, by simp [handOut]⟩
  | cons now readings ih =>
    obtain ⟨later, ordered⟩ := pairwise_cons.mp ordered
    have here := forward now mem_cons_self
    by_cases due : ∃ node ∈ rest.head?, list.time node ≤ now
    · obtain ⟨node, first, due⟩ := due
      obtain ⟨rest, rfl⟩ : ∃ more, rest = node :: more := List.head?_eq_some_iff.mp first
      obtain ⟨next, played, turn, cursor, time⟩ := cursor.idle_play here due
      obtain ⟨final, answers, run, handed⟩ := ih cursor later ordered
      refine ⟨final, _, run_cons turn run, ?_⟩
      rw [time] at handed
      rw [map_cons, handed, map_cons, handOut, if_pos due]
      rfl
    · obtain ⟨delay, turn⟩ := cursor.idle_sleep here fun node first => by
        by_contra reached
        exact due ⟨node, first, by omega⟩
      obtain ⟨final, answers, run, handed⟩ := ih cursor later ordered
      refine ⟨final, _, run_cons turn run, ?_⟩
      rw [map_cons, handed]
      cases rest with
      | nil => rfl
      | cons node rest =>
        rw [map_cons, handOut, if_neg fun reached => due ⟨node, rfl, reached⟩]
        rfl

end run

def handed (list : PlanList) (answers : List Idle) : List (Option Int) :=
  answers.map fun answer => answer.node.map list.time

/-- On which days the schedule is kept after a start at `start`. -/
theorem crzptIdleCb_daily_iff (start : Int) {calls : List Call}
    (planned : ∀ call ∈ calls, 1 ≤ call.time ∧ call.time ≤ 86399)
    {readings : List Int} (inDay : ∀ now ∈ readings, 0 ≤ now ∧ now < oneDayTimestamp)
    (forward : readings.Pairwise (· ≤ ·)) : ∃ empty list made final answers, crzptPlanListInit start = .ok empty ∧
      Machine.run crzptCppMakePlan empty calls = .ok (list, made) ∧
      Machine.run crzptIdleCb ⟨list, -1⟩ readings = .ok (final, answers) ∧
      (Daily start ((created (calls.zip made)).map Prod.snd) readings (handed list answers) ↔
        Spaced start ((created (calls.zip made)).map Prod.snd) readings) := by
  obtain ⟨empty, list, made, init, load, ⟨nodes, owner, shape, plans, used, order⟩, done⟩ := run_makePlan start calls
  have cursor : Cursor list nodes nodes := ⟨⟨owner, shape⟩, [], .head, done, rfl⟩
  have started : ∀ now ∈ readings, -1 ≤ now := by
    intro now member
    have day := inDay now member
    omega
  obtain ⟨final, answers, run, handOuts⟩ := cursor.run started forward
  refine ⟨empty, list, made, final, answers, init, load, run, ?_⟩
  have positive : ∀ time ∈ (created (calls.zip made)).map Prod.snd, 0 < time := by
    intro time member
    obtain ⟨entry, inPlans, rfl⟩ := mem_map.mp member
    obtain ⟨⟨call, answer⟩, inCalls, plan⟩ := mem_filterMap.mp inPlans
    obtain ⟨address, _, rfl⟩ := Option.map_eq_some_iff.mp plan
    exact (planned call (of_mem_zip inCalls).1).1
  have increasing : Increasing list.time nodes := by
    refine order.mpr fun front time back same small => ?_
    have large := positive time (by rw [same]; simp)
    omega
  have sorted : (nodes.map list.time).Pairwise (· < ·) := pairwise_map.mpr increasing
  have same : ∀ time, time ∈ (created (calls.zip made)).map Prod.snd ↔ time ∈ nodes.map list.time := by
    intro time
    rw [plans, mem_times_iff (fun entry member => (shape.owned entry member).2) used, mem_map]
  rw [handed, handOuts, daily_congr same, spaced_congr same]
  exact daily_iff sorted

theorem crzptIdleCb_daily_afternoon : ∃ empty list made final answers, crzptPlanListInit 100 = .ok empty ∧
    Machine.run crzptCppMakePlan empty [⟨200, 1, true, true⟩, ⟨300, 1, true, true⟩] = .ok (list, made) ∧
      Machine.run crzptIdleCb ⟨list, -1⟩ [150, 250, 350] = .ok (final, answers) ∧
      Daily 100 [200, 300] [150, 250, 350] (handed list answers) := by
  obtain ⟨empty, list, made, final, answers, init, load, run, daily⟩ := @crzptIdleCb_daily_iff 100
    [⟨200, 1, true, true⟩, ⟨300, 1, true, true⟩] (by decide) [150, 250, 350] (by decide) (by decide)
  have plans : (created ([⟨200, 1, true, true⟩, ⟨300, 1, true, true⟩].zip made)).map Prod.snd = [200, 300] := by
    cases init
    have known : (Machine.run crzptCppMakePlan _ [⟨200, 1, true, true⟩, ⟨300, 1, true, true⟩]).map Prod.snd = .ok made :=
      congrArg (Except.map Prod.snd) load
    cases known
    rfl
  rw [plans] at daily
  refine ⟨empty, list, made, final, answers, init, load, run, daily.mpr ⟨by simp, ?_⟩⟩
  have first : ∀ call, FirstDue [150, 250, 350] 200 call → call = 1
    | 0, due => absurd (firstDue_zero.mp due) (by decide)
    | 1, _ => rfl
    | call + 2, due => absurd (firstDue_succ.mp (firstDue_succ.mp due).2).1 (by decide)
  have second : ¬ FirstDue [150, 250, 350] 300 1 := fun due =>
    absurd (firstDue_zero.mp (firstDue_succ.mp due).2) (by decide)
  simp only [List.mem_cons, List.not_mem_nil, or_false]
  rintro left (rfl | rfl) right (rfl | rfl) call due other
  · rfl
  · exact absurd (first call due ▸ other) second
  · exact absurd (first call other ▸ due) second
  · rfl

theorem crzptIdleCb_past_plan : (do
      let empty ← crzptPlanListInit 100
      let (list, _) ← Machine.run crzptCppMakePlan empty [⟨50, 1, true, true⟩]
      let (_, answers) ← Machine.run crzptIdleCb ⟨list, -1⟩ [100]
      .ok (handed list answers)) = (.ok [some 50] : Except Fault (List (Option Int))) ∧
    ¬ Daily 100 [50] [100] [some 50] := by
  refine ⟨rfl, fun daily => ?_⟩
  exact daily.past 50 (by decide) (by decide) 0 rfl

end Libucmq.Crzpt
