import Libucmq.Supex.Slots

/-! The connection pool of `cnt_pool.c`. -/

namespace Libucmq.Supex

open List Machine

open Slots (SlotList SlotFault freeQueueInit freeQueuePush freeQueuePull stored)

structure CntPool where
  max : UInt32
  use : UInt32
  qlist : SlotList

inductive PoolFault
  | assertion
  | slots (fault : SlotFault)
deriving DecidableEq, Repr

def pointerSize : UInt32 := 8

def cntInit (max : UInt32) : CntPool where
  max := max
  use := 0
  qlist := freeQueueInit pointerSize max

/-- `opened` is what `cso_open` makes. `use` is not compared with `max`. -/
def cntPull (pool : CntPool) (opened : Option (List UInt8)) : Except PoolFault (CntPool × Option (List UInt8)) :=
  match freeQueuePull pool.qlist with
  | .error fault => .error (.slots fault)
  | .ok (qlist, some cite) => .ok ({ pool with qlist }, some cite)
  | .ok (qlist, none) => .ok ({ pool with qlist, use := pool.use + 1 }, opened)

def cntPush (pool : CntPool) (cite : List UInt8) : Except PoolFault CntPool :=
  match freeQueuePush pool.qlist cite with
  | .error fault => .error (.slots fault)
  | .ok (qlist, true) => .ok { pool with qlist }
  | .ok (_, false) => .error .assertion

def cntFree (pool : CntPool) : Except PoolFault CntPool :=
  if pool.use = 0 then .error .assertion else .ok { pool with use := pool.use - 1 }

inductive PoolEvent
  | pull (opened : Option (List UInt8))
  | push (cite : List UInt8)
  | free (cite : List UInt8)

structure PoolState where
  pool : CntPool
  handed : List (List UInt8)

def poolStart (max : UInt32) : PoolState := ⟨cntInit max, []⟩

def poolStep (state : PoolState) : PoolEvent → Except PoolFault (PoolState × Unit)
  | .pull opened => do
    let (pool, cite) ← cntPull state.pool opened
    return ({ pool, handed := cite.toList ++ state.handed }, ())
  | .push cite => do
    let pool ← cntPush state.pool cite
    return ({ pool, handed := state.handed.erase cite }, ())
  | .free cite => do
    let pool ← cntFree state.pool
    return ({ pool, handed := state.handed.erase cite }, ())

def Pulled (state : PoolState) : PoolEvent → Prop
  | .pull opened => ∀ cite ∈ opened, cite.length = pointerSize.toNat
  | .push cite => cite ∈ state.handed
  | .free cite => cite ∈ state.handed

def PoolState.idle (state : PoolState) : Nat := stored state.pool.qlist

structure UseExact (state : PoolState) : Prop where
  live : state.pool.use.toNat = state.idle + state.handed.length
  le : state.pool.use ≤ state.pool.max

def Kept (state : PoolState) : PoolEvent → Prop
  | .pull opened => 0 < state.idle ∨ opened.isSome ∧ state.handed.length < state.pool.max.toNat
  | .push _ => state.idle + 1 < state.pool.max.toNat
  | .free _ => True

structure PoolState.Formed (state : PoolState) : Prop where
  qlist : Slots.Formed state.pool.qlist
  max : state.pool.qlist.max = state.pool.max
  dsz : state.pool.qlist.dsz = pointerSize
  handed : ∀ cite ∈ state.handed, cite.length = pointerSize.toNat

theorem poolStart_formed (max : UInt32) : (poolStart max).Formed :=
  ⟨Slots.formed_init _ _, rfl, rfl, by simp [poolStart]⟩

theorem poolStart_useExact (max : UInt32) : UseExact (poolStart max) :=
  ⟨rfl, UInt32.le_iff_toNat_le.mpr (Nat.zero_le _)⟩

variable {state next : PoolState} {opened : Option (List UInt8)} {cite : List UInt8}

section

variable (formed : state.Formed)

include formed

theorem poolStep_pull_idle (idle : 0 < state.idle) (opened : Option (List UInt8)) :
    ∃ next, poolStep state (.pull opened) = .ok (next, ()) ∧ next.Formed ∧ next.pool.use = state.pool.use ∧
      next.pool.max = state.pool.max ∧ state.idle = next.idle + 1 ∧ next.handed.length = state.handed.length + 1 := by
  obtain ⟨qlist, data, pulled, size, formedNext, count, max, dsz⟩ := formed.qlist.pull_some idle
  refine ⟨{ pool := { state.pool with qlist }, handed := data :: state.handed }, ?_, ?_, rfl, rfl, count, rfl⟩
  · simp only [poolStep, cntPull, freeQueuePull, pulled, bind, Except.bind, pure, Except.pure, Option.toList_some,
      singleton_append]
  · refine ⟨formedNext, max.trans formed.max, dsz.trans formed.dsz, ?_⟩
    intro other mem
    rcases mem_cons.mp mem with rfl | old
    · rw [size, formed.dsz]
    · exact formed.handed other old

theorem poolStep_pull_opened (absent : state.idle = 0) (opened : Option (List UInt8)) :
    poolStep state (.pull opened) = .ok ({
      pool := { state.pool with use := state.pool.use + 1 }, handed := opened.toList ++ state.handed }, ()) := by
  simp only [poolStep, cntPull, freeQueuePull, formed.qlist.pull_none absent, bind, Except.bind, pure, Except.pure]

theorem poolStep_push_room (mem : cite ∈ state.handed) (room : state.idle + 1 < state.pool.max.toNat) :
    ∃ next, poolStep state (.push cite) = .ok (next, ()) ∧ next.Formed ∧ next.pool.use = state.pool.use ∧
      next.pool.max = state.pool.max ∧ next.idle = state.idle + 1 ∧ next.handed.length + 1 = state.handed.length := by
  obtain ⟨qlist, pushed, formedNext, count, max, dsz⟩ :=
    formed.qlist.push_room ((formed.handed cite mem).trans (by rw [formed.dsz])) (by rwa [formed.max])
  refine ⟨{ pool := { state.pool with qlist }, handed := state.handed.erase cite }, ?_, ?_, rfl, rfl, count, ?_⟩
  · simp only [poolStep, cntPush, freeQueuePush, pushed, bind, Except.bind, pure, Except.pure]
  · exact ⟨formedNext, max.trans formed.max, dsz.trans formed.dsz,
      fun other old => formed.handed other (mem_of_mem_erase old)⟩
  · rw [length_erase_of_mem mem]
    exact Nat.sub_add_cancel (length_pos_of_mem mem)

theorem poolStep_push_full (full : ¬ state.idle + 1 < state.pool.max.toNat)
    (cite : List UInt8) : poolStep state (.push cite) ≠ .ok (next, ()) := by
  intro stepEq
  rw [← formed.max] at full
  have never := @Slots.Formed.push_full _ cite formed.qlist full
  simp only [poolStep, cntPush, freeQueuePush] at stepEq
  split at stepEq
  · cases stepEq
  · exact never _ (by assumption)
  · cases stepEq

end

theorem poolStep_free (used : state.pool.use ≠ 0) (cite : List UInt8) : poolStep state (.free cite) = .ok ({
      pool := { state.pool with use := state.pool.use - 1 }, handed := state.handed.erase cite }, ()) := by
  simp only [poolStep, cntFree, used, if_false, bind, Except.bind, pure, Except.pure]

section

variable (formed : state.Formed)

include formed

theorem PoolState.Formed.handOut (sized : ∀ cite ∈ opened, cite.length = pointerSize.toNat) (use : UInt32) :
    PoolState.Formed { pool := { state.pool with use }, handed := opened.toList ++ state.handed } := by
  refine ⟨formed.qlist, formed.max, formed.dsz, fun other mem => ?_⟩
  rcases mem_append.mp mem with new | old
  · exact sized other (Option.mem_toList.mp new)
  · exact formed.handed other old

theorem poolStep_formed {event : PoolEvent} {answer : Unit} (pulled : Pulled state event)
    (stepEq : poolStep state event = .ok (next, answer)) : next.Formed := by
  cases event with
  | pull opened =>
    by_cases idle : 0 < state.idle
    · obtain ⟨other, otherEq, formedNext, -⟩ := poolStep_pull_idle formed idle opened
      rw [otherEq] at stepEq
      cases stepEq
      exact formedNext
    · rw [poolStep_pull_opened formed (by omega)] at stepEq
      cases stepEq
      exact formed.handOut pulled _
  | push cite =>
    by_cases room : state.idle + 1 < state.pool.max.toNat
    · obtain ⟨other, otherEq, formedNext, -⟩ := poolStep_push_room formed pulled room
      rw [otherEq] at stepEq
      cases stepEq
      exact formedNext
    · exact absurd stepEq (poolStep_push_full formed room cite)
  | free cite =>
    by_cases used : state.pool.use = 0
    · simp [poolStep, cntFree, used, bind, Except.bind] at stepEq
    · rw [poolStep_free used] at stepEq
      cases stepEq
      exact ⟨formed.qlist, formed.max, formed.dsz, fun other old => formed.handed other (mem_of_mem_erase old)⟩

theorem pull_exact_iff (precise : UseExact state) (opened : Option (List UInt8)) :
    (∃ next answer, poolStep state (.pull opened) = .ok (next, answer) ∧ UseExact next) ↔
      Kept state (.pull opened) := by
  obtain ⟨live, le⟩ := precise
  by_cases idle : 0 < state.idle
  · obtain ⟨next, stepEq, -, use, max, count, handed⟩ := poolStep_pull_idle formed idle opened
    refine iff_of_true ⟨next, (), stepEq, ?_, by rwa [use, max]⟩ (.inl idle)
    rw [use]
    omega
  · have absent : state.idle = 0 := by omega
    have bound := state.pool.max.toNat_lt
    have more : (state.pool.use + 1).toNat = (state.pool.use.toNat + 1) % 4294967296 := UInt32.toNat_add _ _
    rw [UInt32.le_iff_toNat_le] at le
    rw [poolStep_pull_opened formed absent]
    simp only [Kept, idle, false_or]
    constructor
    · rintro ⟨next, answer, same, liveNext, leNext⟩
      cases same
      change (state.pool.use + 1).toNat = state.idle + (opened.toList ++ state.handed).length at liveNext
      change state.pool.use + 1 ≤ state.pool.max at leNext
      rw [UInt32.le_iff_toNat_le] at leNext
      rw [length_append] at liveNext
      cases opened with
      | none =>
        simp only [Option.toList_none, length_nil] at liveNext
        omega
      | some cite =>
        simp only [Option.toList_some, length_singleton] at liveNext
        exact ⟨rfl, by omega⟩
    · rintro ⟨isOpened, room⟩
      obtain ⟨cite, rfl⟩ := Option.isSome_iff_exists.mp isOpened
      refine ⟨_, (), rfl, ?_, ?_⟩
      · change (state.pool.use + 1).toNat = state.idle + (state.handed.length + 1)
        omega
      · change state.pool.use + 1 ≤ state.pool.max
        rw [UInt32.le_iff_toNat_le]
        omega

theorem push_exact_iff (precise : UseExact state) (mem : cite ∈ state.handed) :
    (∃ next answer, poolStep state (.push cite) = .ok (next, answer) ∧ UseExact next) ↔ Kept state (.push cite) := by
  obtain ⟨live, le⟩ := precise
  by_cases room : state.idle + 1 < state.pool.max.toNat
  · obtain ⟨next, stepEq, -, use, max, count, handed⟩ := poolStep_push_room formed mem room
    refine iff_of_true ⟨next, (), stepEq, ?_, by rwa [use, max]⟩ room
    rw [use]
    omega
  · refine iff_of_false ?_ room
    rintro ⟨next, answer, stepEq, -⟩
    exact poolStep_push_full formed room cite stepEq

end

theorem free_exact (precise : UseExact state) (mem : cite ∈ state.handed) :
    ∃ next answer, poolStep state (.free cite) = .ok (next, answer) ∧ UseExact next := by
  obtain ⟨live, le⟩ := precise
  have nonempty := length_pos_of_mem mem
  have used : state.pool.use ≠ 0 := by
    intro zero
    simp only [zero, UInt32.toNat_zero] at live
    omega
  have one : (1 : UInt32) ≤ state.pool.use := by
    rw [UInt32.le_iff_toNat_le, UInt32.toNat_one]
    omega
  have less : (state.pool.use - 1).toNat = state.pool.use.toNat - 1 := UInt32.toNat_sub_of_le _ _ one
  refine ⟨_, (), poolStep_free used cite, ?_, ?_⟩
  · change (state.pool.use - 1).toNat = state.idle + (state.handed.erase cite).length
    rw [less, length_erase_of_mem mem]
    omega
  · change state.pool.use - 1 ≤ state.pool.max
    rw [UInt32.le_iff_toNat_le] at le ⊢
    omega

/-- Whole runs, from an empty pool of any size. -/
theorem pool_use_iff (max : UInt32) {events : List PoolEvent}
    (pulled : Guarded poolStep Pulled (poolStart max) events) :
    Always poolStep UseExact (poolStart max) events ↔
      Guarded poolStep Kept (poolStart max) events := by
  refine Machine.always_iff ?_ ?_ (poolStart_formed max) (poolStart_useExact max) pulled
  · intro state event formed precise valid
    cases event with
    | pull opened => exact pull_exact_iff formed precise opened
    | push cite => exact push_exact_iff formed precise valid
    | free cite => exact iff_of_true (free_exact precise valid) trivial
  · intro state event next answer formed valid stepEq
    exact poolStep_formed formed valid stepEq

def openAndReturn : List PoolEvent := [.pull (some [0, 0, 0, 0, 0, 0, 0, 1]), .push [0, 0, 0, 0, 0, 0, 0, 1]]

theorem pool_use_returned : Always poolStep UseExact (poolStart 20000) openAndReturn := by
  have first := poolStep_pull_opened (poolStart_formed 20000) rfl (some [0, 0, 0, 0, 0, 0, 0, 1])
  have pulled : Guarded poolStep Pulled (poolStart 20000) openAndReturn := by
    refine ⟨by simp [Pulled, pointerSize], fun next answer stepEq => ?_⟩
    rw [first] at stepEq
    cases stepEq
    exact ⟨mem_cons_self, fun _ _ _ => trivial⟩
  have kept : Guarded poolStep Kept (poolStart 20000) openAndReturn := by
    refine ⟨.inr ⟨rfl, show 0 < (20000 : UInt32).toNat by decide⟩, fun next answer stepEq => ?_⟩
    rw [first] at stepEq
    cases stepEq
    exact ⟨show 0 + 1 < (20000 : UInt32).toNat by decide, fun _ _ _ => trivial⟩
  exact (pool_use_iff 20000 pulled).mpr kept

theorem pool_use_failed : Guarded poolStep Pulled (poolStart 20000) [.pull none] ∧
      (∃ next, poolStep (poolStart 20000) (.pull none) = .ok (next, ()) ∧ next.pool.use = 1 ∧ next.idle = 0 ∧
        next.handed = []) ∧ ¬ Always poolStep UseExact (poolStart 20000) [.pull none] := by
  have first := poolStep_pull_opened (poolStart_formed 20000) rfl none
  refine ⟨⟨by simp [Pulled], fun _ _ _ => trivial⟩, ⟨_, first, rfl, rfl, rfl⟩, ?_⟩
  rintro ⟨-, next, answer, stepEq, live, -⟩
  rw [first] at stepEq
  cases stepEq
  exact absurd live (show ¬ (1 : UInt32).toNat = 0 + 0 by decide)

end Libucmq.Supex
