import Mathlib.Data.Nat.Find
import Libucmq.Library.Machine
import Libucmq.Library.Heap
import Libucmq.Library.Outcome
import Libucmq.Supex.Task

/-! The two rings of `utils.c` and `supex.c` with the bytes of their slots. -/

namespace Libucmq.Supex.Slots

open List Function Machine

open Ring (Op Answer fifo)

/-- Both ring structures without the locks; `dsz` is `tsz` in the second. -/
structure SlotList where
  max : UInt32
  dsz : UInt32
  isz : UInt32
  osz : UInt32
  slots : List UInt8
  head : UInt32
  tail : UInt32

inductive SlotFault
  | division
  | memory (fault : Heap.Fault)
deriving DecidableEq, Repr

def init (dsz max : UInt32) : SlotList where
  max := max
  dsz := dsz
  isz := 0
  osz := 0
  slots := List.replicate (max.toNat * dsz.toNat) 0
  head := 0
  tail := 0

def push (list : SlotList) (data : List UInt8) : Except SlotFault (SlotList × Bool) :=
  if list.max = 0 then .error .division
  else
    let next := (list.tail + 1) % list.max
    if list.head ≠ next then
      match Heap.patch list.slots (list.tail * list.dsz).toNat data with
      | .error fault => .error (.memory fault)
      | .ok slots => .ok ({ list with slots, tail := next, isz := list.isz + 1 }, true)
    else .ok (list, false)

def pull (list : SlotList) : Except SlotFault (SlotList × Option (List UInt8)) :=
  if list.head ≠ list.tail then
    match Heap.fetch (list.slots.drop (list.head * list.dsz).toNat) list.dsz.toNat with
    | .error fault => .error (.memory fault)
    | .ok data =>
      if list.max = 0 then .error .division
      else .ok ({ list with head := (list.head + 1) % list.max, osz := list.osz + 1 }, some data)
  else .ok (list, none)

def freeQueueInit : UInt32 → UInt32 → SlotList := init

def freeQueuePush : SlotList → List UInt8 → Except SlotFault (SlotList × Bool) := push

def freeQueuePull : SlotList → Except SlotFault (SlotList × Option (List UInt8)) := pull

def supexTaskInit : UInt32 → UInt32 → SlotList := init

def supexTaskPush : SlotList → List UInt8 → Except SlotFault (SlotList × Bool) := push

def supexTaskPull : SlotList → Except SlotFault (SlotList × Option (List UInt8)) := pull

inductive Kind
  | freeQueue
  | supexTask

def Kind.init : Kind → UInt32 → UInt32 → SlotList
  | .freeQueue => freeQueueInit
  | .supexTask => supexTaskInit

def Kind.push : Kind → SlotList → List UInt8 → Except SlotFault (SlotList × Bool)
  | .freeQueue => freeQueuePush
  | .supexTask => supexTaskPush

def Kind.pull : Kind → SlotList → Except SlotFault (SlotList × Option (List UInt8))
  | .freeQueue => freeQueuePull
  | .supexTask => supexTaskPull

def Kind.step (kind : Kind) (list : SlotList) : Op (List UInt8) → Except SlotFault (SlotList × Answer (List UInt8))
  | .push data => (kind.push list data).map fun result => (result.1, .pushed result.2)
  | .pull => (kind.pull list).map fun result => (result.1, .pulled result.2)

theorem Kind.init_eq (kind : Kind) : kind.init = Slots.init := by cases kind <;> rfl

theorem Kind.push_eq (kind : Kind) : kind.push = Slots.push := by cases kind <;> rfl

theorem Kind.pull_eq (kind : Kind) : kind.pull = Slots.pull := by cases kind <;> rfl

variable {list next : SlotList} {data : List UInt8}

theorem push_ok {ok : Bool} (returned : push list data = .ok (next, ok)) :
    (ok = true ∧ list.max ≠ 0 ∧ ∃ slots, Heap.patch list.slots (list.tail * list.dsz).toNat data = .ok slots ∧
      next = { list with slots, tail := (list.tail + 1) % list.max, isz := list.isz + 1 }) ∨
    (ok = false ∧ next = list) := by
  rw [push] at returned
  split at returned
  · cases returned
  · dsimp only at returned
    split at returned
    · split at returned
      · cases returned
      · cases returned
        exact .inl ⟨rfl, by assumption, _, by assumption, rfl⟩
    · cases returned
      exact .inr ⟨rfl, rfl⟩

theorem pull_ok {value : Option (List UInt8)} (returned : pull list = .ok (next, value)) :
    (list.max ≠ 0 ∧ ∃ data, value = some data ∧
      Heap.fetch (list.slots.drop (list.head * list.dsz).toNat) list.dsz.toNat = .ok data ∧
      next = { list with head := (list.head + 1) % list.max, osz := list.osz + 1 }) ∨
    (value = none ∧ next = list) := by
  rw [pull] at returned
  split at returned
  · split at returned
    · cases returned
    · split at returned
      · cases returned
      · cases returned
        exact .inl ⟨by assumption, _, rfl, by assumption, rfl⟩
  · cases returned
    exact .inr ⟨rfl, rfl⟩

def slot (slots : List UInt8) (size index : Nat) : List UInt8 := (slots.drop (index * size)).take size

structure Views (list : SlotList) (ring : SupexTaskList (List UInt8)) : Prop where
  max : ring.max = list.max.toNat
  head : ring.head = list.head.toNat
  tail : ring.tail = list.tail.toNat
  isz : ring.isz = list.isz
  osz : ring.osz = list.osz
  size : list.slots.length = list.max.toNat * list.dsz.toNat
  slots : ∀ index < ring.max, slot list.slots list.dsz.toNat index = ring.slots index
  /-- No place of a slot needs more than 32 bits. -/
  fits : (list.max.toNat - 1) * list.dsz.toNat < 4294967296

variable {ring : SupexTaskList (List UInt8)}

theorem Views.offset (views : Views list ring) {index : UInt32} (inside : index.toNat < ring.max) :
    (index * list.dsz).toNat = index.toNat * list.dsz.toNat := by
  rw [UInt32.toNat_mul]
  refine Nat.mod_eq_of_lt (Nat.lt_of_le_of_lt ?_ views.fits)
  exact Nat.mul_le_mul_right _ (by rw [← views.max]; omega)

theorem next_toNat {index max : UInt32} (inside : index.toNat < max.toNat) :
    ((index + 1) % max).toNat = (index.toNat + 1) % max.toNat := by
  have bound := max.toNat_lt
  rw [UInt32.toNat_mod, UInt32.toNat_add]
  congr 1
  exact Nat.mod_eq_of_lt (by simp only [UInt32.toNat_one]; omega)

theorem slot_end_le {size low high : Nat} (less : low < high) : low * size + size ≤ high * size := by
  rw [← Nat.succ_mul]
  exact Nat.mul_le_mul_right _ less

theorem getElem?_slot (slots : List UInt8) (size index place : Nat) :
    (slot slots size index)[place]? = if place < size then slots[index * size + place]? else none := by
  rw [slot, List.getElem?_take, List.getElem?_drop]

theorem slot_patch {slots changed : List UInt8} {place : Nat}
    (patched : Heap.patch slots (place * data.length) data = .ok changed) (index : Nat) :
    slot changed data.length index = update (slot slots data.length) place data index := by
  apply ext_getElem?
  intro offset
  rw [getElem?_slot, Heap.getElem?_patch patched]
  by_cases inside : offset < data.length
  · rw [if_pos inside]
    rcases Nat.lt_trichotomy index place with less | rfl | greater
    · have bound := @slot_end_le data.length _ _ less
      rw [if_neg (by omega), update_of_ne (by omega), getElem?_slot, if_pos inside]
    · rw [if_pos (by omega), update_self, Nat.add_sub_cancel_left]
    · have bound := @slot_end_le data.length _ _ greater
      rw [if_neg (by omega), update_of_ne (by omega), getElem?_slot, if_pos inside]
  · rw [if_neg inside]
    by_cases same : index = place
    · rw [same, update_self, List.getElem?_eq_none (by omega)]
    · rw [update_of_ne same, getElem?_slot, if_neg inside]

theorem views_init {dsz max : UInt32} (positive : 0 < max.toNat) (fits : (max.toNat - 1) * dsz.toNat < 4294967296) :
    Views (init dsz max) (Supex.supexTaskInit (List.replicate dsz.toNat 0) max.toNat positive) where
  max := rfl
  head := rfl
  tail := rfl
  isz := rfl
  osz := rfl
  size := length_replicate
  fits := fits
  slots := by
    intro index inside
    have bound := @slot_end_le dsz.toNat index max.toNat inside
    simp only [slot, init, drop_replicate, take_replicate, Supex.supexTaskInit]
    congr 1
    omega

theorem Views.max_ne_zero (views : Views list ring) : list.max ≠ 0 := by
  intro zero
  have inside := ring.headInside
  simp [views.max, zero] at inside

theorem Views.push (views : Views list ring) (length : data.length = list.dsz.toNat) :
    ∃ next, push list data = .ok (next, (Supex.supexTaskPush ring data).1) ∧
      Views next (Supex.supexTaskPush ring data).2 ∧ next.max = list.max ∧ next.dsz = list.dsz := by
  have inside : list.tail.toNat < list.max.toNat := views.tail ▸ views.max ▸ ring.tailInside
  have room := @slot_end_le list.dsz.toNat _ _ inside
  rw [← views.size] at room
  have freeIff : ring.head ≠ (ring.tail + 1) % ring.max ↔ list.head ≠ (list.tail + 1) % list.max := by
    rw [views.head, views.tail, views.max, ← next_toNat inside, ne_eq, ne_eq, UInt32.toNat_inj]
  rw [Slots.push, if_neg views.max_ne_zero, Supex.supexTaskPush]
  by_cases free : list.head ≠ (list.tail + 1) % list.max
  · obtain ⟨slots, patched⟩ : ∃ slots, Heap.patch list.slots (list.tail.toNat * list.dsz.toNat) data = .ok slots :=
      ⟨_, if_pos (by omega)⟩
    refine ⟨{ list with slots, tail := (list.tail + 1) % list.max, isz := list.isz + 1 }, ?_, ?_, rfl, rfl⟩
    · simp only [free, freeIff.mpr free, ne_eq, not_false_eq_true, if_true]
      rw [views.offset (views.max ▸ inside), patched]
    · simp only [freeIff.mpr free, ne_eq, not_false_eq_true, if_true]
      refine ⟨views.max, views.head, ?_, congrArg (· + 1) views.isz, views.osz, ?_, ?_, views.fits⟩
      · show (ring.tail + 1) % ring.max = _
        rw [next_toNat inside, views.tail, views.max]
      · rw [Heap.length_patch patched, views.size]
      · intro index below
        show slot slots list.dsz.toNat index = update ring.slots ring.tail data index
        rw [← length] at patched ⊢
        rw [slot_patch patched, views.tail, length]
        by_cases same : index = list.tail.toNat
        · rw [same, update_self, update_self]
        · rw [update_of_ne same, update_of_ne same, views.slots index below]
  · refine ⟨list, ?_, ?_, rfl, rfl⟩
    · simp only [free, mt freeIff.mp free, if_false]
    · simp only [mt freeIff.mp free, if_false]
      exact views

theorem Views.pull (views : Views list ring) :
    ∃ next, pull list = .ok (next, (Supex.supexTaskPull ring).1) ∧ Views next (Supex.supexTaskPull ring).2 ∧
      next.max = list.max ∧ next.dsz = list.dsz := by
  have inside : list.head.toNat < list.max.toNat := views.head ▸ views.max ▸ ring.headInside
  have room := @slot_end_le list.dsz.toNat _ _ inside
  rw [← views.size] at room
  have someIff : ring.head ≠ ring.tail ↔ list.head ≠ list.tail := by
    rw [views.head, views.tail, ne_eq, ne_eq, UInt32.toNat_inj]
  rw [Slots.pull, Supex.supexTaskPull]
  by_cases nonempty : list.head ≠ list.tail
  · have fetched : Heap.fetch (list.slots.drop (list.head.toNat * list.dsz.toNat)) list.dsz.toNat =
        .ok (ring.slots ring.head) := by
      rw [Heap.fetch, if_pos (by rw [length_drop]; omega), ← views.slots _ ring.headInside, views.head]
      rfl
    refine ⟨{ list with head := (list.head + 1) % list.max, osz := list.osz + 1 }, ?_, ?_, rfl, rfl⟩
    · rw [if_pos nonempty, views.offset (views.max ▸ inside), fetched, if_pos (someIff.mpr nonempty)]
      simp only [views.max_ne_zero, if_false]
    · rw [if_pos (someIff.mpr nonempty)]
      refine ⟨views.max, ?_, views.tail, views.isz, congrArg (· + 1) views.osz, views.size, views.slots, views.fits⟩
      show (ring.head + 1) % ring.max = _
      rw [next_toNat inside, views.head, views.max]
  · refine ⟨list, ?_, ?_, rfl, rfl⟩
    · rw [if_neg nonempty, if_neg (mt someIff.mp nonempty)]
    · rw [if_neg (mt someIff.mp nonempty)]
      exact views

structure Stores (dsz max : UInt32) (list : SlotList) (queue : List (List UInt8)) : Prop where
  max : list.max = max
  dsz : list.dsz = dsz
  views : ∃ ring, Views list ring ∧ ring.contents = queue ∧ ring.Accounted

variable {dsz max : UInt32}

theorem stores_init (positive : 0 < max.toNat) (fits : (max.toNat - 1) * dsz.toNat < 4294967296) :
    Stores dsz max (init dsz max) [] :=
  ⟨rfl, rfl, _, views_init positive fits, SupexTaskList.contents_init .., SupexTaskList.accounted_init ..⟩

def Sized (dsz : UInt32) : Op (List UInt8) → Prop
  | .push data => data.length = dsz.toNat
  | .pull => True

theorem stores_step (kind : Kind) (list : SlotList) (queue : List (List UInt8)) (op : Op (List UInt8))
    (stores : Stores dsz max list queue) (sized : Sized dsz op) :
    ∃ next, kind.step list op = .ok (next, (fifo (max.toNat - 1) queue op).2) ∧
      Stores dsz max next (fifo (max.toNat - 1) queue op).1 := by
  obtain ⟨rfl, rfl, ring, views, rfl, accounted⟩ := stores
  rw [← views.max]
  cases op with
  | push data =>
    obtain ⟨next, pushed, viewsNext, maxEq, dszEq⟩ := views.push sized
    rw [ring.push_fifo data]
    refine ⟨next, ?_, maxEq, dszEq, _, viewsNext, rfl, accounted.push data⟩
    rw [Kind.step, kind.push_eq, pushed]
    rfl
  | pull =>
    obtain ⟨next, pulled, viewsNext, maxEq, dszEq⟩ := views.pull
    rw [ring.pull_fifo]
    refine ⟨next, ?_, maxEq, dszEq, _, viewsNext, rfl, accounted.pull⟩
    rw [Kind.step, kind.pull_eq, pulled]
    rfl

def Fifo (kind : Kind) (dsz max : UInt32) : Prop :=
  ∀ ops : List (Op (List UInt8)), (∀ op ∈ ops, Sized dsz op) →
    ∃ final, run kind.step (kind.init dsz max) ops =
        .ok (final, (specRun (fifo (max.toNat - 1)) [] ops).2) ∧
      final.head < max ∧ final.tail < max ∧
      (final.isz - final.osz).toNat = (specRun (fifo (max.toNat - 1)) [] ops).1.length

theorem fifo_of_fits (kind : Kind) (two : 2 ≤ max) (fits : (max.toNat - 1) * dsz.toNat < 4294967296) :
    Fifo kind dsz max := by
  intro ops sized
  have positive : 0 < max.toNat := Nat.lt_of_lt_of_le (by decide) (UInt32.le_iff_toNat_le.mp two)
  have guarded : Guarded kind.step (fun _ op => Sized dsz op) (init dsz max) ops :=
    guarded_of_forall sized
  obtain ⟨final, runEq, stores⟩ := run_simulation (stores_step kind) (stores_init positive fits) guarded
  obtain ⟨rfl, rfl, ring, views, contents, accounted⟩ := stores
  refine ⟨final, by rw [kind.init_eq]; exact runEq, ?_, ?_, ?_⟩
  · rw [UInt32.lt_iff_toNat_lt, ← views.head, ← views.max]
    exact ring.headInside
  · rw [UInt32.lt_iff_toNat_lt, ← views.tail, ← views.max]
    exact ring.tailInside
  · rw [← contents, ← views.isz, ← views.osz]
    exact accounted.difference (views.max ▸ Nat.le_of_lt final.max.toNat_lt)

def isPulled : Answer (List UInt8) → Bool
  | .pulled (some _) => true
  | _ => false

def pushes (answers : List (Answer (List UInt8))) : Nat := answers.count (.pushed true)

def pulls (answers : List (Answer (List UInt8))) : Nat := answers.countP isPulled

structure Moved (list final : SlotList) (answers : List (Answer (List UInt8))) : Prop where
  max : final.max = list.max
  dsz : final.dsz = list.dsz
  tail : final.tail.toNat = (list.tail.toNat + pushes answers) % list.max.toNat
  head : final.head.toNat = (list.head.toNat + pulls answers) % list.max.toNat

variable {kind : Kind} {final : SlotList} {op : Op (List UInt8)} {answer : Answer (List UInt8)}
  {ops : List (Op (List UInt8))} {answers : List (Answer (List UInt8))}

theorem step_push (returned : kind.step list (.push data) = .ok (next, answer)) :
    ∃ ok, answer = .pushed ok ∧ push list data = .ok (next, ok) := by
  rw [Kind.step, kind.push_eq] at returned
  obtain ⟨⟨after, ok⟩, pushed, same⟩ := Outcome.map_ok_iff.mp returned
  cases same
  exact ⟨ok, rfl, pushed⟩

theorem step_pull (returned : kind.step list .pull = .ok (next, answer)) :
    ∃ value, answer = .pulled value ∧ pull list = .ok (next, value) := by
  rw [Kind.step, kind.pull_eq] at returned
  obtain ⟨⟨after, value⟩, pulled, same⟩ := Outcome.map_ok_iff.mp returned
  cases same
  exact ⟨value, rfl, pulled⟩

theorem moved_step (headInside : list.head.toNat < list.max.toNat) (tailInside : list.tail.toNat < list.max.toNat)
    (returned : kind.step list op = .ok (next, answer)) : Moved list next [answer] := by
  have sameHead := (Nat.mod_eq_of_lt headInside).symm
  have sameTail := (Nat.mod_eq_of_lt tailInside).symm
  cases op with
  | push data =>
    obtain ⟨ok, rfl, pushed⟩ := step_push returned
    rcases push_ok pushed with ⟨rfl, -, slots, -, rfl⟩ | ⟨rfl, rfl⟩
    · exact ⟨rfl, rfl, next_toNat tailInside, sameHead⟩
    · exact ⟨rfl, rfl, sameTail, sameHead⟩
  | pull =>
    obtain ⟨value, rfl, pulled⟩ := step_pull returned
    rcases pull_ok pulled with ⟨-, data, rfl, -, rfl⟩ | ⟨rfl, rfl⟩
    · exact ⟨rfl, rfl, sameTail, next_toNat headInside⟩
    · exact ⟨rfl, rfl, sameTail, sameHead⟩

theorem moved_run (headInside : list.head.toNat < list.max.toNat) (tailInside : list.tail.toNat < list.max.toNat)
    (returned : run kind.step list ops = .ok (final, answers)) : Moved list final answers := by
  induction ops generalizing list answers with
  | nil =>
    cases returned
    exact ⟨rfl, rfl, (Nat.mod_eq_of_lt tailInside).symm, (Nat.mod_eq_of_lt headInside).symm⟩
  | cons op rest ih =>
    obtain ⟨next, answer, later, stepEq, runEq, rfl⟩ := run_cons_ok returned
    obtain ⟨max, dsz, tail, head⟩ := moved_step headInside tailInside stepEq
    have positive : 0 < list.max.toNat := Nat.zero_lt_of_lt headInside
    have last := ih (by rw [max, head]; exact Nat.mod_lt _ positive) (by rw [max, tail]; exact Nat.mod_lt _ positive)
      runEq
    refine ⟨last.max.trans max, last.dsz.trans dsz, ?_, ?_⟩
    · rw [last.tail, max, tail, Nat.mod_add_mod, Nat.add_assoc]
      simp only [pushes, count_cons, count_nil]
      congr 2
      omega
    · rw [last.head, max, head, Nat.mod_add_mod, Nat.add_assoc]
      simp only [pulls, countP_cons, countP_nil]
      congr 2
      omega

theorem moved_init (positive : 0 < max.toNat)
    (returned : run kind.step (kind.init dsz max) ops = .ok (final, answers)) :
    final.dsz = dsz ∧ final.tail.toNat = pushes answers % max.toNat ∧
      final.head.toNat = pulls answers % max.toNat := by
  rw [kind.init_eq] at returned
  obtain ⟨-, dszEq, tail, head⟩ := moved_run (show (0 : UInt32).toNat < max.toNat from positive)
    (show (0 : UInt32).toNat < max.toNat from positive) returned
  refine ⟨dszEq, tail.trans ?_, head.trans ?_⟩
  · exact congrArg (· % max.toNat) (Nat.zero_add _)
  · exact congrArg (· % max.toNat) (Nat.zero_add _)

theorem Fifo.last (ordered : Fifo kind dsz max) (sized : ∀ other ∈ ops ++ [op], Sized dsz other) :
    ∃ middle next, run kind.step (kind.init dsz max) ops =
        .ok (middle, (specRun (fifo (max.toNat - 1)) [] ops).2) ∧
      kind.step middle op = .ok (next, (fifo (max.toNat - 1) (specRun (fifo (max.toNat - 1)) [] ops).1 op).2) ∧
      run kind.step (kind.init dsz max) (ops ++ [op]) =
        .ok (next, (specRun (fifo (max.toNat - 1)) [] (ops ++ [op])).2) := by
  obtain ⟨middle, runEq, -⟩ := ordered ops fun other mem => sized other (mem_append_left _ mem)
  obtain ⟨final, wholeEq, -⟩ := ordered (ops ++ [op]) sized
  cases stepEq : kind.step middle op with
  | error fault =>
    rw [run_stop runEq stepEq] at wholeEq
    cases wholeEq
  | ok result =>
    have same := wholeEq
    rw [run_concat runEq stepEq, specRun_concat, Except.ok.injEq, Prod.mk.injEq,
      append_cancel_left_eq, singleton_inj] at same
    refine ⟨middle, result.1, runEq, ?_, same.1 ▸ wholeEq⟩
    rw [← same.2]
    exact stepEq

def laps (value : List UInt8) : Nat → List (Op (List UInt8))
  | 0 => []
  | count + 1 => laps value count ++ [.push value] ++ [.pull]

theorem laps_spec {capacity : Nat} (positive : 0 < capacity) (value : List UInt8) (count : Nat) :
    (specRun (fifo capacity) [] (laps value count)).1 = [] ∧
      pushes (specRun (fifo capacity) [] (laps value count)).2 = count ∧
      pulls (specRun (fifo capacity) [] (laps value count)).2 = count := by
  induction count with
  | zero => exact ⟨rfl, rfl, rfl⟩
  | succ count ih =>
    obtain ⟨empty, pushed, pulled⟩ := ih
    rw [laps, specRun_concat, specRun_concat, empty]
    simp only [fifo, length_nil, positive, if_true, nil_append]
    rw [pushes, pulls, count_append, count_append, countP_append, countP_append, ← pushes, ← pulls,
      pushed, pulled]
    exact ⟨trivial, rfl, rfl⟩

def filling (value : List UInt8) (count more : Nat) : List (Op (List UInt8)) :=
  laps value count ++ List.replicate more (.push value)

theorem filling_spec {capacity more : Nat} (room : more ≤ capacity) (positive : 0 < capacity) (value : List UInt8)
    (count : Nat) : (specRun (fifo capacity) [] (filling value count more)).1 = List.replicate more value ∧
      pushes (specRun (fifo capacity) [] (filling value count more)).2 = count + more ∧
      pulls (specRun (fifo capacity) [] (filling value count more)).2 = count := by
  induction more with
  | zero =>
    rw [filling, replicate_zero, append_nil]
    exact laps_spec positive value count
  | succ more ih =>
    obtain ⟨queue, pushed, pulled⟩ := ih (by omega)
    have longer : filling value count (more + 1) = filling value count more ++ [.push value] := by
      rw [filling, replicate_succ', ← append_assoc]
      rfl
    rw [longer, specRun_concat, queue]
    simp only [fifo, length_replicate, show more < capacity from room, if_true]
    rw [pushes, pulls, count_append, countP_append, ← pushes, ← pulls, pushed, pulled]
    exact ⟨replicate_succ'.symm, rfl, rfl⟩

theorem sized_filling {value : List UInt8} (size : value.length = dsz.toNat) (count more : Nat) :
    ∀ op ∈ filling value count more, Sized dsz op := by
  have lap : ∀ op ∈ laps value count, Sized dsz op := by
    induction count with
    | zero => simp [laps]
    | succ count ih =>
      intro op mem
      simp only [laps, append_assoc, mem_append, mem_singleton] at mem
      rcases mem with old | rfl | rfl
      · exact ih op old
      · exact size
      · trivial
  intro op mem
  rcases mem_append.mp mem with old | new
  · exact lap op old
  · rw [eq_of_mem_replicate new]
    exact size

theorem shared_slot (two : 2 ≤ max.toNat) (large : ¬ (max.toNat - 1) * dsz.toNat < 4294967296) :
    ∃ index, 2 ≤ index ∧ index < max.toNat ∧ index * dsz.toNat % 4294967296 < dsz.toNat := by
  have reached : ∃ index, 4294967296 ≤ index * dsz.toNat := ⟨max.toNat - 1, by omega⟩
  obtain ⟨index, past, least⟩ : ∃ index, 4294967296 ≤ index * dsz.toNat ∧
      ∀ other, 4294967296 ≤ other * dsz.toNat → index ≤ other :=
    ⟨Nat.find reached, Nat.find_spec reached, fun other => Nat.find_min' reached⟩
  have bound := dsz.toNat_lt
  have below : index ≤ max.toNat - 1 := least _ (by omega)
  match index, past, least with
  | 0, past, _ => omega
  | 1, past, _ => omega
  | index + 2, past, least =>
    have before : (index + 1) * dsz.toNat < 4294967296 := by
      by_contra reached
      have := least _ (Nat.le_of_not_lt reached)
      omega
    have split : (index + 2) * dsz.toNat = (index + 1) * dsz.toNat + dsz.toNat := Nat.succ_mul _ _
    refine ⟨index + 2, by omega, by omega, ?_⟩
    rw [split] at past ⊢
    omega

theorem overwritten {value : List UInt8} (first : list.tail.toNat = 0) (size : data.length = list.dsz.toNat)
    (shared : list.head.toNat * list.dsz.toNat % 4294967296 < list.dsz.toNat)
    (pushed : push list data = .ok (next, true)) (pulled : pull next = .ok (final, some value)) :
    value[0]? = data[list.head.toNat * list.dsz.toNat % 4294967296]? := by
  rcases push_ok pushed with ⟨-, -, slots, patched, rfl⟩ | ⟨wrong, -⟩
  · rcases pull_ok pulled with ⟨-, taken, same, fetched, -⟩ | ⟨wrong, -⟩
    · cases same
      rw [UInt32.toNat_mul, first, Nat.zero_mul, Nat.zero_mod] at patched
      simp only [UInt32.toNat_mul] at fetched
      rw [Heap.fetch] at fetched
      split at fetched
      · cases fetched
        rw [List.getElem?_take, if_pos (by omega), List.getElem?_drop, Heap.getElem?_patch patched]
        simp only [Nat.zero_le, true_and, Nat.zero_add, Nat.add_zero, Nat.sub_zero]
        rw [if_pos (by rw [size]; exact shared)]
      · cases fetched
    · cases wrong
  · cases wrong

theorem not_fifo (two : 2 ≤ max) (large : ¬ (max.toNat - 1) * dsz.toNat < 4294967296) : ¬ Fifo kind dsz max := by
  intro ordered
  have twoNat : 2 ≤ max.toNat := UInt32.le_iff_toNat_le.mp two
  obtain ⟨index, low, below, shared⟩ := shared_slot twoNat large
  let zeros := List.replicate dsz.toNat (0 : UInt8)
  let ones := List.replicate dsz.toNat (1 : UInt8)
  let filled := filling zeros index (max.toNat - index)
  have sized : ∀ op ∈ filled ++ [.push ones] ++ [.pull], Sized dsz op := by
    intro op mem
    simp only [append_assoc, mem_append, mem_singleton] at mem
    rcases mem with old | rfl | rfl
    · exact sized_filling length_replicate _ _ op old
    · exact length_replicate
    · trivial
  obtain ⟨queue, pushed, pulled⟩ := @filling_spec (max.toNat - 1) (max.toNat - index) (by omega) (by omega) zeros index
  obtain ⟨middle, next, runEq, pushEq, nextEq⟩ := ordered.last fun op mem => sized op (mem_append_left _ mem)
  obtain ⟨other, last, otherEq, pullEq, -⟩ := ordered.last sized
  rw [nextEq] at otherEq
  cases otherEq
  -- the push goes to the first slot of all, the pull takes the shared one
  obtain ⟨dszEq, tail, head⟩ := moved_init (by omega) runEq
  rw [pushed, Nat.add_sub_cancel' (Nat.le_of_lt below), Nat.mod_self] at tail
  rw [pulled, Nat.mod_eq_of_lt below] at head
  rw [specRun_concat, queue] at pullEq
  rw [queue] at pushEq
  have room : max.toNat - index < max.toNat - 1 := by omega
  obtain ⟨nonempty, someEq⟩ : ∃ nonempty, max.toNat - index = nonempty + 1 := ⟨max.toNat - index - 1, by omega⟩
  obtain ⟨ok, okEq, pushOk⟩ := step_push pushEq
  obtain ⟨value, valueEq, pullOk⟩ := step_pull pullEq
  simp only [fifo, length_replicate, room, if_true, Answer.pushed.injEq] at okEq valueEq
  rw [someEq, replicate_succ, cons_append] at valueEq
  simp only [Answer.pulled.injEq] at valueEq
  subst okEq
  subst valueEq
  have changed := overwritten tail (by rw [dszEq]; exact length_replicate) (by rwa [head, dszEq]) pushOk pullOk
  rw [head, dszEq, List.getElem?_replicate, List.getElem?_replicate, if_pos (by omega), if_pos shared] at changed
  exact absurd changed (by decide)

/-- A ring hands its tasks out in order exactly if its last slot lies within 32 bits. -/
theorem ring_fifo_iff (kind : Kind) (dsz max : UInt32) (two : 2 ≤ max) :
    Fifo kind dsz max ↔ (max.toNat - 1) * dsz.toNat < 4294967296 :=
  ⟨fun ordered => by_contra fun large => not_fifo two large ordered, fifo_of_fits kind two⟩

theorem ring_fifo_pool : Fifo .freeQueue 8 20000 ∧ Fifo .supexTask 8 20000 :=
  ⟨(ring_fifo_iff .freeQueue 8 20000 (by decide)).mpr (by decide),
    (ring_fifo_iff .supexTask 8 20000 (by decide)).mpr (by decide)⟩

theorem ring_fifo_wrapped : ¬ Fifo .freeQueue 2147483648 3 ∧ ¬ Fifo .supexTask 2147483648 3 :=
  ⟨not_fifo (by decide) (by decide), not_fifo (by decide) (by decide)⟩

def stored (list : SlotList) : Nat := Ring.count list.max.toNat list.head.toNat list.tail.toNat

structure Formed (list : SlotList) : Prop where
  head : list.head.toNat ≤ list.max.toNat - 1
  tail : list.tail.toNat ≤ list.max.toNat - 1
  size : list.slots.length = list.max.toNat * list.dsz.toNat

theorem formed_init (dsz max : UInt32) : Formed (init dsz max) := ⟨Nat.zero_le _, Nat.zero_le _, length_replicate⟩

section

variable (formed : Formed list)

include formed

theorem Formed.below (positive : 0 < list.max.toNat) :
    list.head.toNat < list.max.toNat ∧ list.tail.toNat < list.max.toNat := by
  have head := formed.head
  have tail := formed.tail
  omega

theorem Formed.inside {index : UInt32} (below : index.toNat < list.max.toNat) :
    (index * list.dsz).toNat + list.dsz.toNat ≤ list.slots.length := by
  have whole := @slot_end_le list.dsz.toNat _ _ below
  have cut := Nat.mod_le (index.toNat * list.dsz.toNat) (2 ^ 32)
  rw [UInt32.toNat_mul, formed.size]
  omega

theorem Formed.push_room (length : data.length = list.dsz.toNat) (room : stored list + 1 < list.max.toNat) :
    ∃ next, push list data = .ok (next, true) ∧ Formed next ∧ stored next = stored list + 1 ∧
      next.max = list.max ∧ next.dsz = list.dsz := by
  obtain ⟨headInside, tailInside⟩ := formed.below (by omega)
  have free : list.head.toNat ≠ (list.tail.toNat + 1) % list.max.toNat :=
    mt (Ring.full_iff headInside tailInside).mp (by rw [stored] at room; omega)
  have inside := formed.inside tailInside
  obtain ⟨slots, patched⟩ : ∃ slots, Heap.patch list.slots (list.tail * list.dsz).toNat data = .ok slots :=
    ⟨_, if_pos (by omega)⟩
  have nonzero : list.max ≠ 0 := by
    intro zero
    simp [zero] at tailInside
  refine ⟨{ list with slots, tail := (list.tail + 1) % list.max, isz := list.isz + 1 }, ?_, ?_, ?_, rfl, rfl⟩
  · have other : list.head ≠ (list.tail + 1) % list.max := by
      rwa [ne_eq, ← UInt32.toNat_inj, next_toNat tailInside]
    simp only [push, nonzero, if_false, other, ne_eq, not_false_eq_true, if_true, patched]
  · refine ⟨formed.head, ?_, by rw [Heap.length_patch patched, formed.size]⟩
    rw [next_toNat tailInside]
    exact Nat.le_sub_one_of_lt (Nat.mod_lt _ (by omega))
  · rw [stored, next_toNat tailInside, Ring.count_push headInside tailInside free, stored]

theorem Formed.push_full (full : ¬ stored list + 1 < list.max.toNat) (next : SlotList) :
    push list data ≠ .ok (next, true) := by
  intro pushed
  rw [push] at pushed
  by_cases zero : list.max = 0
  · rw [if_pos zero] at pushed
    cases pushed
  · have positive : 0 < list.max.toNat := Nat.pos_of_ne_zero fun absent => zero (UInt32.toNat_inj.mp absent)
    obtain ⟨headInside, tailInside⟩ := formed.below positive
    have bound := Ring.count_lt headInside tailInside
    have taken : list.head = (list.tail + 1) % list.max := by
      rw [← UInt32.toNat_inj, next_toNat tailInside, Ring.full_iff headInside tailInside]
      rw [stored] at full
      omega
    simp [zero, ← taken] at pushed

theorem Formed.stored_pos_iff : 0 < stored list ↔ list.head ≠ list.tail := by
  have head := formed.head
  have tail := formed.tail
  rw [ne_eq, ← UInt32.toNat_inj, stored, Ring.count]
  split_ifs <;> omega

theorem Formed.pull_some (nonempty : 0 < stored list) :
    ∃ next data, pull list = .ok (next, some data) ∧ data.length = list.dsz.toNat ∧ Formed next ∧
      stored list = stored next + 1 ∧ next.max = list.max ∧ next.dsz = list.dsz := by
  have other := formed.stored_pos_iff.mp nonempty
  have otherNat : list.head.toNat ≠ list.tail.toNat := mt UInt32.toNat_inj.mp other
  obtain ⟨headInside, tailInside⟩ := formed.below (by
    have head := formed.head
    have tail := formed.tail
    omega)
  have inside := formed.inside headInside
  have nonzero : list.max ≠ 0 := by
    intro zero
    simp [zero] at tailInside
  have fetched : Heap.fetch (list.slots.drop (list.head * list.dsz).toNat) list.dsz.toNat =
      .ok ((list.slots.drop (list.head * list.dsz).toNat).take list.dsz.toNat) :=
    if_pos (by rw [length_drop]; omega)
  refine ⟨{ list with head := (list.head + 1) % list.max, osz := list.osz + 1 },
    (list.slots.drop (list.head * list.dsz).toNat).take list.dsz.toNat, ?_, ?_, ?_, ?_, rfl, rfl⟩
  · simp only [pull, other, ne_eq, not_false_eq_true, if_true, fetched, nonzero, if_false]
  · rw [length_take, length_drop]
    omega
  · refine ⟨?_, formed.tail, formed.size⟩
    rw [next_toNat headInside]
    exact Nat.le_sub_one_of_lt (Nat.mod_lt _ (by omega))
  · rw [stored, Ring.count_pull headInside tailInside otherNat, stored, next_toNat headInside]

theorem Formed.pull_none (absent : stored list = 0) : pull list = .ok (list, none) :=
  if_neg fun other => Nat.ne_of_gt (formed.stored_pos_iff.mpr other) absent

end

end Libucmq.Supex.Slots
