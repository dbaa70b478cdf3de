import Libucmq.Library.Ring

/-! The task ring of `supex.c`, with one producer and one consumer. -/

namespace Libucmq.Supex

variable {α : Type}

/-- Without the two locks; `slots` holds the `max` nodes of the array. -/
structure SupexTaskList (α : Type) where
  max : Nat
  isz : UInt32 := 0
  osz : UInt32 := 0
  slots : Nat → α
  head : Nat
  tail : Nat
  headInside : head < max
  tailInside : tail < max

def supexTaskInit (zero : α) (max : Nat) (positive : 0 < max) : SupexTaskList α where
  max := max
  slots := fun _ => zero
  head := 0
  tail := 0
  headInside := positive
  tailInside := positive

def supexTaskPush (list : SupexTaskList α) (task : α) : Bool × SupexTaskList α :=
  let next := (list.tail + 1) % list.max
  if list.head ≠ next then
    (true, { list with
      slots := Function.update list.slots list.tail task
      tail := next
      isz := list.isz + 1
      tailInside := Nat.mod_lt _ (Nat.zero_lt_of_lt list.tailInside) })
  else (false, list)

def supexTaskPull (list : SupexTaskList α) : Option α × SupexTaskList α :=
  if list.head ≠ list.tail then
    (some (list.slots list.head), { list with
      head := (list.head + 1) % list.max
      osz := list.osz + 1
      headInside := Nat.mod_lt _ (Nat.zero_lt_of_lt list.headInside) })
  else (none, list)

namespace SupexTaskList

def contents (list : SupexTaskList α) : List α := Ring.contents list.max list.slots list.head list.tail

theorem contents_length_lt (list : SupexTaskList α) : list.contents.length < list.max := by
  rw [contents, Ring.contents_length]
  exact Ring.count_lt list.headInside list.tailInside

@[simp] theorem contents_init (zero : α) (max : Nat) (positive : 0 < max) :
    (supexTaskInit zero max positive).contents = [] := (Ring.contents_eq_nil_iff positive).mpr rfl

variable {list : SupexTaskList α}

theorem push_room (room : list.contents.length + 1 < list.max) (task : α) :
    ∃ next, supexTaskPush list task = (true, next) ∧ next.contents = list.contents ++ [task] ∧ next.max = list.max := by
  rw [contents, Ring.contents_length] at room
  have free : list.head ≠ (list.tail + 1) % list.max :=
    mt (Ring.full_iff list.headInside list.tailInside).mp (by omega)
  exact ⟨_, if_pos free, Ring.contents_push list.headInside list.tailInside free task, rfl⟩

theorem push_full (full : ¬ list.contents.length + 1 < list.max) (task : α) :
    supexTaskPush list task = (false, list) := by
  have bound := list.contents_length_lt
  rw [contents, Ring.contents_length] at full bound
  have taken : list.head = (list.tail + 1) % list.max :=
    (Ring.full_iff list.headInside list.tailInside).mpr (by omega)
  exact if_neg (not_not.mpr taken)

theorem pull_empty (empty : list.contents = []) : supexTaskPull list = (none, list) :=
  if_neg (not_not.mpr ((Ring.contents_eq_nil_iff list.headInside).mp empty))

theorem pull_first {task : α} {rest : List α} (first : list.contents = task :: rest) :
    ∃ next, supexTaskPull list = (some task, next) ∧ next.contents = rest ∧ next.max = list.max := by
  have nonempty : list.head ≠ list.tail := by
    intro same
    rw [contents, (Ring.contents_eq_nil_iff list.headInside).mpr same] at first
    simp at first
  rw [contents, Ring.contents_pull list.headInside list.tailInside nonempty, List.cons.injEq] at first
  obtain ⟨rfl, rfl⟩ := first
  exact ⟨_, if_pos nonempty, rfl, rfl⟩

theorem push_fifo (list : SupexTaskList α) (task : α) : Ring.fifo (list.max - 1) list.contents (.push task) =
      ((supexTaskPush list task).2.contents, .pushed (supexTaskPush list task).1) := by
  by_cases room : list.contents.length + 1 < list.max
  · obtain ⟨next, pushEq, contents, -⟩ := push_room room task
    rw [Ring.fifo, if_pos (by omega), pushEq, contents]
  · rw [Ring.fifo, if_neg (by omega), push_full room]

theorem pull_fifo (list : SupexTaskList α) : Ring.fifo (list.max - 1) list.contents .pull =
      ((supexTaskPull list).2.contents, .pulled (supexTaskPull list).1) := by
  cases contents : list.contents with
  | nil => rw [Ring.fifo, pull_empty contents, contents]
  | cons task rest =>
    obtain ⟨next, pullEq, later, -⟩ := pull_first contents
    rw [Ring.fifo, pullEq, later]

def Accounted (list : SupexTaskList α) : Prop := list.isz = list.osz + UInt32.ofNat list.contents.length

theorem accounted_init (zero : α) (max : Nat) (positive : 0 < max) : (supexTaskInit zero max positive).Accounted := by
  rw [Accounted, contents_init]
  rfl

theorem Accounted.push (accounted : list.Accounted) (task : α) : (supexTaskPush list task).2.Accounted := by
  by_cases room : list.contents.length + 1 < list.max
  · obtain ⟨next, pushEq, contents, -⟩ := push_room room task
    have counters : next.isz = list.isz + 1 ∧ next.osz = list.osz := by
      rw [supexTaskPush] at pushEq
      split at pushEq
      · cases pushEq
        exact ⟨rfl, rfl⟩
      · cases pushEq
    rw [pushEq, Accounted, counters.1, counters.2, accounted, contents, List.length_append, List.length_singleton,
      UInt32.ofNat_add, UInt32.add_assoc]
    rfl
  · rwa [push_full room]

theorem Accounted.pull (accounted : list.Accounted) : (supexTaskPull list).2.Accounted := by
  cases contents : list.contents with
  | nil => rwa [pull_empty contents]
  | cons task rest =>
    obtain ⟨next, pullEq, later, -⟩ := pull_first contents
    have counters : next.isz = list.isz ∧ next.osz = list.osz + 1 := by
      rw [supexTaskPull] at pullEq
      split at pullEq
      · cases pullEq
        exact ⟨rfl, rfl⟩
      · cases pullEq
    rw [Accounted, contents, List.length_cons, UInt32.ofNat_add] at accounted
    rw [pullEq, Accounted, counters.1, counters.2, accounted, later, UInt32.add_assoc,
      UInt32.add_comm (UInt32.ofNat _)]
    rfl

theorem Accounted.difference (accounted : list.Accounted) (bound : list.max ≤ 4294967296) :
    (list.isz - list.osz).toNat = list.contents.length := by
  have less := list.contents_length_lt
  rw [accounted, UInt32.add_comm, UInt32.add_sub_cancel, UInt32.toNat_ofNat']
  exact Nat.mod_eq_of_lt (by omega)

end SupexTaskList

end Libucmq.Supex
