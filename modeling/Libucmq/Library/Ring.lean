import Mathlib.Data.List.Basic

/-! A ring of slots with a head and a tail index, read as a queue. -/

namespace Ring

open List Function

inductive Op (α : Type)
  | push (value : α)
  | pull

inductive Answer (α : Type)
  | pushed (ok : Bool)
  | pulled (value : Option α)
deriving DecidableEq

def fifo {α : Type} (capacity : Nat) (queue : List α) : Op α → List α × Answer α
  | .push value => if queue.length < capacity then (queue ++ [value], .pushed true) else (queue, .pushed false)
  | .pull =>
    match queue with
    | [] => ([], .pulled none)
    | first :: rest => (rest, .pulled (some first))

variable {α : Type} {max head tail : Nat} {slots : Nat → α}

def place (max head offset : Nat) : Nat := if head + offset < max then head + offset else head + offset - max

def count (max head tail : Nat) : Nat := if head ≤ tail then tail - head else tail + max - head

def contents (max : Nat) (slots : Nat → α) (head tail : Nat) : List α :=
  (List.range (count max head tail)).map fun offset => slots (place max head offset)

@[simp] theorem contents_length : (contents max slots head tail).length = count max head tail := by
  simp [contents]

theorem next_eq (inside : tail < max) : (tail + 1) % max = if tail + 1 = max then 0 else tail + 1 := by
  split_ifs with last
  · rw [last, Nat.mod_self]
  · exact Nat.mod_eq_of_lt (by omega)

section

variable (headInside : head < max)

include headInside

theorem count_lt (tailInside : tail < max) : count max head tail < max := by
  rw [count]
  split_ifs <;> omega

theorem contents_eq_nil_iff : contents max slots head tail = [] ↔ head = tail := by
  rw [← length_eq_zero_iff, contents_length, count]
  split_ifs <;> omega

section

variable (tailInside : tail < max)

include tailInside

theorem full_iff : head = (tail + 1) % max ↔ count max head tail + 1 = max := by
  rw [next_eq tailInside, count]
  split_ifs <;> omega

theorem count_push (room : head ≠ (tail + 1) % max) :
    count max head ((tail + 1) % max) = count max head tail + 1 := by
  have free : count max head tail + 1 ≠ max := mt (full_iff headInside tailInside).mpr room
  rw [next_eq tailInside] at room ⊢
  simp only [count] at free ⊢
  split_ifs at room free ⊢ <;> omega

theorem count_pull (nonempty : head ≠ tail) : count max head tail = count max ((head + 1) % max) tail + 1 := by
  rw [next_eq headInside]
  simp only [count]
  split_ifs <;> omega

theorem contents_push (room : head ≠ (tail + 1) % max)
    (value : α) : contents max (update slots tail value) head ((tail + 1) % max) =
      contents max slots head tail ++ [value] := by
  have more := count_push headInside tailInside room
  have last : place max head (count max head tail) = tail := by
    rw [place, count]
    split_ifs <;> omega
  have earlier : ∀ offset < count max head tail, place max head offset ≠ tail := by
    intro offset used
    have bound := count_lt headInside tailInside
    rw [place]
    rw [count] at used bound
    split_ifs at used bound ⊢ <;> omega
  rw [contents, more, range_succ, map_append, map_singleton, last, update_self, contents]
  congr 1
  apply map_congr_left
  intro offset used
  rw [update_of_ne (earlier offset (mem_range.mp used))]

theorem contents_pull (nonempty : head ≠ tail) :
    contents max slots head tail = slots head :: contents max slots ((head + 1) % max) tail := by
  have less := count_pull headInside tailInside nonempty
  have first : place max head 0 = head := if_pos headInside
  have later : ∀ offset, offset < count max ((head + 1) % max) tail →
      place max head (offset + 1) = place max ((head + 1) % max) offset := by
    intro offset used
    rw [next_eq headInside] at used ⊢
    simp only [place, count] at used ⊢
    split_ifs at used ⊢ <;> omega
  rw [contents, less, range_succ_eq_map, map_cons, first, map_map, contents]
  congr 1
  apply map_congr_left
  intro offset used
  exact congrArg slots (later offset (mem_range.mp used))

end

end

end Ring
