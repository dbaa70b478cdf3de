import Mathlib.Data.List.Basic

/-! A heap of blocks and who owns them. No address is given out twice. -/

namespace Heap

open List Function

variable {α : Type}

inductive Fault
  | dead
  | outside
deriving DecidableEq, Repr

structure Blocks (α : Type) where
  block : Nat → Option α
  next : Nat
  unused : ∀ address, next ≤ address → block address = none

namespace Blocks

def empty : Blocks α where
  block := fun _ => none
  next := 0
  unused := fun _ _ => rfl

def malloc (heap : Blocks α) (content : α) : Nat × Blocks α :=
  (heap.next, {
    block := update heap.block heap.next (some content)
    next := heap.next + 1
    unused := by
      intro address late
      rw [update_of_ne (by omega)]
      exact heap.unused address (by omega) })

def get (heap : Blocks α) (address : Nat) : Except Fault α :=
  match heap.block address with
  | none => .error .dead
  | some content => .ok content

def replace (heap : Blocks α) (address : Nat) (content : Option α) : Except Fault (Blocks α) :=
  if live : (heap.block address).isSome then
    .ok {
      block := update heap.block address content
      next := heap.next
      unused := by
        intro other late
        have apart : other ≠ address := by
          rintro rfl
          simp [heap.unused other late] at live
        rw [update_of_ne apart]
        exact heap.unused other late }
  else .error .dead

def put (heap : Blocks α) (address : Nat) (content : α) : Except Fault (Blocks α) :=
  heap.replace address (some content)

def free (heap : Blocks α) (address : Nat) : Except Fault (Blocks α) := heap.replace address none

end Blocks

theorem Blocks.get_live {heap : Blocks α} {address : Nat} {content : α} (live : heap.block address = some content) :
    heap.get address = .ok content := by
  simp only [Blocks.get, live]

theorem Blocks.replace_live {heap : Blocks α} {address : Nat} {content : α} (live : heap.block address = some content)
    (changed : Option α) :
    ∃ next, heap.replace address changed = .ok next ∧ next.block = update heap.block address changed ∧
      next.next = heap.next := by
  have isLive : (heap.block address).isSome = true := by rw [live]; rfl
  exact ⟨_, dif_pos isLive, rfl, rfl⟩

def Owns (heap : Blocks α) (others : Nat → Option α) (address : Nat) (content : α) : Prop :=
  others address = none ∧ heap.block = update others address (some content)

variable {heap : Blocks α} {others : Nat → Option α} {address : Nat} {content : α}

theorem owns_malloc (heap : Blocks α) (content : α) :
    Owns (heap.malloc content).2 heap.block (heap.malloc content).1 content :=
  ⟨heap.unused heap.next (Nat.le_refl _), rfl⟩

section

variable (owns : Owns heap others address content)

include owns

theorem Owns.live : heap.block address = some content := by
  rw [owns.2, update_self]

theorem Owns.get : heap.get address = .ok content :=
  Blocks.get_live owns.live

theorem Owns.replace (changed : Option α) :
    ∃ next, heap.replace address changed = .ok next ∧ next.block = update others address changed := by
  obtain ⟨next, replaced, blocks, -⟩ := Blocks.replace_live owns.live changed
  refine ⟨next, replaced, ?_⟩
  rw [blocks, owns.2, update_idem]

theorem Owns.put (changed : α) : ∃ next, heap.put address changed = .ok next ∧ Owns next others address changed := by
  obtain ⟨next, replaced, blocks⟩ := owns.replace (some changed)
  exact ⟨next, replaced, owns.1, blocks⟩

theorem Owns.free : ∃ next, heap.free address = .ok next ∧ next.block = others := by
  obtain ⟨next, replaced, blocks⟩ := owns.replace none
  refine ⟨next, replaced, ?_⟩
  rw [blocks, ← owns.1, update_eq_self]

end

theorem Owns.exchange {larger : Blocks α} {fresh : Nat} {moved : α} (outer : Owns larger heap.block fresh moved)
    (owns : Owns heap others address content) :
    ∃ next, larger.free address = .ok next ∧ Owns next others fresh moved := by
  have apart : fresh ≠ address := by
    rintro rfl
    exact absurd outer.1 (by simp [owns.live])
  have absent : others fresh = none := by
    have unused := outer.1
    rwa [owns.2, update_of_ne apart] at unused
  have both : Owns larger (update others fresh (some moved)) address content := by
    refine ⟨?_, ?_⟩
    · rw [update_of_ne apart.symm]
      exact owns.1
    · rw [update_comm apart, ← owns.2]
      exact outer.2
  obtain ⟨next, freed, blocks⟩ := both.free
  exact ⟨next, freed, absent, blocks⟩

variable {β : Type}

def patch (bytes : List β) (offset : Nat) (data : List β) : Except Fault (List β) :=
  if offset + data.length ≤ bytes.length then
    .ok (bytes.take offset ++ data ++ bytes.drop (offset + data.length))
  else .error .outside

def fetch (bytes : List β) (count : Nat) : Except Fault (List β) :=
  if count ≤ bytes.length then .ok (bytes.take count) else .error .outside

theorem getElem?_patch {bytes data changed : List β} {offset : Nat} (patched : patch bytes offset data = .ok changed)
    (index : Nat) : changed[index]? =
      if offset ≤ index ∧ index < offset + data.length then data[index - offset]? else bytes[index]? := by
  rw [patch] at patched
  split at patched
  · cases patched
    rw [append_assoc, List.getElem?_append, List.getElem?_append, length_take, List.getElem?_take,
      List.getElem?_drop]
    grind
  · cases patched

theorem length_patch {bytes data changed : List β} {offset : Nat} (patched : patch bytes offset data = .ok changed) :
    changed.length = bytes.length := by
  rw [patch] at patched
  split at patched
  · cases patched
    simp only [length_append, length_take, length_drop]
    omega
  · cases patched

theorem patch_front {bytes data : List β} (fits : data.length ≤ bytes.length) :
    ∃ changed, patch bytes 0 data = .ok changed ∧ changed.take data.length = data ∧
      changed.length = bytes.length := by
  refine ⟨data ++ bytes.drop data.length, ?_, take_left .., ?_⟩
  · rw [patch, Nat.zero_add, if_pos fits, take_zero, nil_append]
  · rw [length_append, length_drop]
    omega

def padded (zero : β) (size : Nat) (data : List β) : List β := data ++ List.replicate (size - data.length) zero

variable {zero : β} {size : Nat} {data : List β}

theorem padded_length (fits : data.length ≤ size) : (padded zero size data).length = size := by
  simp [padded, fits]

@[simp] theorem padded_take : (padded zero size data).take data.length = data := by simp [padded]

theorem fetch_padded : fetch (padded zero size data) data.length = .ok data := by
  rw [fetch, if_pos (by simp [padded]), padded_take]

theorem patch_padded {more : List β} (fits : data.length + more.length ≤ size) :
    patch (padded zero size data) data.length more = .ok (padded zero size (data ++ more)) := by
  have rest : (padded zero size data).drop (data.length + more.length) =
      List.replicate (size - (data ++ more).length) zero := by
    rw [padded, drop_append, drop_replicate, drop_of_length_le (by omega), nil_append,
      length_append]
    congr 1
    omega
  rw [patch, if_pos (by rw [padded_length (by omega)]; exact fits), padded_take, rest, padded]

theorem patch_blank (fits : data.length ≤ size) :
    patch (List.replicate size zero) 0 data = .ok (padded zero size data) :=
  @patch_padded β zero size [] data (by simpa using fits)

end Heap
