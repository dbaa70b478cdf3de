import Mathlib.Data.List.Nodup
import Mathlib.Data.List.Perm.Subperm
import Libucmq.Library.Heap

/-! Singly linked lists in a heap. -/

namespace Linked

open List

open Heap (Blocks)

structure Link (α : Type) where
  next : Option Nat
  item : α

inductive Stop
  | fault (fault : Heap.Fault)
  | endless
deriving DecidableEq, Repr

variable {α : Type}

/-- The node before the one that passes; `none` is the head of the list. -/
def findPrev (test : α → Bool) (heap : Blocks (Link α)) :
    Nat → Option Nat → Option Nat → Except Stop (Option (Option Nat))
  | _, _, none => .ok none
  | 0, _, some _ => .error .endless
  | fuel + 1, prev, some address =>
    match heap.get address with
    | .error fault => .error (.fault fault)
    | .ok node => if test node.item then .ok (some prev) else findPrev test heap fuel (some address) node.next

def nextOf (heap : Blocks (Link α)) (head : Option Nat) : Option Nat → Except Heap.Fault (Option Nat)
  | none => .ok head
  | some address => do
    let node ← heap.get address
    return node.next

def setNext (heap : Blocks (Link α)) (head next : Option Nat) :
    Option Nat → Except Heap.Fault (Blocks (Link α) × Option Nat)
  | none => .ok (heap, next)
  | some address => do
    let node ← heap.get address
    let heap ← heap.put address { node with next }
    return (heap, head)

def freeAll : Nat → Blocks (Link α) → Option Nat → Except Stop (List Nat × Blocks (Link α))
  | _, heap, none => .ok ([], heap)
  | 0, _, some _ => .error .endless
  | fuel + 1, heap, some address =>
    match heap.get address with
    | .error fault => .error (.fault fault)
    | .ok node =>
      match heap.free address with
      | .error fault => .error (.fault fault)
      | .ok heap =>
        match freeAll fuel heap node.next with
        | .error stop => .error stop
        | .ok (freed, heap) => .ok (address :: freed, heap)

def Chain (block : Nat → Option (Link α)) : Option Nat → List (Nat × α) → Prop
  | head, [] => head = none
  | head, (address, item) :: rest =>
    head = some address ∧ ∃ next, block address = some ⟨next, item⟩ ∧ Chain block next rest

inductive Reachable (block : Nat → Option (Link α)) : Option Nat → Nat → Prop
  | here (address : Nat) : Reachable block (some address) address
  | next {address later : Nat} {node : Link α} (live : block address = some node)
      (reached : Reachable block node.next later) : Reachable block (some address) later

def addresses (entries : List (Nat × α)) : List Nat := entries.map Prod.fst

@[simp] theorem addresses_nil : addresses ([] : List (Nat × α)) = [] := rfl

@[simp] theorem addresses_cons (entry : Nat × α) (rest : List (Nat × α)) :
    addresses (entry :: rest) = entry.1 :: addresses rest := rfl

@[simp] theorem addresses_append (first second : List (Nat × α)) :
    addresses (first ++ second) = addresses first ++ addresses second := map_append

variable {block other : Nat → Option (Link α)} {heap : Blocks (Link α)} {head next : Option Nat} {address : Nat}
  {item changed : α} {entries before after rest : List (Nat × α)}

theorem Chain.congr (chain : Chain block head entries) (same : ∀ place ∈ addresses entries, other place = block place) :
    Chain other head entries := by
  induction entries generalizing head with
  | nil => exact chain
  | cons entry rest ih =>
    obtain ⟨start, next, live, later⟩ := chain
    refine ⟨start, next, ?_, ih later fun place mem => same place (mem_cons_of_mem _ mem)⟩
    rw [same entry.1 mem_cons_self, live]

theorem Chain.live (chain : Chain block head entries) (mem : (address, item) ∈ entries) :
    ∃ next, block address = some ⟨next, item⟩ := by
  induction entries generalizing head with
  | nil => cases mem
  | cons entry rest ih =>
    obtain ⟨-, next, live, later⟩ := chain
    rcases mem_cons.mp mem with rfl | behind
    · exact ⟨next, live⟩
    · exact ih later behind

theorem Chain.behind (chain : Chain block head (before ++ (address, item) :: after)) :
    ∃ next, block address = some ⟨next, item⟩ ∧ Chain block next after := by
  induction before generalizing head with
  | nil => exact chain.2
  | cons entry before ih =>
    obtain ⟨-, next, -, later⟩ := chain
    exact ih later

theorem Chain.update (chain : Chain block head (before ++ (address, item) :: after))
    (apart : address ∉ addresses before) (tail : Chain block next rest) (outside : address ∉ addresses rest) :
    Chain (Function.update block address (some ⟨next, changed⟩)) head (before ++ (address, changed) :: rest) := by
  induction before generalizing head with
  | nil =>
    refine ⟨chain.1, next, Function.update_self .., tail.congr fun place mem => ?_⟩
    exact Function.update_of_ne (by rintro rfl; exact outside mem) _ _
  | cons entry before ih =>
    obtain ⟨start, link, live, later⟩ := chain
    simp only [addresses_cons, mem_cons, not_or] at apart
    refine ⟨start, link, ?_, ih later apart.2⟩
    rw [Function.update_of_ne (Ne.symm apart.1), live]

theorem Chain.push (chain : Chain block head entries) (outside : address ∉ addresses entries) :
    Chain (Function.update block address (some ⟨head, item⟩)) (some address) ((address, item) :: entries) := by
  refine ⟨rfl, head, Function.update_self .., chain.congr fun place mem => ?_⟩
  exact Function.update_of_ne (by rintro rfl; exact outside mem) _ _

theorem Chain.reachable_iff (chain : Chain block head entries) {place : Nat} :
    Reachable block head place ↔ place ∈ addresses entries := by
  induction entries generalizing head with
  | nil =>
    cases chain
    simp only [addresses_nil, not_mem_nil, iff_false]
    intro reached
    cases reached
  | cons entry rest ih =>
    obtain ⟨rfl, next, live, later⟩ := chain
    rw [addresses_cons, mem_cons, ← ih later]
    constructor
    · intro reached
      cases reached with
      | here => exact .inl rfl
      | next found reached =>
        rw [live] at found
        cases found
        exact .inr reached
    · rintro (rfl | reached)
      · exact .here _
      · exact .next live reached

theorem Chain.length_le (chain : Chain heap.block head entries) (apart : (addresses entries).Nodup) :
    entries.length ≤ heap.next := by
  have below : ∀ place ∈ addresses entries, place ∈ List.range heap.next := by
    intro place mem
    obtain ⟨⟨_, item⟩, inside, rfl⟩ := mem_map.mp mem
    obtain ⟨next, live⟩ := chain.live inside
    rw [mem_range]
    by_contra late
    simp [heap.unused _ (Nat.le_of_not_lt late)] at live
  have short := (subperm_of_subset apart below).length_le
  rwa [addresses, length_map, length_range] at short

theorem findPrev_none {test : α → Bool} {fuel : Nat} {prev : Option Nat} (chain : Chain heap.block head entries)
    (enough : entries.length ≤ fuel) (absent : ∀ entry ∈ entries, test entry.2 = false) :
    findPrev test heap fuel prev head = .ok none := by
  induction entries generalizing head fuel prev with
  | nil =>
    cases chain
    cases fuel <;> rfl
  | cons entry rest ih =>
    obtain ⟨rfl, next, live, later⟩ := chain
    cases fuel with
    | zero => simp at enough
    | succ fuel =>
      simp only [findPrev, Blocks.get_live live, absent entry mem_cons_self, Bool.false_eq_true, if_false]
      exact ih later (Nat.le_of_succ_le_succ enough) fun entry mem => absent entry (mem_cons_of_mem _ mem)

def lastOf (prev : Option Nat) : List (Nat × α) → Option Nat
  | [] => prev
  | entry :: rest => lastOf (some entry.1) rest

theorem lastOf_concat (prev : Option Nat) (entries : List (Nat × α)) (entry : Nat × α) :
    lastOf prev (entries ++ [entry]) = some entry.1 := by
  induction entries generalizing prev with
  | nil => rfl
  | cons first rest ih => exact ih _

section

variable (chain : Chain heap.block head (before ++ (address, item) :: after))

include chain

theorem findPrev_some {test : α → Bool} {fuel : Nat} {prev : Option Nat} (enough : before.length < fuel)
    (absent : ∀ entry ∈ before, test entry.2 = false) (found : test item = true) :
    findPrev test heap fuel prev head = .ok (some (lastOf prev before)) := by
  induction before generalizing head fuel prev with
  | nil =>
    obtain ⟨rfl, next, live, -⟩ := chain
    cases fuel with
    | zero => simp at enough
    | succ fuel => simp only [findPrev, Blocks.get_live live, found, if_true, lastOf]
  | cons entry before ih =>
    obtain ⟨rfl, next, live, later⟩ := chain
    cases fuel with
    | zero => simp at enough
    | succ fuel =>
      simp only [findPrev, Blocks.get_live live, absent entry mem_cons_self, Bool.false_eq_true, if_false]
      exact ih later (Nat.lt_of_succ_lt_succ enough) fun entry mem => absent entry (mem_cons_of_mem _ mem)

theorem Chain.nextOf_lastOf : nextOf heap head (lastOf none before) = .ok (some address) := by
  rcases eq_nil_or_concat before with rfl | ⟨init, ⟨place, stored⟩, rfl⟩
  · exact congrArg Except.ok chain.1
  · rw [concat_eq_append, append_assoc] at chain
    obtain ⟨link, live, start, -⟩ := chain.behind
    rw [concat_eq_append, lastOf_concat]
    simp only [nextOf, Blocks.get_live live, start, bind, Except.bind, pure, Except.pure]

theorem Chain.setNext_lastOf
    (apart : (addresses (before ++ (address, item) :: after)).Nodup) (link : heap.block address = some ⟨next, item⟩) :
    ∃ final start, setNext heap head next (lastOf none before) = .ok (final, start) ∧
      Chain final.block start (before ++ after) ∧
      ∀ place, place ∉ addresses before → final.block place = heap.block place := by
  obtain ⟨_, live, tail⟩ := chain.behind
  rw [link] at live
  cases live
  rcases eq_nil_or_concat before with rfl | ⟨init, ⟨place, stored⟩, rfl⟩
  · exact ⟨heap, next, rfl, tail, fun _ _ => rfl⟩
  · rw [concat_eq_append] at apart ⊢
    rw [concat_eq_append, append_assoc] at chain
    simp only [addresses_append, addresses_cons, append_assoc, cons_append, nil_append,
      nodup_append, nodup_cons, mem_cons, not_or] at apart
    obtain ⟨start, found, -⟩ := chain.behind
    obtain ⟨final, put, blocks, -⟩ := Blocks.replace_live found (some ⟨next, stored⟩)
    refine ⟨final, head, ?_, ?_, ?_⟩
    · simp only [lastOf_concat, setNext, Blocks.get_live found, Blocks.put, put, bind, Except.bind, pure, Except.pure]
    · rw [blocks, append_assoc]
      refine chain.update (fun mem => apart.2.2 place mem place (.inl rfl) rfl) tail apart.2.1.1.2
    · intro other outside
      rw [blocks]
      refine Function.update_of_ne (fun same => outside ?_) ..
      simp [same]

end

theorem Chain.freeAll {fuel : Nat} (chain : Chain heap.block head entries) (apart : (addresses entries).Nodup)
    (enough : entries.length ≤ fuel) :
    ∃ final, freeAll fuel heap head = .ok (addresses entries, final) ∧ final.next = heap.next ∧
      final.block = fun place => if place ∈ addresses entries then none else heap.block place := by
  induction entries generalizing heap head fuel with
  | nil =>
    cases chain
    exact ⟨heap, by cases fuel <;> rfl, rfl, by simp⟩
  | cons entry rest ih =>
    obtain ⟨rfl, next, live, later⟩ := chain
    rw [addresses_cons, nodup_cons] at apart
    cases fuel with
    | zero => simp at enough
    | succ fuel =>
      obtain ⟨left, freed, blocks, sameNext⟩ := Blocks.replace_live live none
      have kept : Chain left.block next rest := by
        refine later.congr fun place mem => ?_
        rw [blocks, Function.update_of_ne (by rintro rfl; exact apart.1 mem)]
      obtain ⟨final, freedAll, finalNext, finalBlocks⟩ := ih kept apart.2 (Nat.le_of_succ_le_succ enough)
      refine ⟨final, ?_, finalNext.trans sameNext, ?_⟩
      · simp only [Linked.freeAll, Blocks.get_live live, Blocks.free, freed, freedAll, addresses_cons]
      · rw [finalBlocks, blocks]
        funext place
        by_cases here : place = entry.1
        · simp [here]
        · simp [here]

end Linked
