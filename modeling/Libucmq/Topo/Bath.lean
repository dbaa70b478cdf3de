import Libucmq.Library.Machine
import Libucmq.Topo.Make

/-! The addresses that `memory_bath.c` gives out, in a memory of bytes. -/

namespace Libucmq.Topo.Bath

open List Function Machine

def bathSize (pageSize : Nat) : Nat := pageSize * memStepPageCount

structure MemList where
  typeSize : Nat
  peakCount : Nat
  stepCount : Nat
  ptrSlot : List (Option Nat)
  memory : Nat → UInt8

def membtInit (typeSize pageSize peakCount : Nat) : MemList where
  typeSize := typeSize
  peakCount := peakCount
  stepCount := bathSize pageSize / typeSize
  ptrSlot := List.replicate (getNeedCount peakCount (bathSize pageSize / typeSize)) none
  memory := fun _ => 0

def calloc (pageSize base : Nat) (memory : Nat → UInt8) : Nat → UInt8 :=
  fun address => if base ≤ address ∧ address < base + bathSize pageSize then 0 else memory address

def membtGain (pageSize base : Nat) (list : MemList) (index : Nat) : Except Fault (MemList × Nat) :=
  if index < list.peakCount then
    let divisor := (index + 1) / list.stepCount
    let remainder := (index + 1) % list.stepCount
    let offset := divisor + (if 1 ≤ remainder then 1 else 0) - 1
    let place := list.typeSize * ((if remainder = 0 then list.stepCount else remainder) - 1)
    match list.ptrSlot[offset]? with
    | none => .error .outside
    | some (some kept) => .ok (list, kept + place)
    | some none =>
      .ok ({ list with
        ptrSlot := list.ptrSlot.set offset (some base)
        memory := calloc pageSize base list.memory }, base + place)
  else .error .assertion

def membtGood (list : MemList) (index : Nat) : Except Fault Bool :=
  if list.peakCount ≤ index then .ok false
  else
    match list.ptrSlot[getNeedCount (index + 1) list.stepCount - 1]? with
    | none => .error .outside
    | some slot => .ok slot.isSome

def MemList.block (list : MemList) (index : Nat) : Option Nat := (list.ptrSlot[index / list.stepCount]?).join

def MemList.address (list : MemList) (index : Nat) : Option Nat :=
  (list.block index).map (· + list.typeSize * (index % list.stepCount))

def MemList.allocate (pageSize base index : Nat) (list : MemList) : MemList :=
  { list with
    ptrSlot := list.ptrSlot.set (index / list.stepCount) (some base)
    memory := calloc pageSize base list.memory }

inductive Op
  | gain (index base : Nat)
  | write (index place : Nat) (byte : UInt8)

def step (pageSize : Nat) (list : MemList) : Op → Except Fault (MemList × Option Nat)
  | .gain index base => (membtGain pageSize base list index).map fun result => (result.1, some result.2)
  | .write index place byte =>
    match list.address index with
    | none => .error .null
    | some address => .ok ({ list with memory := update list.memory (address + place) byte }, none)

def Apart (size left right : Nat) : Prop := left + size ≤ right ∨ right + size ≤ left

/-- Blocks are new, and a member is written inside of itself. -/
def Allowed (pageSize : Nat) (list : MemList) : Op → Prop
  | .gain index base =>
    index < list.peakCount ∧ ∀ other, some other ∈ list.ptrSlot → Apart (bathSize pageSize) base other
  | .write index place _ => place < list.typeSize ∧ list.address index ≠ none

def Unwritten (history : List (Op × Option Nat)) (index : Nat) : Prop :=
  ∀ place byte answer, (Op.write index place byte, answer) ∉ history

structure Sound (pageSize typeSize peakCount : Nat) (history : List (Op × Option Nat)) (list : MemList) : Prop where
  typeSize_eq : list.typeSize = typeSize
  peakCount_eq : list.peakCount = peakCount
  stepCount_eq : list.stepCount = bathSize pageSize / typeSize
  slots : list.ptrSlot.length = getNeedCount peakCount list.stepCount
  apart : ∀ left right first second : Nat, list.ptrSlot[left]? = some (some first) →
    list.ptrSlot[right]? = some (some second) → left ≠ right → Apart (bathSize pageSize) first second
  given : ∀ index base answer, (Op.gain index base, answer) ∈ history →
    answer = list.address index ∧ answer.isSome = true
  gained : ∀ slot first : Nat, list.ptrSlot[slot]? = some (some first) →
    ∃ index base answer, (Op.gain index base, answer) ∈ history ∧ index / list.stepCount = slot
  zero : ∀ index address, list.address index = some address → Unwritten history index →
    ∀ place < typeSize, list.memory (address + place) = 0

/-- The same list in the model of the topology, with a place for each address. -/
structure Refines (list : MemList) (places : Topo.MemList) : Prop where
  peakCount : places.peakCount = list.peakCount
  stepCount : places.stepCount = list.stepCount
  slot : ∀ index : Nat, places.slot index = list.ptrSlot[index]?.join.isSome

theorem refines_init (typeSize pageSize peakCount : Nat) (fits : 0 < pageSize * memStepPageCount / typeSize) :
    Refines (membtInit typeSize pageSize peakCount) (Topo.membtInit typeSize pageSize peakCount fits) := by
  refine ⟨rfl, rfl, fun index => ?_⟩
  simp only [membtInit, Topo.membtInit, List.getElem?_replicate]
  split <;> rfl

variable {pageSize typeSize peakCount : Nat} {history : List (Op × Option Nat)} {list next : MemList}

theorem stepCount_pos (positive : 0 < typeSize) (small : typeSize ≤ bathSize pageSize) :
    0 < bathSize pageSize / typeSize := Nat.div_pos small positive

theorem block_some {index address : Nat} (found : list.address index = some address) :
    ∃ base, list.ptrSlot[index / list.stepCount]? = some (some base) ∧
      address = base + list.typeSize * (index % list.stepCount) := by
  simp only [MemList.address, MemList.block, Option.map_eq_some_iff, Option.join_eq_some_iff] at found
  obtain ⟨base, here, rfl⟩ := found
  exact ⟨base, here, rfl⟩

theorem place_inside {item : Nat} (inside : item < bathSize pageSize / typeSize) :
    typeSize * item + typeSize ≤ bathSize pageSize := by
  have whole : typeSize * (item + 1) ≤ typeSize * (bathSize pageSize / typeSize) := Nat.mul_le_mul_left _ inside
  have := Nat.mul_div_le (bathSize pageSize) typeSize
  rw [Nat.mul_succ] at whole
  omega

namespace Sound

section

variable (sound : Sound pageSize typeSize peakCount history list) (positive : 0 < typeSize)
  (small : typeSize ≤ bathSize pageSize)

include sound positive small

theorem inside {index address : Nat} (found : list.address index = some address) :
    ∃ base, list.ptrSlot[index / list.stepCount]? = some (some base) ∧
      base ≤ address ∧ address + typeSize ≤ base + bathSize pageSize := by
  obtain ⟨base, here, rfl⟩ := block_some found
  have item : index % list.stepCount < bathSize pageSize / typeSize := by
    rw [sound.stepCount_eq]
    exact Nat.mod_lt _ (stepCount_pos positive small)
  have room := place_inside item
  rw [sound.typeSize_eq]
  exact ⟨base, here, by omega, by omega⟩

theorem disjoint {left right first second : Nat} (other : left ≠ right) (leftAt : list.address left = some first)
    (rightAt : list.address right = some second) : Apart typeSize first second := by
  by_cases same : left / list.stepCount = right / list.stepCount
  · obtain ⟨base, here, rfl⟩ := block_some leftAt
    obtain ⟨base', there, rfl⟩ := block_some rightAt
    rw [same, there] at here
    obtain rfl : base' = base := by simpa using here
    have items : left % list.stepCount ≠ right % list.stepCount := by
      intro equal
      rw [← Nat.div_add_mod left list.stepCount, ← Nat.div_add_mod right list.stepCount, same, equal] at other
      exact other rfl
    rw [sound.typeSize_eq, Apart]
    rcases Nat.lt_or_gt_of_ne items with before | behind
    · have := Nat.mul_le_mul_left typeSize (Nat.succ_le_of_lt before)
      rw [Nat.mul_succ] at this
      omega
    · have := Nat.mul_le_mul_left typeSize (Nat.succ_le_of_lt behind)
      rw [Nat.mul_succ] at this
      omega
  · obtain ⟨base, here, low, high⟩ := sound.inside positive small leftAt
    obtain ⟨base', there, low', high'⟩ := sound.inside positive small rightAt
    have blocks := sound.apart _ _ _ _ here there same
    simp only [Apart] at blocks ⊢
    omega

theorem slot_lt {index : Nat} (bound : index < peakCount) : index / list.stepCount < list.ptrSlot.length := by
  have steps := stepCount_pos positive small
  rw [← sound.stepCount_eq] at steps
  have last := getNeedCount_succ steps (peakCount - 1)
  rw [show peakCount - 1 + 1 = peakCount by omega] at last
  have order : index / list.stepCount ≤ (peakCount - 1) / list.stepCount := Nat.div_le_div_right (by omega)
  have nonempty : 0 < getNeedCount peakCount list.stepCount := by
    by_cases short : peakCount < list.stepCount
    · simp [getNeedCount, Nat.mod_eq_of_lt short, show 1 ≤ peakCount by omega]
    · exact Nat.add_pos_left (Nat.div_pos (Nat.le_of_not_lt short) steps) _
  rw [sound.slots]
  omega

theorem membtGain_eq {index : Nat} (bound : index < peakCount) (base : Nat) :
    membtGain pageSize base list index = .ok (match list.block index with
      | some kept => (list, kept + typeSize * (index % list.stepCount))
      | none => (list.allocate pageSize base index, base + typeSize * (index % list.stepCount))) := by
  have steps := stepCount_pos positive small
  rw [← sound.stepCount_eq] at steps
  have offset : (index + 1) / list.stepCount + (if 1 ≤ (index + 1) % list.stepCount then 1 else 0) - 1 =
      index / list.stepCount := getNeedCount_succ steps index
  have item : (if (index + 1) % list.stepCount = 0 then list.stepCount else (index + 1) % list.stepCount) - 1 =
      index % list.stepCount := by
    obtain ⟨_, remainder⟩ | ⟨_, remainder, last⟩ := succ_div_mod steps index
    · simp [remainder]
    · simp [remainder]
      omega
  obtain ⟨slot, here⟩ : ∃ slot, list.ptrSlot[index / list.stepCount]? = some slot :=
    ⟨_, List.getElem?_eq_getElem (sound.slot_lt positive small bound)⟩
  rw [membtGain, if_pos (sound.peakCount_eq ▸ bound)]
  simp only [offset, item, here, MemList.block, Option.join_some]
  have size := sound.typeSize_eq
  subst size
  cases slot <;> rfl

omit positive small in
theorem kept {index kept : Nat} (base : Nat) (here : list.block index = some kept) : Sound pageSize typeSize peakCount
      (history ++ [(.gain index base, some (kept + typeSize * (index % list.stepCount)))]) list := by
  have address : list.address index = some (kept + typeSize * (index % list.stepCount)) := by
    rw [MemList.address, here, sound.typeSize_eq]
    rfl
  refine { sound with given := ?_, gained := ?_, zero := ?_ }
  · intro other base' answer member
    rcases mem_append.mp member with before | last
    · exact sound.given other base' answer before
    · obtain ⟨⟨rfl, rfl⟩, rfl⟩ : (other = index ∧ base' = base) ∧ answer = _ := by simpa using last
      exact ⟨address.symm, rfl⟩
  · intro slot first found
    obtain ⟨other, base', answer, member, place⟩ := sound.gained slot first found
    exact ⟨other, base', answer, mem_append_left _ member, place⟩
  · intro other place found clear
    exact sound.zero other place found fun position byte answer member =>
      clear position byte answer (mem_append_left _ member)

theorem allocated {index base : Nat} (bound : index < peakCount) (fresh : list.block index = none)
    (clear : ∀ other, some other ∈ list.ptrSlot → Apart (bathSize pageSize) base other) :
    Sound pageSize typeSize peakCount
      (history ++ [(.gain index base, some (base + typeSize * (index % list.stepCount)))])
      (list.allocate pageSize base index) := by
  have inside := sound.slot_lt positive small bound
  have slot (place : Nat) : (list.allocate pageSize base index).ptrSlot[place]? =
      if index / list.stepCount = place then some (some base) else list.ptrSlot[place]? := by
    simp only [MemList.allocate, List.getElem?_set, inside, if_true]
  have address (other : Nat) : (list.allocate pageSize base index).address other =
      if index / list.stepCount = other / list.stepCount then
        some (base + typeSize * (other % list.stepCount)) else list.address other := by
    simp only [MemList.address, MemList.block]
    rw [show (list.allocate pageSize base index).stepCount = list.stepCount from rfl, slot,
      show (list.allocate pageSize base index).typeSize = list.typeSize from rfl]
    split
    · simp [sound.typeSize_eq]
    · rfl
  refine {
    typeSize_eq := sound.typeSize_eq
    peakCount_eq := sound.peakCount_eq
    stepCount_eq := sound.stepCount_eq
    slots := by simpa [MemList.allocate] using sound.slots
    apart := ?_
    given := ?_
    gained := ?_
    zero := ?_ }
  · intro left right first second leftAt rightAt other
    rw [slot] at leftAt rightAt
    split at leftAt <;> split at rightAt
    · next same same' => exact absurd (same.symm.trans same') other
    · obtain rfl : base = first := by simpa using leftAt
      exact clear second (mem_of_getElem? rightAt)
    · obtain rfl : base = second := by simpa using rightAt
      exact Or.symm (clear first (mem_of_getElem? leftAt))
    · exact sound.apart left right first second leftAt rightAt other
  · intro other base' answer member
    rcases mem_append.mp member with before | last
    · obtain ⟨rfl, nonempty⟩ := sound.given other base' answer before
      refine ⟨?_, nonempty⟩
      rw [address, if_neg]
      intro same
      rw [MemList.address, show list.block other = list.block index by rw [MemList.block, MemList.block, same], fresh]
        at nonempty
      cases nonempty
    · obtain ⟨⟨rfl, rfl⟩, rfl⟩ : (other = index ∧ base' = base) ∧ answer = _ := by simpa using last
      exact ⟨by rw [address, if_pos rfl], rfl⟩
  · intro place first found
    rw [slot] at found
    split at found
    · next same => exact ⟨index, base, _, mem_append_right _ mem_cons_self, same⟩
    · obtain ⟨other, base', answer, member, position⟩ := sound.gained place first found
      exact ⟨other, base', answer, mem_append_left _ member, position⟩
  · intro other position found unwritten place bound
    rw [address] at found
    show (if _ then (0 : UInt8) else _) = 0
    split at found
    · next same =>
        obtain rfl := Option.some.inj found
        have item : other % list.stepCount < bathSize pageSize / typeSize := by
          rw [sound.stepCount_eq]
          exact Nat.mod_lt _ (stepCount_pos positive small)
        have room := place_inside item
        exact if_pos (by omega)
    · obtain ⟨block, here, low, high⟩ := sound.inside positive small found
      have blocks := clear block (mem_of_getElem? here)
      rw [if_neg (by simp only [Apart] at blocks; omega)]
      exact sound.zero other position found (fun place byte answer member =>
        unwritten place byte answer (mem_append_left _ member)) place bound

theorem written {index place address : Nat} (bound : place < typeSize) (found : list.address index = some address)
    (byte : UInt8) : Sound pageSize typeSize peakCount (history ++ [(.write index place byte, none)])
      { list with memory := update list.memory (address + place) byte } := by
  have earlier : ∀ {other base answer}, (Op.gain other base, answer) ∈ history ++ [(.write index place byte, none)] ↔
      (Op.gain other base, answer) ∈ history := by simp
  refine {
    typeSize_eq := sound.typeSize_eq
    peakCount_eq := sound.peakCount_eq
    stepCount_eq := sound.stepCount_eq
    slots := sound.slots
    apart := sound.apart
    given := fun other base answer member => sound.given other base answer (earlier.mp member)
    gained := fun slot first here => by simpa only [earlier] using sound.gained slot first here
    zero := ?_ }
  intro other position found' unwritten place' bound'
  have different : other ≠ index := by
    rintro rfl
    exact unwritten place byte none (mem_append_right _ mem_cons_self)
  have apart := sound.disjoint positive small different found' found
  have away : position + place' ≠ address + place := by
    simp only [Apart] at apart
    omega
  simp only [update_of_ne away]
  exact sound.zero other position found' (fun place byte answer member =>
    unwritten place byte answer (mem_append_left _ member)) place' bound'

theorem step (op : Op) (allowed : Allowed pageSize list op) :
    ∃ next answer, Bath.step pageSize list op = .ok (next, answer) ∧
      Sound pageSize typeSize peakCount (history ++ [(op, answer)]) next := by
  cases op with
  | gain index base =>
    have bound : index < peakCount := sound.peakCount_eq ▸ allowed.1
    rw [Bath.step, sound.membtGain_eq positive small bound]
    cases here : list.block index with
    | some block => exact ⟨_, _, rfl, sound.kept base here⟩
    | none => exact ⟨_, _, rfl, sound.allocated positive small bound here allowed.2⟩
  | write index place byte =>
    obtain ⟨address, found⟩ := Option.ne_none_iff_exists'.mp allowed.2
    rw [Bath.step, found]
    exact ⟨_, _, rfl, sound.written positive small (sound.typeSize_eq ▸ allowed.1) found byte⟩

theorem good_iff {index : Nat} (bound : index < peakCount) : ∃ good, membtGood list index = .ok good ∧
      (good = true ↔ ∃ other base answer, (Op.gain other base, answer) ∈ history ∧
        other / list.stepCount = index / list.stepCount) := by
  have steps := stepCount_pos positive small
  rw [← sound.stepCount_eq] at steps
  have inside := sound.slot_lt positive small bound
  rw [membtGood, if_neg (by rw [sound.peakCount_eq]; omega), getNeedCount_succ steps,
    List.getElem?_eq_getElem inside]
  refine ⟨_, rfl, ?_⟩
  constructor
  · intro nonempty
    obtain ⟨base, here⟩ := Option.isSome_iff_exists.mp nonempty
    exact sound.gained _ base (by rw [List.getElem?_eq_getElem inside, here])
  · rintro ⟨other, base, answer, member, same⟩
    obtain ⟨rfl, nonempty⟩ := sound.given other base answer member
    obtain ⟨address, found⟩ := Option.isSome_iff_exists.mp nonempty
    obtain ⟨block, here, -⟩ := block_some found
    rw [same, List.getElem?_eq_getElem inside] at here
    rw [Option.some.inj here]
    rfl

/-- Where the topology has places, this list has addresses. -/
theorem refines_gain {places : Topo.MemList} (refines : Refines list places) {index : Nat} (bound : index < peakCount)
    (base : Nat) : ∃ next address after, membtGain pageSize base list index = .ok (next, address) ∧
      Topo.membtGain places index = .ok (places.place index, after) ∧
      Refines next after ∧
      next.ptrSlot[(places.place index).bath]? = some (some (address - typeSize * (places.place index).item)) := by
  have steps := sound.slot_lt positive small bound
  have slot := refines.slot (index / list.stepCount)
  have gained := @Topo.membtGain_eq places index (by rw [refines.peakCount, sound.peakCount_eq]; exact bound)
  rw [sound.membtGain_eq positive small bound base]
  simp only [MemList.block, Topo.MemList.place, refines.stepCount] at slot gained ⊢
  cases here : list.ptrSlot[index / list.stepCount]?.join with
  | some kept =>
      refine ⟨_, _, _, rfl, gained, ⟨refines.peakCount, refines.stepCount, fun other => ?_⟩, ?_⟩
      · rw [here] at slot
        simp only [Topo.MemList.allocate, refines.stepCount, update_apply]
        split
        · next same => rw [same, here]; rfl
        · exact refines.slot other
      · rw [Nat.add_sub_cancel, Option.join_eq_some_iff.mp here]
  | none =>
      refine ⟨_, _, _, rfl, gained, ⟨refines.peakCount, refines.stepCount, fun other => ?_⟩, ?_⟩
      · simp only [Topo.MemList.allocate, refines.stepCount, update_apply, MemList.allocate]
        split
        · next same => simp [same, steps]
        · next different => simp [Ne.symm different, refines.slot]
      · simp [MemList.allocate, steps]

theorem refines_good {places : Topo.MemList} (refines : Refines list places) {index : Nat} (bound : index < peakCount) :
    membtGood list index = .ok (Topo.membtGood places index) := by
  have steps := stepCount_pos positive small
  rw [← sound.stepCount_eq] at steps
  have inside := sound.slot_lt positive small bound
  have slot := refines.slot (index / list.stepCount)
  rw [List.getElem?_eq_getElem inside, Option.join_some] at slot
  rw [membtGood, Topo.membtGood, if_neg (by rw [sound.peakCount_eq]; omega),
    if_neg (by rw [refines.peakCount, sound.peakCount_eq]; omega), refines.stepCount, getNeedCount_succ steps,
    List.getElem?_eq_getElem inside, slot]

end

end Sound

theorem sound_init (pageSize typeSize peakCount : Nat) :
    Sound pageSize typeSize peakCount [] (membtInit typeSize pageSize peakCount) where
  typeSize_eq := rfl
  peakCount_eq := rfl
  stepCount_eq := rfl
  slots := length_replicate
  apart := by simp [membtInit, List.getElem?_replicate]
  given := by simp
  gained := by simp [membtInit, List.getElem?_replicate]
  zero := fun _ _ _ _ _ _ => rfl

/-- Members keep their addresses, lie apart and start as zero. -/
theorem membtGain_addresses {pageSize typeSize peakCount : Nat} (positive : 0 < typeSize)
    (small : typeSize ≤ bathSize pageSize) {ops : List Op}
    (guarded : Guarded (step pageSize) (Allowed pageSize) (membtInit typeSize pageSize peakCount) ops) :
    ∃ final answers, run (step pageSize) (membtInit typeSize pageSize peakCount) ops = .ok (final, answers) ∧
      (∀ index base answer, (Op.gain index base, answer) ∈ ops.zip answers →
        answer = final.address index ∧ answer.isSome = true) ∧
      (∀ index address, final.address index = some address → ∃ base, some base ∈ final.ptrSlot ∧
        base ≤ address ∧ address + typeSize ≤ base + bathSize pageSize) ∧
      (∀ left right first second, left ≠ right → final.address left = some first →
        final.address right = some second → Apart typeSize first second) ∧
      (∀ index address, final.address index = some address → (∀ place byte, Op.write index place byte ∉ ops) →
        ∀ place < typeSize, final.memory (address + place) = 0) ∧
      ∀ index < peakCount, ∃ good, membtGood final index = .ok good ∧
        (good = true ↔ ∃ other base answer, (Op.gain other base, answer) ∈ ops.zip answers ∧
          other / final.stepCount = index / final.stepCount) := by
  have keeps := fun history list op (sound : Sound pageSize typeSize peakCount history list)
    (allowed : Allowed pageSize list op) => Or.inl (b := ∃ stop, step pageSize list op = .error stop ∧ False)
      (sound.step positive small op allowed)
  rcases run_history keeps (sound_init pageSize typeSize peakCount)
    guarded with ⟨final, answers, runEq, sound⟩ | ⟨stop, -, impossible⟩
  · rw [nil_append] at sound
    refine ⟨final, answers, runEq, sound.given, ?_, ?_, ?_, fun index bound => sound.good_iff positive small bound⟩
    · intro index address found
      obtain ⟨base, here, low, high⟩ := sound.inside positive small found
      exact ⟨base, mem_of_getElem? here, low, high⟩
    · exact fun left right first second other => sound.disjoint positive small other
    · intro index address found unwritten
      exact sound.zero index address found fun place byte answer member =>
        unwritten place byte (of_mem_zip member).1
  · exact impossible.elim

/-- Two blocks, the first gained twice and written to. -/
theorem membtGain_addresses_one : ∃ final,
    run (step 1) (membtInit 16 1 3) [.gain 0 100, .write 0 3 7, .gain 2 1000, .gain 0 5000] =
        .ok (final, [some 100, none, some 1000, some 100]) ∧
      final.address 0 = some 100 ∧
      final.address 2 = some 1000 ∧
      (∃ base, some base ∈ final.ptrSlot ∧ base ≤ 1000 ∧ 1000 + 16 ≤ base + bathSize 1) ∧
      Apart 16 100 1000 ∧
      (∀ place < 16, final.memory (1000 + place) = 0) ∧
      membtGood final 1 = .ok true := by
  have guarded : Guarded (step 1) (Allowed 1) (membtInit 16 1 3)
      [.gain 0 100, .write 0 3 7, .gain 2 1000, .gain 0 5000] := by
    refine (guarded_cons_iff rfl).mpr ⟨⟨by decide, ?_⟩, (guarded_cons_iff rfl).mpr ⟨⟨by decide, by decide⟩,
      (guarded_cons_iff rfl).mpr ⟨⟨by decide, ?_⟩, (guarded_cons_iff rfl).mpr ⟨⟨by decide, ?_⟩, trivial⟩⟩⟩⟩
    · simp [membtInit]
    · intro other member
      obtain rfl : other = 100 := by simpa [membtInit, getNeedCount, bathSize, memStepPageCount] using member
      exact .inr (by decide)
    · intro other member
      obtain rfl | rfl : other = 100 ∨ other = 1000 := by
        simpa [membtInit, getNeedCount, bathSize, memStepPageCount] using member
      · exact .inr (by decide)
      · exact .inr (by decide)
  obtain ⟨final, answers, runEq, given, inside, apart, zero, good⟩ :=
    membtGain_addresses (by decide) (by decide) guarded
  have known : (run (step 1) (membtInit 16 1 3) [.gain 0 100, .write 0 3 7, .gain 2 1000, .gain 0 5000]).map
      (fun result => (result.1.stepCount, result.2)) = .ok (2, [some 100, none, some 1000, some 100]) := by decide
  rw [runEq] at known
  obtain ⟨steps, rfl⟩ := Prod.mk.inj (Except.ok.inj known)
  have first := (given 0 100 (some 100) (by simp)).1.symm
  have second := (given 2 1000 (some 1000) (by simp)).1.symm
  obtain ⟨there, goodEq, gained⟩ := good 1 (by decide)
  refine ⟨final, runEq, first, second, inside 2 1000 second, apart 0 2 100 1000 (by decide) first second,
    zero 2 1000 second (by simp), goodEq.trans (congrArg Except.ok (gained.mpr ⟨0, 100, some 100, by simp, ?_⟩))⟩
  rw [show final.stepCount = 2 from steps]

end Libucmq.Topo.Bath
