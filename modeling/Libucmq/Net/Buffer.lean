import Libucmq.Library.CString
import Libucmq.Library.Heap
import Libucmq.Library.Machine
import Libucmq.Net.Cache

/-! The memory behind a connection's buffer (`net_cache.c`). -/

namespace Libucmq.Net.Buffer

open List

open CString (intLimit)

open Heap (Owns padded)

inductive BufAddr
  | null
  | base
  | block (address : Nat)
deriving DecidableEq, Repr

inductive CacheFault
  | assertion
  | overflow
  | memory (fault : Heap.Fault)
deriving DecidableEq, Repr

structure CacheInfo where
  maxSize : Nat
  getSize : Nat
  outSize : Nat
  bufAddr : BufAddr
  base : List UInt8
deriving DecidableEq

structure CacheState where
  heap : Heap.Blocks (List UInt8)
  info : CacheInfo

def zeroBase : List UInt8 := List.replicate maxDefLen 0

def cacheInit (heap : Heap.Blocks (List UInt8)) : CacheState :=
  { heap, info := { maxSize := maxDefLen, getSize := 0, outSize := 0, bufAddr := .base, base := zeroBase } }

def CacheState.buffer (state : CacheState) : Except Heap.Fault (List UInt8) :=
  match state.info.bufAddr with
  | .null => .error .dead
  | .base => .ok state.info.base
  | .block address => state.heap.get address

def CacheState.setBuffer (state : CacheState) (bytes : List UInt8) : Except Heap.Fault CacheState :=
  match state.info.bufAddr with
  | .null => .error .dead
  | .base => .ok { state with info := { state.info with base := bytes } }
  | .block address => do
    let heap ← state.heap.put address bytes
    return { state with heap }

def moveBuffer (state : CacheState) (maxSize : Nat) : Except Heap.Fault CacheState := do
  let (address, heap) := state.heap.malloc (List.replicate maxSize 0)
  let old ← state.buffer
  let kept ← Heap.fetch old state.info.getSize
  let bytes ← Heap.patch (List.replicate maxSize 0) 0 kept
  let heap ← heap.put address bytes
  match state.info.bufAddr with
  | .block oldAddress =>
    let heap ← heap.free oldAddress
    return { heap, info := { state.info with maxSize, bufAddr := .block address } }
  | _ => return { heap, info := { state.info with maxSize, bufAddr := .block address, base := zeroBase } }

def copyIn (state : CacheState) (data : List UInt8) : Except Heap.Fault CacheState := do
  let bytes ← state.buffer
  let changed ← Heap.patch bytes state.info.getSize data
  let next ← state.setBuffer changed
  return { next with info := { next.info with getSize := state.info.getSize + data.length } }

def added : Except Heap.Fault CacheState → Except CacheFault (CacheState × Control)
  | .error fault => .error (.memory fault)
  | .ok next => .ok (next, .doneOk)

def needed (allSize : Nat) : Nat := getNeedCount allSize maxDefLen * maxDefLen

def cacheAdd (granted : Bool) (state : CacheState) (data : List UInt8) :
    Except CacheFault (CacheState × Control) :=
  let allSize := state.info.getSize + data.length
  if state.info.bufAddr = .null ∨ data = [] then .error .assertion
  else if intLimit ≤ allSize then .error .overflow
  else if state.info.maxSize < allSize then
    if intLimit ≤ needed allSize then .error .overflow
    else if granted then
      added (do
        let moved ← moveBuffer state (needed allSize)
        copyIn moved data)
    else .ok ({ state with info := { state.info with maxSize := needed allSize, bufAddr := .null } }, .mallocFailed)
  else added (copyIn state data)

def cacheFree (state : CacheState) : Except Heap.Fault CacheState := do
  let heap ← match state.info.bufAddr with
    | .block address => state.heap.free address
    | _ => .ok state.heap
  return { heap, info := { state.info with
    maxSize := maxDefLen, getSize := 0, outSize := 0, bufAddr := .base, base := zeroBase } }

def netRecv (granted : Bool) (state : CacheState) (data : List UInt8) : Except CacheFault (CacheState × Control) :=
  if maxReqSize < state.info.getSize + data.length then .ok (state, .dataTooLarge) else cacheAdd granted state data

def capacity (size : Nat) : Nat := if size ≤ maxDefLen then maxDefLen else needed size

def roomLimit : Nat := intLimit - maxDefLen

theorem needed_eq (size : Nat) : needed size = (size + 16383) / 16384 * 16384 := by
  rw [needed, getNeedCount, maxDefLen]
  congr 1
  by_cases partly : size % 16384 ≥ 1
  · rw [if_pos partly]
    omega
  · rw [if_neg partly]
    omega

theorem needed_bounds (size : Nat) : size ≤ needed size ∧ needed size < size + maxDefLen ∧ maxDefLen ∣ needed size := by
  refine ⟨?_, ?_, ⟨_, Nat.mul_comm _ _⟩⟩
  · rw [needed_eq]
    omega
  · rw [needed_eq, maxDefLen]
    omega

variable {size : Nat}

theorem capacity_of_small (small : size ≤ maxDefLen) : capacity size = maxDefLen := if_pos small

theorem capacity_of_large (large : maxDefLen < size) : capacity size = needed size :=
  if_neg (Nat.not_le.mpr large)

theorem capacity_dvd (size : Nat) : maxDefLen ∣ capacity size := by
  rcases Nat.lt_or_ge maxDefLen size with large | small
  · rw [capacity_of_large large]
    exact (needed_bounds size).2.2
  · exact ⟨1, by rw [capacity_of_small small, Nat.mul_one]⟩

theorem le_capacity (size : Nat) : size ≤ capacity size := by
  rcases Nat.lt_or_ge maxDefLen size with large | small
  · rw [capacity_of_large large]
    exact (needed_bounds size).1
  · rwa [capacity_of_small small]

theorem maxDefLen_le_capacity (size : Nat) : maxDefLen ≤ capacity size := by
  rcases Nat.lt_or_ge maxDefLen size with large | small
  · exact Nat.le_trans (Nat.le_of_lt large) (le_capacity size)
  · exact Nat.le_of_eq (capacity_of_small small).symm

theorem capacity_add_large {size more : Nat} (large : capacity size < size + more) :
    capacity (size + more) = needed (size + more) :=
  capacity_of_large (Nat.lt_of_le_of_lt (maxDefLen_le_capacity size) large)

theorem capacity_add_small {size more : Nat} (small : size + more ≤ capacity size) :
    capacity (size + more) = capacity size := by
  rcases Nat.lt_or_ge maxDefLen (size + more) with large | short
  · rcases Nat.lt_or_ge maxDefLen size with before | early
    · rw [capacity_of_large before, needed_eq] at *
      rw [capacity_of_large large, needed_eq]
      omega
    · rw [capacity_of_small early] at small
      omega
  · rw [capacity_of_small short, capacity_of_small (by omega)]

theorem needed_overflow_iff (inside : size < intLimit) : intLimit ≤ needed size ↔ roomLimit < size := by
  rw [needed_eq]
  simp only [maxDefLen, intLimit, roomLimit] at inside ⊢
  omega

theorem capacity_le (room : size ≤ roomLimit) : capacity size ≤ roomLimit := by
  rcases Nat.lt_or_ge maxDefLen size with large | small
  · rw [capacity_of_large large, needed_eq]
    simp only [maxDefLen, intLimit, roomLimit] at room ⊢
    omega
  · rw [capacity_of_small small]
    decide

inductive Placed (others : Nat → Option (List UInt8)) (state : CacheState) (bytes : List UInt8) : Prop
  | base (here : state.info.bufAddr = .base) (content : state.info.base = bytes) (rest : state.heap.block = others)
  | block (address : Nat) (here : state.info.bufAddr = .block address) (owns : Owns state.heap others address bytes)

variable {others : Nat → Option (List UInt8)} {state : CacheState} {bytes data more : List UInt8}

section

variable (placed : Placed others state bytes)

include placed

theorem Placed.ne_null : state.info.bufAddr ≠ .null := by
  cases placed with
  | base here => simp [here]
  | block address here => simp [here]

theorem Placed.buffer : state.buffer = .ok bytes := by
  cases placed with
  | base here content => simp only [CacheState.buffer, here, content]
  | block address here owns => simp only [CacheState.buffer, here, owns.get]

theorem Placed.setBuffer (changed : List UInt8) :
    ∃ next, state.setBuffer changed = .ok next ∧ Placed others next changed ∧
      next.info = { state.info with base := next.info.base } := by
  cases placed with
  | base here content rest =>
    refine ⟨{ state with info := { state.info with base := changed } }, ?_, .base here rfl rest, rfl⟩
    simp only [CacheState.setBuffer, here]
  | block address here owns =>
    obtain ⟨heap, put, owned⟩ := owns.put changed
    refine ⟨{ state with heap }, ?_, .block address here owned, rfl⟩
    simp only [CacheState.setBuffer, here, put]
    rfl

end

theorem Placed.copyIn (placed : Placed others state (padded 0 size data))
    (stored : state.info.getSize = data.length) (fits : data.length + more.length ≤ size) :
    ∃ next, copyIn state more = .ok next ∧ Placed others next (padded 0 size (data ++ more)) ∧
      next.info = { state.info with base := next.info.base, getSize := (data ++ more).length } := by
  obtain ⟨next, set, placedNext, info⟩ := placed.setBuffer (padded 0 size (data ++ more))
  refine ⟨{ next with info := { next.info with getSize := state.info.getSize + more.length } }, ?_, ?_, ?_⟩
  · simp only [Buffer.copyIn, placed.buffer, stored, Heap.patch_padded fits, set, bind, Except.bind, pure, Except.pure]
  · cases placedNext with
    | base here content rest => exact .base here content rest
    | block address here owns => exact .block address here owns
  · rw [info, stored, length_append]

theorem Placed.moveBuffer {size maxSize : Nat} (placed : Placed others state (padded 0 size data))
    (stored : state.info.getSize = data.length) (fits : data.length ≤ maxSize) :
    ∃ next address, moveBuffer state maxSize = .ok next ∧ next.info.bufAddr = .block address ∧
      Owns next.heap others address (padded 0 maxSize data) ∧
      next.info = { state.info with base := next.info.base, maxSize, bufAddr := .block address } := by
  have copied := @Heap.patch_blank UInt8 0 maxSize data fits
  obtain ⟨filled, put, owned⟩ := (Heap.owns_malloc state.heap (List.replicate maxSize (0 : UInt8))).put
    (padded 0 maxSize data)
  have kept : Heap.fetch (padded 0 size data) state.info.getSize = .ok data := stored ▸ Heap.fetch_padded
  cases placed with
  | base here content rest =>
    refine ⟨{ heap := filled, info := { state.info with
      maxSize, bufAddr := .block (state.heap.malloc (List.replicate maxSize 0)).1, base := zeroBase } }, _, ?_, rfl,
      rest ▸ owned, rfl⟩
    simp only [Buffer.moveBuffer, CacheState.buffer, here, content, kept, copied, put, bind, Except.bind]
    rfl
  | block address here owns =>
    obtain ⟨next, freed, moved⟩ := owned.exchange owns
    refine ⟨{ heap := next, info := { state.info with
      maxSize, bufAddr := .block (state.heap.malloc (List.replicate maxSize 0)).1 } }, _, ?_, rfl, moved, rfl⟩
    simp only [Buffer.moveBuffer, CacheState.buffer, here, owns.get, kept, copied, put, freed, bind, Except.bind]
    rfl

theorem Placed.cacheFree (placed : Placed others state bytes) :
    ∃ freed, cacheFree state = .ok freed ∧ freed.info = (cacheInit freed.heap).info ∧ freed.heap.block = others := by
  cases placed with
  | base here content rest =>
    refine ⟨cacheInit state.heap, ?_, rfl, rest⟩
    simp only [Buffer.cacheFree, here, bind, Except.bind]
    rfl
  | block address here owns =>
    obtain ⟨next, freed, blocks⟩ := owns.free
    refine ⟨cacheInit next, ?_, rfl, blocks⟩
    simp only [Buffer.cacheFree, here, freed, bind, Except.bind]
    rfl

structure Holds (others : Nat → Option (List UInt8)) (state : CacheState) (data : List UInt8) : Prop where
  getSize : state.info.getSize = data.length
  maxSize : state.info.maxSize = capacity data.length
  room : data.length ≤ roomLimit
  placed : Placed others state (padded 0 (capacity data.length) data)
  inBase : state.info.bufAddr = .base ↔ data.length ≤ maxDefLen

theorem holds_init (heap : Heap.Blocks (List UInt8)) : Holds heap.block (cacheInit heap) [] :=
  ⟨rfl, rfl, Nat.zero_le _, .base rfl rfl rfl, ⟨fun _ => Nat.zero_le _, fun _ => rfl⟩⟩

theorem Holds.cacheAdd (holds : Holds others state data) (nonempty : more ≠ [])
    (room : data.length + more.length ≤ roomLimit) :
    ∃ next, cacheAdd true state more = .ok (next, .doneOk) ∧ Holds others next (data ++ more) ∧
      next.info.outSize = state.info.outSize := by
  have inside : data.length + more.length < intLimit := by
    simp only [roomLimit, intLimit, maxDefLen] at room ⊢
    omega
  have total : (data ++ more).length = data.length + more.length := length_append
  have valid : ¬ (state.info.bufAddr = .null ∨ more = []) := by simp [holds.placed.ne_null, nonempty]
  simp only [Buffer.cacheAdd, holds.getSize, holds.maxSize, if_neg valid, if_neg (Nat.not_le.mpr inside)]
  split_ifs with large beyond
  · exact absurd ((needed_overflow_iff inside).mp beyond) (Nat.not_lt.mpr room)
  · have size := capacity_add_large large
    have lower := needed_bounds (data.length + more.length)
    obtain ⟨moved, address, move, here, owns, movedInfo⟩ :=
      holds.placed.moveBuffer holds.getSize (Nat.le_trans (Nat.le_add_right _ more.length) lower.1)
    have placed : Placed others moved (padded 0 (needed (data.length + more.length)) data) := .block address here owns
    obtain ⟨next, copy, placedNext, info⟩ := placed.copyIn (by rw [movedInfo]; exact holds.getSize) lower.1
    refine ⟨next, by simp only [move, copy, bind, Except.bind]; rfl, ⟨?_, ?_, total ▸ room, ?_, ?_⟩, ?_⟩
    · rw [info]
    · rw [info, movedInfo, total, size]
    · rw [total, size]
      exact placedNext
    · have long : ¬ (data ++ more).length ≤ maxDefLen := by
        have := maxDefLen_le_capacity data.length
        omega
      rw [info]
      simp only [here, long, reduceCtorEq]
    · rw [info, movedInfo]
  · have size := capacity_add_small (Nat.not_lt.mp large)
    obtain ⟨next, copy, placedNext, info⟩ := holds.placed.copyIn holds.getSize (Nat.not_lt.mp large)
    refine ⟨next, by rw [copy]; rfl, ⟨?_, ?_, total ▸ room, ?_, ?_⟩, ?_⟩
    · rw [info]
    · rw [info, total, size]
      exact holds.maxSize
    · rw [total, size]
      exact placedNext
    · rw [info, total]
      refine holds.inBase.trans ⟨fun small => ?_, fun small => by omega⟩
      rw [capacity_of_small small] at large
      omega
    · rw [info]

/-- The memory of a cache of `Net.Cache`. -/
structure Backs (others : Nat → Option (List UInt8)) (state : CacheState) (cache : NetCache) : Prop where
  holds : Holds others state cache.data
  maxSize : cache.maxSize = capacity cache.data.length
  outSize : state.info.outSize = cache.outSize

theorem backs_init (heap : Heap.Blocks (List UInt8)) : Backs heap.block (cacheInit heap) {} :=
  ⟨holds_init heap, rfl, rfl⟩

theorem Backs.cacheAdd_eq {cache : NetCache} (backs : Backs others state cache) :
    Net.cacheAdd true cache more = (.doneOk, { cache with
      data := cache.data ++ more
      maxSize := capacity (cache.data ++ more).length }) := by
  simp only [Net.cacheAdd, NetCache.getSize, backs.maxSize, length_append, if_true]
  split_ifs with large
  · rw [capacity_add_large large]
    rfl
  · rw [capacity_add_small (Nat.not_lt.mp large), ← backs.maxSize]

/-- Where `malloc` succeeds, `net_recv` on the memory is `netRecv` on the bytes. -/
theorem Backs.netRecv {cache : NetCache} (backs : Backs others state cache) (nonempty : more ≠ []) :
    ∃ next, Buffer.netRecv true state more = .ok (next, (Net.netRecv true cache more).1) ∧
      Backs others next (Net.netRecv true cache more).2 := by
  simp only [Buffer.netRecv, Net.netRecv, backs.holds.getSize]
  by_cases large : maxReqSize < cache.getSize + more.length
  · simp only [if_pos large]
    exact ⟨state, if_pos large, backs⟩
  · have limit : maxReqSize ≤ roomLimit := by decide
    obtain ⟨next, add, holds, out⟩ := backs.holds.cacheAdd nonempty (Nat.le_trans (Nat.not_lt.mp large) limit)
    simp only [if_neg large, backs.cacheAdd_eq]
    exact ⟨next, (if_neg large).trans add, holds, rfl, out.trans backs.outSize⟩

theorem Backs.cacheFree {cache : NetCache} (backs : Backs others state cache) :
    ∃ next, Buffer.cacheFree state = .ok next ∧ Backs others next (Net.cacheFree cache) := by
  obtain ⟨next, free, info, blocks⟩ := backs.holds.placed.cacheFree
  have init := backs_init next.heap
  rw [blocks] at init
  obtain ⟨heap, nextInfo⟩ := next
  cases info
  exact ⟨_, free, init⟩

theorem cacheAdd_granted (fits : state.info.getSize + more.length ≤ state.info.maxSize) (granted : Bool) :
    cacheAdd granted state more = cacheAdd true state more := by
  simp only [cacheAdd, if_neg (Nat.not_lt.mpr fits)]

theorem Holds.cacheAdd_overflow (holds : Holds others state data) (nonempty : more ≠ []) (granted : Bool)
    (beyond : roomLimit < data.length + more.length) : Buffer.cacheAdd granted state more = .error .overflow := by
  have valid : ¬ (state.info.bufAddr = .null ∨ more = []) := by simp [holds.placed.ne_null, nonempty]
  have large : capacity data.length < data.length + more.length := Nat.lt_of_le_of_lt (capacity_le holds.room) beyond
  simp only [Buffer.cacheAdd, holds.getSize, holds.maxSize, if_neg valid, if_pos large]
  split_ifs with first second
  · rfl
  · rfl
  · exact absurd ((needed_overflow_iff (Nat.not_le.mp first)).mpr beyond) second
  · exact absurd ((needed_overflow_iff (Nat.not_le.mp first)).mpr beyond) second

theorem Holds.run (holds : Holds others state data) {datas : List (List UInt8)} (nonempty : ∀ more ∈ datas, more ≠ [])
    (room : data.length + datas.flatten.length ≤ roomLimit) :
    ∃ final, Machine.run (Buffer.cacheAdd true) state datas = .ok (final, List.replicate datas.length .doneOk) ∧
      Holds others final (data ++ datas.flatten) := by
  induction datas generalizing state data with
  | nil => exact ⟨state, rfl, by simpa using holds⟩
  | cons more rest ih =>
    obtain ⟨first, later⟩ := forall_mem_cons.mp nonempty
    rw [flatten_cons, length_append] at room
    obtain ⟨next, add, holdsNext, -⟩ := holds.cacheAdd first (by omega)
    obtain ⟨final, run, holdsFinal⟩ := ih holdsNext later (by rw [length_append]; omega)
    refine ⟨final, Machine.run_cons add run, ?_⟩
    rwa [flatten_cons, ← append_assoc]

theorem Holds.run_overflow (holds : Holds others state data) {datas : List (List UInt8)}
    (nonempty : ∀ more ∈ datas, more ≠ []) (beyond : roomLimit < data.length + datas.flatten.length) :
    Machine.run (Buffer.cacheAdd true) state datas = .error .overflow := by
  induction datas generalizing state data with
  | nil => exact absurd beyond (Nat.not_lt.mpr holds.room)
  | cons more rest ih =>
    obtain ⟨first, later⟩ := forall_mem_cons.mp nonempty
    rw [flatten_cons, length_append] at beyond
    by_cases room : data.length + more.length ≤ roomLimit
    · obtain ⟨next, add, holdsNext, -⟩ := holds.cacheAdd first room
      have stop := ih holdsNext later (by rw [length_append]; omega)
      simp only [Machine.run, add, stop]
    · simp only [Machine.run, holds.cacheAdd_overflow first true (Nat.not_le.mp room)]

structure Contents (others : Nat → Option (List UInt8)) (state : CacheState) (data : List UInt8) : Prop where
  getSize : state.info.getSize = data.length
  fits : state.info.getSize ≤ state.info.maxSize
  rounded : maxDefLen ∣ state.info.maxSize
  stored : ∃ bytes, Placed others state bytes ∧ bytes.length = state.info.maxSize ∧
    bytes.take state.info.getSize = data

theorem Holds.contents (holds : Holds others state data) : Contents others state data := by
  have fits := le_capacity data.length
  refine ⟨holds.getSize, ?_, ?_, _, holds.placed, ?_, ?_⟩
  · rwa [holds.getSize, holds.maxSize]
  · rw [holds.maxSize]
    exact capacity_dvd data.length
  · rw [holds.maxSize]
    exact Heap.padded_length fits
  · rw [holds.getSize, Heap.padded_take]

/-- The cache holds what was added as long as the rounded size is an `int`. -/
theorem cache_contents_iff (heap : Heap.Blocks (List UInt8)) {datas : List (List UInt8)}
    (nonempty : ∀ data ∈ datas, data ≠ []) : (∃ final freed,
      Machine.run (cacheAdd true) (cacheInit heap) datas = .ok (final, List.replicate datas.length .doneOk) ∧
      Contents heap.block final datas.flatten ∧ cacheFree final = .ok freed ∧
      freed.info = (cacheInit heap).info ∧ freed.heap.block = heap.block) ↔ datas.flatten.length ≤ roomLimit := by
  constructor
  · rintro ⟨final, freed, run, -⟩
    by_contra beyond
    have stop := (holds_init heap).run_overflow nonempty (by simpa using beyond)
    simp [stop] at run
  · intro room
    obtain ⟨final, run, holds⟩ := (holds_init heap).run nonempty (by simpa using room)
    obtain ⟨freed, free, info, blocks⟩ := holds.placed.cacheFree
    exact ⟨final, freed, run, holds.contents, free, info, blocks⟩

/-- One byte more than the base holds moves the data to a block. -/
theorem cache_contents_hello : ∃ final freed,
    Machine.run (cacheAdd true) (cacheInit Heap.Blocks.empty) [List.replicate maxDefLen 104, [101]] =
        .ok (final, [.doneOk, .doneOk]) ∧
      Contents (fun _ => none) final (List.replicate maxDefLen 104 ++ [101]) ∧
      cacheFree final = .ok freed ∧
      freed.info = (cacheInit Heap.Blocks.empty).info ∧
      freed.heap.block = fun _ => none := by
  have total : [List.replicate maxDefLen (104 : UInt8), [101]].flatten.length = maxDefLen + 1 := by simp
  have room : maxDefLen + 1 ≤ roomLimit := by decide
  have nonempty : ∀ data ∈ [List.replicate maxDefLen (104 : UInt8), [101]], data ≠ [] := by
    simp only [forall_mem_cons, not_mem_nil, false_implies, implies_true, and_true, ne_eq, reduceCtorEq,
      not_false_eq_true]
    exact ne_nil_of_length_pos (by rw [length_replicate]; decide)
  obtain ⟨final, freed, run, contents, freeing⟩ := (cache_contents_iff Heap.Blocks.empty nonempty).mpr (total ▸ room)
  rw [flatten_cons, flatten_cons, flatten_nil, append_nil] at contents
  exact ⟨final, freed, run, contents, freeing⟩

theorem cache_contents_overflow :
    ∃ datas : List (List UInt8), (∀ data ∈ datas, data ≠ []) ∧ datas.flatten.length < intLimit ∧
      Machine.run (cacheAdd true) (cacheInit Heap.Blocks.empty) datas = .error .overflow := by
  obtain ⟨body, size⟩ : ∃ body : List UInt8, body.length = 2147483647 :=
    ⟨List.replicate 2147483647 0, length_replicate⟩
  have nonempty : ∀ data ∈ [body], data ≠ [] := by
    simp only [mem_singleton, forall_eq]
    exact ne_nil_of_length_pos (by omega)
  have total : [body].flatten.length = 2147483647 := by simpa using size
  refine ⟨[body], nonempty, ?_, (holds_init Heap.Blocks.empty).run_overflow nonempty ?_⟩
  · rw [total]
    decide
  · rw [total]
    decide

end Libucmq.Net.Buffer
