import Libucmq.Http.Server
import Libucmq.Net.Buffer

/-! What `cache_add` and its callers do when `malloc` fails. -/

namespace Libucmq.Supex

open Net (maxDefLen maxReqSize)
open Net.Buffer

open CString (intLimit)

inductive Protocol
  | http
  | redis
deriving DecidableEq, Repr

structure NodeCaches where
  heap : Heap.Blocks (List UInt8)
  recv : CacheInfo
  send : CacheInfo

def noMemoryText : Protocol → List UInt8
  | .http => Http.httpRespText 500 false
  | .redis => CString.ascii "-NO MORE MEMORY!\r\n"

def addError (protocol : Protocol) (granted : Bool) (send : CacheState) : Except CacheFault CacheState :=
  if protocol = .http ∧ 0 < send.info.getSize then .ok send
  else (cacheAdd granted send (noMemoryText protocol)).map Prod.fst

def recvNoMemory (protocol : Protocol) (grantedRecv grantedSend : Bool) (node : NodeCaches) (data : List UInt8) :
    Except CacheFault NodeCaches :=
  match netRecv grantedRecv { heap := node.heap, info := node.recv } data with
  | .error fault => .error fault
  | .ok (recv, .mallocFailed) =>
    match addError protocol grantedSend { heap := recv.heap, info := node.send } with
    | .error fault => .error fault
    | .ok send =>
      match cacheFree { heap := send.heap, info := recv.info } with
      | .error fault => .error (.memory fault)
      | .ok freed => .ok { heap := freed.heap, recv := freed.info, send := send.info }
  | .ok (recv, _) => .ok { node with heap := recv.heap, recv := recv.info }

variable {others : Nat → Option (List UInt8)} {state next : CacheState} {bytes data : List UInt8} {granted : Bool}

def Refused (granted : Bool) (state : CacheState) (data : List UInt8) : Prop :=
  granted = false ∧ data ≠ [] ∧ state.info.maxSize < state.info.getSize + data.length ∧
    needed (state.info.getSize + data.length) < intLimit

def Harmless (others : Nat → Option (List UInt8)) (state next : CacheState) : Prop :=
  next = state ∧ ∃ freed, cacheFree next = .ok freed ∧ freed.heap.block = others

theorem added_ne_mallocFailed {result : Except Heap.Fault CacheState} : added result ≠ .ok (next, .mallocFailed) := by
  cases result with
  | error fault => simp [added]
  | ok state => simp [added]

def lost (state : CacheState) (maxSize : Nat) : CacheState :=
  { state with info := { state.info with maxSize, bufAddr := .null } }

theorem cacheAdd_mallocFailed_iff (valid : state.info.bufAddr ≠ .null) :
    cacheAdd granted state data = .ok (next, .mallocFailed) ↔
      Refused granted state data ∧ next = lost state (needed (state.info.getSize + data.length)) := by
  have rounded := needed_bounds (state.info.getSize + data.length)
  simp only [cacheAdd, Refused, valid, false_or]
  split_ifs with empty large grows beyond given
  · simp [empty]
  · simp only [false_iff]
    omega
  · simp only [false_iff]
    omega
  · simp [given, added_ne_mallocFailed]
  · have small := Nat.not_le.mp beyond
    simp [given, empty, grows, small, lost, eq_comm]
  · simp [grows, added_ne_mallocFailed]

theorem cacheFree_lost (state : CacheState) (maxSize : Nat) :
    cacheFree (lost state maxSize) = .ok (cacheInit state.heap) := rfl

theorem blocks_kept_iff (placed : Net.Buffer.Placed others state bytes) :
    state.heap.block = others ↔ state.info.bufAddr = .base := by
  cases placed with
  | base here content rest => simp [here, rest]
  | block address here owns =>
    have more : state.heap.block ≠ others := by
      intro same
      have live := owns.live
      rw [same, owns.1] at live
      exact absurd live (by simp)
    simp [here, more]

theorem noMemoryText_ne_nil (protocol : Protocol) : noMemoryText protocol ≠ [] := by
  cases protocol <;> decide +kernel

theorem addError_ok {protocol : Protocol} {sent : List UInt8} (holds : Holds others state sent)
    (fits : sent.length + (noMemoryText protocol).length ≤ maxDefLen) (granted : Bool) :
    ∃ next, addError protocol granted state = .ok next ∧
      Holds others next (if protocol = .http ∧ 0 < sent.length then sent else sent ++ noMemoryText protocol) := by
  rw [addError, holds.getSize]
  split_ifs with begun
  · exact ⟨state, rfl, holds⟩
  · have room : maxDefLen ≤ roomLimit := by decide
    obtain ⟨next, add, holdsNext, -⟩ := holds.cacheAdd (noMemoryText_ne_nil protocol) (by omega)
    have inside : state.info.getSize + (noMemoryText protocol).length ≤ state.info.maxSize := by
      rw [holds.getSize, holds.maxSize]
      exact Nat.le_trans fits (maxDefLen_le_capacity _)
    exact ⟨next, by rw [cacheAdd_granted inside, add]; rfl, holdsNext⟩

theorem recv_refused {received : List UInt8} (holds : Holds others state received)
    (failed : netRecv granted state data = .ok (next, .mallocFailed)) :
    state.info.bufAddr = .base ∧ next = lost state (needed (state.info.getSize + data.length)) := by
  unfold netRecv at failed
  split_ifs at failed with large
  · simp at failed
  · obtain ⟨⟨-, -, grows, -⟩, rfl⟩ := (cacheAdd_mallocFailed_iff holds.placed.ne_null).mp failed
    refine ⟨holds.inBase.mpr ?_, rfl⟩
    rw [holds.getSize, holds.maxSize] at *
    by_contra long
    have size := needed_eq received.length
    rw [capacity_of_large (Nat.not_le.mp long), size] at grows
    simp only [maxDefLen, maxReqSize] at long large
    omega

/-- A failing `cache_add` loses the buffer, and a block is never freed. -/
theorem malloc_failure_iff (placed : Net.Buffer.Placed others state bytes) (granted : Bool) (data : List UInt8) :
    ((∀ next, cacheAdd granted state data = .ok (next, .mallocFailed) → Harmless others state next) ↔
      ¬ Refused granted state data) ∧
    (Refused granted state data → ∃ next freed, cacheAdd granted state data = .ok (next, .mallocFailed) ∧
      next.info.bufAddr = .null ∧ state.info.maxSize < next.info.maxSize ∧
      next.info.getSize = state.info.getSize ∧ next.info.outSize = state.info.outSize ∧ next.heap = state.heap ∧
      cacheFree next = .ok freed ∧ freed.info = (cacheInit freed.heap).info ∧
      (freed.heap.block = others ↔ state.info.bufAddr = .base)) ∧
    ∀ protocol sendOthers send received sent grantedSend next, Holds others state received →
      Holds sendOthers { heap := state.heap, info := send } sent →
      sent.length + (noMemoryText protocol).length ≤ maxDefLen →
      netRecv granted state data = .ok (next, .mallocFailed) →
      state.heap.block = others ∧
        ∃ final, recvNoMemory protocol granted grantedSend { heap := state.heap, recv := state.info, send } data =
            .ok final ∧
          final.recv = (cacheInit final.heap).info ∧
          Holds sendOthers { heap := final.heap, info := final.send }
            (if protocol = .http ∧ 0 < sent.length then sent else sent ++ noMemoryText protocol) := by
  have valid := placed.ne_null
  refine ⟨⟨fun harmless refused => ?_, fun allowed next failed => ?_⟩, fun refused => ?_, ?_⟩
  · have changed := (harmless _ ((cacheAdd_mallocFailed_iff valid).mpr ⟨refused, rfl⟩)).1
    exact valid (by rw [← changed]; rfl)
  · exact absurd ((cacheAdd_mallocFailed_iff valid).mp failed).1 allowed
  · have rounded := needed_bounds (state.info.getSize + data.length)
    exact ⟨_, _, (cacheAdd_mallocFailed_iff valid).mpr ⟨refused, rfl⟩, rfl, Nat.lt_of_lt_of_le refused.2.2.1 rounded.1,
      rfl, rfl, rfl, rfl, rfl, blocks_kept_iff placed⟩
  · intro protocol sendOthers send received sent grantedSend next holds holdsSend fits failed
    obtain ⟨here, rfl⟩ := recv_refused holds failed
    obtain ⟨final, error, holdsNext⟩ := addError_ok holdsSend fits grantedSend
    refine ⟨(blocks_kept_iff placed).mpr here, { heap := final.heap, recv := _, send := final.info }, ?_, rfl,
      holdsNext⟩
    have free := cacheFree_lost { heap := final.heap, info := state.info } (needed (state.info.getSize + data.length))
    simp only [recvNoMemory, failed, lost, error] at free ⊢
    rw [free]
    rfl

/-- A buffer filled by an earlier `cache_add` up to the end of its block. -/
theorem malloc_failure_full : ∃ state next freed,
    cacheAdd true (cacheInit Heap.Blocks.empty) (List.replicate 32768 1) = .ok (state, .doneOk) ∧
      cacheAdd false state [3] = .ok (next, .mallocFailed) ∧
      cacheFree next = .ok freed ∧
      ¬ (freed.heap.block = fun _ => none) := by
  obtain ⟨chunk, length⟩ : ∃ chunk : List UInt8, chunk = List.replicate 32768 1 := ⟨_, rfl⟩
  have size : chunk.length = 32768 := by rw [length, List.length_replicate]
  obtain ⟨state, add, holds, -⟩ := (holds_init Heap.Blocks.empty).cacheAdd (List.ne_nil_of_length_pos (by omega))
    (show _ + chunk.length ≤ roomLimit by rw [size]; decide)
  rw [List.nil_append] at holds
  have stored : state.info.getSize = 32768 := holds.getSize.trans size
  have full : state.info.maxSize = 32768 := by
    rw [holds.maxSize, size]
    decide
  have refused : Refused false state [3] := by
    refine ⟨rfl, by decide, ?_, ?_⟩
    · rw [full, stored]
      decide
    · rw [stored]
      decide
  obtain ⟨next, freed, failed, -, -, -, -, -, free, -, leaked⟩ :=
    (malloc_failure_iff holds.placed false [3]).2.1 refused
  refine ⟨state, next, freed, length ▸ add, failed, free, fun same => ?_⟩
  have inBase := holds.inBase.mp (leaked.mp same)
  rw [size] at inBase
  exact absurd inBase (by decide)

theorem malloc_failure_leaks : ∃ first second state next freed,
      Machine.run (cacheAdd true) (cacheInit Heap.Blocks.empty) [first] = .ok (state, [.doneOk]) ∧
      cacheAdd false state second = .ok (next, .mallocFailed) ∧ next.info.bufAddr = .null ∧
      next.info.maxSize ≠ state.info.maxSize ∧ cacheFree next = .ok freed ∧
      ¬ (freed.heap.block = fun _ => none) := by
  obtain ⟨first, firstSize⟩ : ∃ first : List UInt8, first.length = 16385 :=
    ⟨List.replicate 16385 0, List.length_replicate⟩
  obtain ⟨second, secondSize⟩ : ∃ second : List UInt8, second.length = 16384 :=
    ⟨List.replicate 16384 0, List.length_replicate⟩
  obtain ⟨state, run, holds⟩ := @Holds.run _ _ _ (holds_init Heap.Blocks.empty) [first]
    (by simpa using List.ne_nil_of_length_pos (by omega)) (by simp [firstSize]; decide)
  have size : state.info.getSize = 16385 := by simp [holds.getSize, firstSize]
  have maxSize : state.info.maxSize = 32768 := by
    rw [holds.maxSize]
    simp [firstSize]
    decide
  have refused : Refused false state second := by
    refine ⟨rfl, List.ne_nil_of_length_pos (by omega), ?_, ?_⟩
    · rw [size, maxSize, secondSize]
      decide
    · rw [size, secondSize]
      decide
  have outside : ¬ state.info.bufAddr = .base := by
    rw [holds.inBase]
    simp [firstSize, maxDefLen]
  have rounded := needed_bounds (state.info.getSize + second.length)
  refine ⟨first, second, state, _, _, run, (cacheAdd_mallocFailed_iff holds.placed.ne_null).mpr ⟨refused, rfl⟩, rfl,
    ?_, rfl, fun same => outside ((blocks_kept_iff holds.placed).mp same)⟩
  exact Nat.ne_of_gt (Nat.lt_of_lt_of_le refused.2.2.1 rounded.1)

end Libucmq.Supex
