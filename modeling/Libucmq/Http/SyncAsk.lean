import Libucmq.Library.Machine
import Libucmq.Net.Buffer

/-! The receiving side of `sync_tcp_ask` in `tcp_api.c`. -/

namespace Libucmq.Http

open List Machine

open Heap (Owns padded)

variable {size : Int} {back : Option Nat} {heap : Heap.Blocks (List UInt8)}
open CString (intLimit)

def defaultRecvSize : Nat := 20480

inductive Errno
  | eintr
  | eagain
  | other
deriving DecidableEq, Repr

/-- `errno` is left by an earlier error; `granted`: `calloc` succeeds. -/
inductive RecvEvent
  | bytes (chunk : List UInt8) (errno : Errno) (granted : Bool)
  | closed (granted : Bool)
  | failed (errno : Errno) (granted : Bool)

/-- The locals of the loop; `now` is `p_now`, `none` for `temp`. -/
structure SyncState where
  heap : Heap.Blocks (List UInt8)
  temp : List UInt8
  now : Option Nat
  ioSize : Nat
  maxSize : Nat

inductive SyncEnd
  | returned (size : Int) (back : Option Nat) (heap : Heap.Blocks (List UInt8))
  | timeout (heap : Heap.Blocks (List UInt8))
  | memory (heap : Heap.Blocks (List UInt8))
  | fault (fault : Heap.Fault)

def syncStart (heap : Heap.Blocks (List UInt8)) : SyncState where
  heap := heap
  temp := List.replicate defaultRecvSize 0
  now := none
  ioSize := 0
  maxSize := defaultRecvSize

def SyncState.buffer (state : SyncState) : Except Heap.Fault (List UInt8) :=
  match state.now with
  | none => .ok state.temp
  | some address => state.heap.get address

def SyncState.write (state : SyncState) (chunk : List UInt8) : Except Heap.Fault SyncState := do
  let bytes ← state.buffer
  let changed ← Heap.patch bytes state.ioSize chunk
  match state.now with
  | none => return { state with temp := changed }
  | some address =>
    let heap ← state.heap.put address changed
    return { state with heap }

def SyncState.release (state : SyncState) (heap : Heap.Blocks (List UInt8)) :
    Except Heap.Fault (Heap.Blocks (List UInt8)) :=
  match state.now with
  | none => .ok heap
  | some address => heap.free address

def SyncState.double (state : SyncState) : Except Heap.Fault SyncState := do
  let maxSize := state.maxSize * 2
  let (address, heap) := state.heap.malloc (List.replicate maxSize 0)
  let kept ← Heap.fetch (← state.buffer) state.ioSize
  let heap ← heap.put address (← Heap.patch (List.replicate maxSize 0) 0 kept)
  let heap ← state.release heap
  return { state with heap, now := some address, maxSize }

def SyncState.copyOut (state : SyncState) : Except Heap.Fault SyncState := do
  let (address, heap) := state.heap.malloc (List.replicate state.ioSize 0)
  let kept ← Heap.fetch state.temp state.ioSize
  let heap ← heap.put address (← Heap.patch (List.replicate state.ioSize 0) 0 kept)
  return { state with heap, now := some address }

def SyncState.answer (state : SyncState) : SyncEnd :=
  .returned ((state.ioSize : Int).bmod 4294967296) (if 0 < state.ioSize then state.now else none) state.heap

def SyncState.finish (state : SyncState) (granted : Bool) : SyncEnd :=
  if state.now = none ∧ 0 < state.ioSize then
    if granted then
      match state.copyOut with
      | .error fault => .fault fault
      | .ok next => next.answer
    else .memory state.heap
  else state.answer

def SyncState.giveUp (state : SyncState) (outcome : Heap.Blocks (List UInt8) → SyncEnd) : SyncEnd :=
  match state.release state.heap with
  | .error fault => .fault fault
  | .ok heap => outcome heap

def SyncState.negative (state : SyncState) (errno : Errno) (granted : Bool) : Except SyncEnd (SyncState × Unit) :=
  match errno with
  | .eintr => .ok (state, ())
  | .eagain => .error (state.giveUp .timeout)
  | .other => .error (state.finish granted)

def SyncState.enlarge (state : SyncState) (granted : Bool) : Except SyncEnd (SyncState × Unit) :=
  if state.ioSize + 32 ≥ state.maxSize then
    if granted then
      match state.double with
      | .error fault => .error (.fault fault)
      | .ok next => .ok (next, ())
    else .error (state.giveUp .memory)
  else .ok (state, ())

def syncStep (state : SyncState) : RecvEvent → Except SyncEnd (SyncState × Unit)
  | .bytes chunk errno granted =>
    match state.write chunk with
    | .error fault => .error (.fault fault)
    | .ok next =>
      let bytes := (chunk.length : Int).bmod 4294967296
      if bytes > 0 then { next with ioSize := next.ioSize + bytes.toNat }.enlarge granted
      else if bytes = 0 then .error (next.finish granted)
      else next.negative errno granted
  | .closed granted => .error (state.finish granted)
  | .failed errno granted => state.negative errno granted

inductive SyncPlaced (others : Nat → Option (List UInt8)) (state : SyncState) (bytes : List UInt8) : Prop
  | stack (here : state.now = none) (content : state.temp = bytes) (rest : state.heap.block = others)
  | block (address : Nat) (here : state.now = some address) (owns : Owns state.heap others address bytes)

variable {others : Nat → Option (List UInt8)} {state : SyncState} {bytes data chunk : List UInt8}

theorem SyncPlaced.buffer (placed : SyncPlaced others state bytes) : state.buffer = .ok bytes := by
  cases placed with
  | stack here content => simp only [SyncState.buffer, here, content]
  | block address here owns => simp only [SyncState.buffer, here, owns.get]

theorem SyncPlaced.resize (placed : SyncPlaced others state bytes) (ioSize maxSize : Nat) :
    SyncPlaced others { state with ioSize, maxSize } bytes := by
  cases placed with
  | stack here content rest => exact .stack here content rest
  | block address here owns => exact .block address here owns

theorem SyncPlaced.write (placed : SyncPlaced others state (padded 0 state.maxSize data))
    (size : state.ioSize = data.length) (fits : data.length + chunk.length ≤ state.maxSize) :
    ∃ next, state.write chunk = .ok next ∧ SyncPlaced others next (padded 0 state.maxSize (data ++ chunk)) ∧
      next.ioSize = state.ioSize ∧ next.maxSize = state.maxSize := by
  have patched := @Heap.patch_padded UInt8 0 state.maxSize data chunk fits
  cases placed with
  | stack here content rest =>
    refine ⟨{ state with temp := padded 0 state.maxSize (data ++ chunk) }, ?_, .stack here rfl rest, rfl, rfl⟩
    simp only [SyncState.write, SyncState.buffer, here, content, size, patched, bind, Except.bind, pure, Except.pure]
  | block address here owns =>
    obtain ⟨heap, put, owned⟩ := owns.put (padded 0 state.maxSize (data ++ chunk))
    refine ⟨{ state with heap }, ?_, .block address here owned, rfl, rfl⟩
    simp only [SyncState.write, SyncState.buffer, here, owns.get, size, patched, put, bind, Except.bind, pure,
      Except.pure]

theorem SyncPlaced.double (placed : SyncPlaced others state (padded 0 state.maxSize data))
    (size : state.ioSize = data.length) (fits : data.length ≤ state.maxSize) :
    ∃ next, state.double = .ok next ∧ SyncPlaced others next (padded 0 (state.maxSize * 2) data) ∧
      next.ioSize = state.ioSize ∧ next.maxSize = state.maxSize * 2 := by
  have buffer := placed.buffer
  have fetched : Heap.fetch (padded 0 state.maxSize data) state.ioSize = .ok data := by
    rw [size]
    exact Heap.fetch_padded
  have patched := @Heap.patch_blank UInt8 0 (state.maxSize * 2) data (by omega)
  obtain ⟨heap, put, outer⟩ := (Heap.owns_malloc state.heap (List.replicate (state.maxSize * 2) (0 : UInt8))).put
    (padded 0 (state.maxSize * 2) data)
  cases placed with
  | stack here content rest =>
    rw [rest] at outer
    refine ⟨{ state with heap, now := some state.heap.next, maxSize := state.maxSize * 2 }, ?_,
      .block _ rfl outer, rfl, rfl⟩
    simp only [SyncState.double, buffer, fetched, patched, put, SyncState.release, here, bind, Except.bind, pure,
      Except.pure]
    rfl
  | block address here owns =>
    obtain ⟨final, freed, owned⟩ := outer.exchange owns
    refine ⟨{ state with heap := final, now := some state.heap.next, maxSize := state.maxSize * 2 }, ?_,
      .block _ rfl owned, rfl, rfl⟩
    simp only [SyncState.double, buffer, fetched, patched, put, SyncState.release, here, freed, bind, Except.bind,
      pure, Except.pure]
    rfl

structure SyncHolds (others : Nat → Option (List UInt8)) (state : SyncState) (data : List UInt8) : Prop where
  placed : SyncPlaced others state (padded 0 state.maxSize data)
  size : state.ioSize = data.length
  slack : data.length + 32 < state.maxSize

theorem syncHolds_start (heap : Heap.Blocks (List UInt8)) : SyncHolds heap.block (syncStart heap) [] :=
  ⟨.stack rfl rfl rfl, rfl, show 0 + 32 < defaultRecvSize by decide⟩

theorem SyncPlaced.enlarge (placed : SyncPlaced others state (padded 0 state.maxSize data))
    (size : state.ioSize = data.length) (fits : data.length ≤ state.maxSize) (large : 32 < state.maxSize) :
    ∃ next, state.enlarge true = .ok (next, ()) ∧ SyncHolds others next data ∧
      next.maxSize = if data.length + 32 ≥ state.maxSize then state.maxSize * 2 else state.maxSize := by
  by_cases full : data.length + 32 ≥ state.maxSize
  · obtain ⟨next, doubled, placedNext, ioSize, maxSize⟩ := placed.double size fits
    refine ⟨next, ?_, ⟨by rwa [maxSize], ioSize.trans size, by omega⟩, by rw [if_pos full, maxSize]⟩
    simp only [SyncState.enlarge, size, if_pos full, if_true, doubled]
  · refine ⟨state, ?_, ⟨placed, size, by omega⟩, by rw [if_neg full]⟩
    rw [SyncState.enlarge, size, if_neg full]

theorem bmod_small {count : Nat} (small : count < intLimit) : (count : Int).bmod 4294967296 = count := by
  rw [intLimit] at small
  exact Int.bmod_eq_of_le (by omega) (by omega)

theorem SyncHolds.recv (holds : SyncHolds others state data) (nonempty : chunk ≠ [])
    (fits : chunk.length ≤ state.maxSize - state.ioSize) (small : chunk.length < intLimit) (errno : Errno) :
    ∃ next, syncStep state (.bytes chunk errno true) = .ok (next, ()) ∧ SyncHolds others next (data ++ chunk) ∧
      next.maxSize = if (data ++ chunk).length + 32 ≥ state.maxSize then state.maxSize * 2 else state.maxSize := by
  obtain ⟨placed, size, slack⟩ := holds
  have positive := length_pos_iff.mpr nonempty
  have room : data.length + chunk.length ≤ state.maxSize := by omega
  obtain ⟨written, write, placedNext, ioSize, maxSize⟩ := placed.write size room
  rw [← maxSize] at placedNext
  obtain ⟨next, enlarged, holdsNext, sizeNext⟩ :=
    (placedNext.resize (written.ioSize + chunk.length) written.maxSize).enlarge
      (show written.ioSize + chunk.length = (data ++ chunk).length by rw [ioSize, size, length_append])
      (show (data ++ chunk).length ≤ written.maxSize by rw [maxSize, length_append]; exact room)
      (show 32 < written.maxSize by omega)
  refine ⟨next, ?_, holdsNext, by rw [sizeNext, maxSize]⟩
  simp only [syncStep, write, bmod_small small, Int.toNat_natCast]
  rw [if_pos (by omega)]
  exact enlarged

def sent : List RecvEvent → List UInt8
  | [] => []
  | .bytes chunk _ _ :: rest => chunk ++ sent rest
  | _ :: rest => sent rest

def Offered (state : SyncState) : RecvEvent → Prop
  | .bytes chunk _ granted => chunk ≠ [] ∧ chunk.length ≤ state.maxSize - state.ioSize ∧ granted = true
  | .failed errno _ => errno = .eintr
  | .closed _ => False

theorem SyncHolds.step (holds : SyncHolds others state data) {event : RecvEvent} (offered : Offered state event)
    (small : (sent [event]).length < intLimit) :
    ∃ next, syncStep state event = .ok (next, ()) ∧ SyncHolds others next (data ++ sent [event]) := by
  cases event with
  | bytes chunk errno granted =>
    obtain ⟨nonempty, fits, rfl⟩ := offered
    simp only [sent, append_nil] at small ⊢
    obtain ⟨next, stepEq, holdsNext, -⟩ := holds.recv nonempty fits small errno
    exact ⟨next, stepEq, holdsNext⟩
  | closed granted => exact offered.elim
  | failed errno granted =>
    cases offered
    exact ⟨state, rfl, by simpa [sent] using holds⟩

theorem sent_cons (event : RecvEvent) (rest : List RecvEvent) : sent (event :: rest) = sent [event] ++ sent rest := by
  cases event <;> simp [sent]

theorem sent_append (first second : List RecvEvent) : sent (first ++ second) = sent first ++ sent second := by
  induction first with
  | nil => rfl
  | cons event rest ih => rw [cons_append, sent_cons, ih, sent_cons event rest, append_assoc]

def HasRoom (state : SyncState) (_ : RecvEvent) : Prop := state.ioSize < state.maxSize

section

variable (holds : SyncHolds others state data)

include holds

theorem SyncHolds.hasRoom (event : RecvEvent) : HasRoom state event := by
  have slack := holds.slack
  rw [HasRoom, holds.size]
  omega

theorem SyncHolds.run {events : List RecvEvent}
    (offered : Guarded syncStep Offered state events) (small : (sent events).length < intLimit) :
    ∃ final answers, run syncStep state events = .ok (final, answers) ∧
      SyncHolds others final (data ++ sent events) ∧
      Guarded syncStep HasRoom state (events ++ [.closed true]) := by
  induction events generalizing state data with
  | nil => exact ⟨state, [], rfl, by simpa [sent] using holds, holds.hasRoom _, fun _ _ _ => trivial⟩
  | cons event rest ih =>
    rw [sent_cons, length_append] at small
    obtain ⟨next, stepEq, holdsNext⟩ := holds.step offered.1 (by omega)
    obtain ⟨final, answers, runEq, holdsFinal, room⟩ := ih holdsNext (offered.2 next () stepEq) (by omega)
    refine ⟨final, () :: answers, run_cons stepEq runEq, ?_, holds.hasRoom _, ?_⟩
    · rwa [sent_cons, ← append_assoc]
    · intro other answer otherEq
      rw [stepEq] at otherEq
      cases otherEq
      exact room

theorem SyncHolds.finish (nonempty : data ≠ []) :
    ∃ address content final, state.finish true =
        .returned ((data.length : Int).bmod 4294967296) (some address) final ∧
      content.take data.length = data ∧ Owns final others address content := by
  have positive : 0 < state.ioSize := by
    rw [holds.size]
    exact length_pos_iff.mpr nonempty
  obtain ⟨placed, size, slack⟩ := holds
  cases placed with
  | stack here content rest =>
    have fetched : Heap.fetch state.temp state.ioSize = .ok data := by
      rw [content, size]
      exact Heap.fetch_padded
    have patched := @Heap.patch_blank UInt8 0 state.ioSize data (Nat.le_of_eq size.symm)
    obtain ⟨final, put, owned⟩ := (Heap.owns_malloc state.heap (List.replicate state.ioSize (0 : UInt8))).put
      (padded 0 state.ioSize data)
    refine ⟨_, padded 0 state.ioSize data, final, ?_, Heap.padded_take, rest ▸ owned⟩
    rw [← size]
    simp only [SyncState.finish, here, positive, and_self, if_true, SyncState.copyOut, fetched, patched, put, bind,
      Except.bind, pure, Except.pure, SyncState.answer]
  | block address here owns =>
    refine ⟨address, _, state.heap, ?_, Heap.padded_take, owns⟩
    rw [← size]
    simp only [SyncState.finish, here, positive, reduceCtorEq, false_and, if_false, if_true, SyncState.answer]

end

theorem SyncState.answer_bound (answered : state.answer = .returned size back heap) : size < intLimit := by
  simp only [SyncState.answer, SyncEnd.returned.injEq] at answered
  rw [← answered.1]
  have bound := @Int.bmod_lt state.ioSize 4294967296 (by decide)
  simp only [intLimit] at bound ⊢
  omega

theorem SyncState.finish_bound {granted : Bool}
    (answered : state.finish granted = .returned size back heap) : size < intLimit := by
  rw [SyncState.finish] at answered
  split at answered
  · split at answered
    · split at answered
      · cases answered
      · exact answer_bound answered
    · cases answered
  · exact answer_bound answered

theorem SyncState.giveUp_ne {outcome : Heap.Blocks (List UInt8) → SyncEnd}
    (other : ∀ left, outcome left ≠ .returned size back heap) : state.giveUp outcome ≠ .returned size back heap := by
  rw [SyncState.giveUp]
  split
  · simp
  · exact other _

theorem SyncState.negative_bound {errno : Errno} {granted : Bool}
    (stopped : state.negative errno granted = .error (.returned size back heap)) : size < intLimit := by
  cases errno with
  | eintr => cases stopped
  | eagain => exact absurd (Except.error.inj stopped) (giveUp_ne (by simp))
  | other => exact finish_bound (Except.error.inj stopped)

theorem syncStep_bound {event : RecvEvent}
    (stopped : syncStep state event = .error (.returned size back heap)) : size < intLimit := by
  cases event with
  | bytes chunk errno granted =>
    simp only [syncStep] at stopped
    split at stopped
    · cases stopped
    · split at stopped
      · rw [SyncState.enlarge] at stopped
        split at stopped
        · split at stopped
          · split at stopped <;> cases stopped
          · exact absurd (Except.error.inj stopped) (SyncState.giveUp_ne (by simp))
        · cases stopped
      · split at stopped
        · exact SyncState.finish_bound (Except.error.inj stopped)
        · exact SyncState.negative_bound stopped
  | closed granted => exact SyncState.finish_bound (Except.error.inj stopped)
  | failed errno granted => exact SyncState.negative_bound stopped

theorem syncRun_bound {events : List RecvEvent}
    (stopped : run syncStep state events = .error (.returned size back heap)) : size < intLimit := by
  induction events generalizing state with
  | nil => cases stopped
  | cons event rest ih =>
    rcases run_cons_error stopped with here | ⟨next, answer, -, later⟩
    · exact syncStep_bound here
    · exact ih later

structure Answered (heap : Heap.Blocks (List UInt8)) (events : List RecvEvent) : Prop where
  returned : ∃ address content final, run syncStep (syncStart heap) (events ++ [.closed true]) =
      .error (.returned (sent events).length (some address) final) ∧
    content.take (sent events).length = sent events ∧ Owns final heap.block address content
  room : Guarded syncStep HasRoom (syncStart heap) (events ++ [.closed true])

/-- All that was sent is answered exactly if it is not empty and its size is an `int`. -/
theorem sync_ask_iff (heap : Heap.Blocks (List UInt8)) {events : List RecvEvent}
    (offered : Guarded syncStep Offered (syncStart heap) events) :
    Answered heap events ↔ 0 < (sent events).length ∧ (sent events).length < intLimit := by
  constructor
  · rintro ⟨⟨address, content, final, stopped, -, -⟩, -⟩
    have small : (sent events).length < intLimit := by
      have bound := syncRun_bound stopped
      omega
    refine ⟨Nat.pos_of_ne_zero fun empty => ?_, small⟩
    obtain ⟨last, answers, runEq, holds, -⟩ := (syncHolds_start heap).run offered small
    rw [run_stop runEq rfl] at stopped
    have nothing : last.ioSize = 0 := by rw [holds.size, nil_append, empty]
    simp [SyncState.finish, SyncState.answer, nothing] at stopped
  · rintro ⟨positive, small⟩
    obtain ⟨last, answers, runEq, holds, room⟩ := (syncHolds_start heap).run offered small
    obtain ⟨address, content, final, finished, front, owns⟩ := holds.finish (length_pos_iff.mp positive)
    refine ⟨⟨address, content, final, ?_, front, owns⟩, room⟩
    rw [run_stop runEq rfl, finished, nil_append, bmod_small small]

theorem SyncHolds.offered (holds : SyncHolds others state data) (nonempty : chunk ≠ []) (short : chunk.length ≤ 32)
    (errno : Errno) : Offered state (.bytes chunk errno true) := by
  obtain ⟨-, size, slack⟩ := holds
  exact ⟨nonempty, by omega, rfl⟩

theorem sync_ask_interrupted :
    Answered Heap.Blocks.empty [.bytes [104, 105] .other true, .failed .eintr false, .bytes [33] .eintr true] := by
  refine (sync_ask_iff Heap.Blocks.empty ?_).mpr (by decide)
  have start := syncHolds_start Heap.Blocks.empty
  obtain ⟨next, stepEq, holds, -⟩ :=
    start.recv (show [104, 105] ≠ [] by simp) (by decide) (by decide) .other
  refine ⟨start.offered (by simp) (by decide) _, fun other answer otherEq => ?_⟩
  rw [stepEq] at otherEq
  cases otherEq
  refine ⟨rfl, fun other answer otherEq => ?_⟩
  cases otherEq
  exact ⟨holds.offered (by simp) (by decide) _, fun _ _ _ => trivial⟩

theorem SyncHolds.fill (holds : SyncHolds others state data) (small : state.maxSize < data.length + intLimit) :
    ∃ chunk next, Offered state (.bytes chunk .other true) ∧
      syncStep state (.bytes chunk .other true) = .ok (next, ()) ∧ SyncHolds others next (data ++ chunk) ∧
      (data ++ chunk).length = state.maxSize ∧ next.maxSize = state.maxSize * 2 := by
  obtain ⟨chunk, size⟩ : ∃ chunk : List UInt8, chunk.length = state.maxSize - data.length :=
    ⟨List.replicate (state.maxSize - data.length) 0, length_replicate⟩
  have slack := holds.slack
  have nonempty : chunk ≠ [] := ne_nil_of_length_pos (by omega)
  have fits : chunk.length ≤ state.maxSize - state.ioSize := Nat.le_of_eq (by rw [size, holds.size])
  obtain ⟨next, stepEq, holdsNext, maxSize⟩ := holds.recv nonempty fits (by omega) .other
  have whole : (data ++ chunk).length = state.maxSize := by
    rw [length_append]
    omega
  rw [if_pos (by omega)] at maxSize
  exact ⟨chunk, next, ⟨nonempty, fits, rfl⟩, stepEq, holdsNext, whole, maxSize⟩

theorem syncHolds_filled (heap : Heap.Blocks (List UInt8)) {count : Nat} (few : count ≤ 17) :
    ∃ events final answers, Guarded syncStep Offered (syncStart heap) events ∧
      run syncStep (syncStart heap) events = .ok (final, answers) ∧
      SyncHolds heap.block final (sent events) ∧ (sent events).length = defaultRecvSize * 2 ^ count ∧
      final.maxSize = (sent events).length * 2 := by
  induction count with
  | zero =>
    obtain ⟨chunk, next, offered, stepEq, holds, whole, maxSize⟩ :=
      (syncHolds_start heap).fill (show defaultRecvSize < 0 + intLimit by decide)
    have only : sent [.bytes chunk .other true] = [] ++ chunk := by simp [sent]
    rw [← only] at holds whole
    exact ⟨[.bytes chunk .other true], next, [()], ⟨offered, fun _ _ _ => trivial⟩,
      run_cons stepEq rfl, holds, whole.trans (Nat.mul_one _).symm, by rw [whole, maxSize]⟩
  | succ count ih =>
    obtain ⟨events, middle, answers, offered, runEq, holds, size, maxSize⟩ := ih (by omega)
    have bound : 2 ^ count ≤ 2 ^ 16 := Nat.pow_le_pow_right (by decide) (by omega)
    obtain ⟨chunk, next, last, stepEq, holdsNext, whole, doubled⟩ := holds.fill (by
      rw [maxSize, size, defaultRecvSize, intLimit]
      omega)
    have joined : sent (events ++ [.bytes chunk .other true]) = sent events ++ chunk := by
      rw [sent_append]
      simp [sent]
    rw [← joined] at holdsNext whole
    refine ⟨events ++ [.bytes chunk .other true], next, answers ++ [()], offered.extend runEq last,
      run_concat runEq stepEq, holdsNext, ?_, by rw [whole, doubled]⟩
    rw [whole, maxSize, size, Nat.pow_succ, Nat.mul_assoc]

theorem sync_ask_negative :
    ∃ events address final, Guarded syncStep Offered (syncStart Heap.Blocks.empty) events ∧
      (sent events).length = 2684354560 ∧
      run syncStep (syncStart Heap.Blocks.empty) (events ++ [.closed true]) =
        .error (.returned (-1610612736) (some address) final) ∧ ¬ Answered Heap.Blocks.empty events := by
  obtain ⟨events, last, answers, offered, runEq, holds, size, -⟩ := syncHolds_filled Heap.Blocks.empty (Nat.le_refl 17)
  have total : (sent events).length = 2684354560 := size
  obtain ⟨address, content, final, finished, -, -⟩ := holds.finish (ne_nil_of_length_pos (by omega))
  rw [total] at finished
  have stopped : run syncStep (syncStart Heap.Blocks.empty) (events ++ [.closed true]) =
      .error (.returned (-1610612736) (some address) final) := by
    rw [run_stop runEq rfl, finished]
    rfl
  refine ⟨events, address, final, offered, total, stopped, ?_⟩
  rintro ⟨⟨_, _, _, returned, -, -⟩, -⟩
  rw [stopped, total] at returned
  simp at returned

end Libucmq.Http
