import Libucmq.Library.Loop
import Libucmq.Library.Memory

/-! The four transfer loops of `file.c`. -/

namespace Libucmq.Transfer

open Memory

inductive Direction
  | read | write
deriving DecidableEq, Repr

def Direction.event : Direction → Nat
  | .read => 1
  | .write => 4

inductive Errno
  | none | eintr | eagain | etimedout | other (code : Nat)
deriving DecidableEq, Repr

inductive CallResult
  | moved (limit : Nat)
  | failed (errno : Errno)
deriving DecidableEq, Repr

inductive PollResult
  | ready (revents : Nat)
  | failed (errno : Errno)
deriving DecidableEq, Repr

/-- Answers in the order of the calls, time left, and the bytes to read. -/
structure Kernel where
  call : Nat → CallResult
  poll : Nat → PollResult
  relTime : Nat → Int
  stream : Bytes

inductive Phase
  | top | poll | call
deriving DecidableEq, Repr

/-- `buf` is memory, `wire` what has passed; the rest counts calls. -/
structure State where
  phase : Phase
  buf : Bytes
  wire : List UInt8 := []
  total : Nat := 0
  clocks : Nat := 0
  polls : Nat := 0
  calls : Nat := 0

inductive Ret
  | failed (errno : Errno)
  | count (total : Nat)
deriving DecidableEq, Repr

def Ret.value : Ret → Int
  | .failed _ => -1
  | .count total => total

abbrev Outcome := State ⊕ (Ret × State)

namespace State

def move (direction : Direction) (stream : Bytes) (state : State) (count : Nat) : State :=
  match direction with
  | .read =>
    let chunk := load stream state.wire.length count
    { state with
      buf := store state.buf state.total chunk, wire := state.wire ++ chunk, total := state.total + count }
  | .write =>
    { state with wire := state.wire ++ load state.buf state.total count, total := state.total + count }

def test (size : Nat) (timeout : Int) (phase : Phase) (state : State) : Outcome :=
  if state.total < size ∧ timeout ≠ 0 then .inl { state with phase } else .inr (.count state.total, state)

def moved (direction : Direction) (stream : Bytes) (size : Nat) (timeout : Int) (phase : Phase) (limit : Nat)
    (state : State) : Outcome :=
  let count := min limit (size - state.total)
  if count = 0 then .inr (.count state.total, state)
  else (state.move direction stream count).test size timeout phase

def wait (direction : Direction) (kernel : Kernel) (ready : State → Outcome) (state : State) : Outcome :=
  let next := { state with polls := state.polls + 1 }
  match kernel.poll state.polls with
  | .failed .eintr => .inl next
  | .failed errno => .inr (.failed errno, next)
  | .ready revents =>
    if revents = direction.event then ready next
    else if revents = 0 then .inr (.failed .etimedout, next)
    else .inr (.failed .none, next)

end State

def blockStep (direction : Direction) (kernel : Kernel) (size : Nat) (timeout : Int) (state : State) : Outcome :=
  match state.phase with
  | .top =>
    let next := { state with clocks := state.clocks + 1 }
    if timeout > 0 ∧ kernel.relTime state.clocks ≤ 0 then .inr (.failed .etimedout, next)
    else .inl { next with phase := .poll }
  | .poll => state.wait direction kernel fun next => .inl { next with phase := .call }
  | .call =>
    let next := { state with calls := state.calls + 1 }
    match kernel.call state.calls with
    | .failed .eintr => .inl next
    | .failed errno => .inr (.failed errno, next)
    | .moved limit => next.moved direction kernel.stream size timeout .top limit

/-- Move, and wait only after `EAGAIN`; `EINTR` goes to the loop test. -/
def nonblockStep (direction : Direction) (kernel : Kernel) (size : Nat) (timeout : Int) (state : State) : Outcome :=
  match state.phase with
  | .top =>
    let next := { state with clocks := state.clocks + 1 }
    if timeout = 0 ∨ timeout > 0 ∧ kernel.relTime state.clocks ≤ 0 then .inr (.failed .etimedout, next)
    else .inl { next with phase := .poll }
  | .poll => state.wait direction kernel (State.test size timeout .call)
  | .call =>
    let next := { state with calls := state.calls + 1 }
    match kernel.call state.calls with
    | .failed .eintr => next.test size timeout .call
    | .failed .eagain => .inl { next with phase := .top }
    | .failed errno => .inr (.failed errno, next)
    | .moved limit => next.moved direction kernel.stream size timeout .call limit

section

variable (kernel : Kernel) (buf : Bytes) (size : Nat) (timeout : Int) (fuel : Nat)

def blockReadN : Option (Ret × State) :=
  Loop.run (blockStep .read kernel size timeout) fuel { phase := .top, buf }

def nonblockReadN : Option (Ret × State) :=
  Loop.run (nonblockStep .read kernel size timeout) fuel { phase := .call, buf }

def blockWriteN : Option (Ret × State) :=
  Loop.run (blockStep .write kernel size timeout) fuel { phase := .top, buf }

def nonblockWriteN : Option (Ret × State) :=
  Loop.run (nonblockStep .write kernel size timeout) fuel { phase := .call, buf }

end

/-- The first `count` bytes have been transferred, once and in order. -/
structure Exact (direction : Direction) (kernel : Kernel) (buf : Bytes) (count : Nat) (state : State) : Prop where
  wire : state.wire = load state.buf 0 count
  rest : ∀ place, count ≤ place → state.buf place = buf place
  source : match direction with
    | .read => state.wire = load kernel.stream 0 count
    | .write => state.buf = buf

structure InStep (direction : Direction) (kernel : Kernel) (buf : Bytes) (size : Nat) (state : State) : Prop where
  within : state.total ≤ size
  precise : Exact direction kernel buf state.total state

def Promised (direction : Direction) (kernel : Kernel) (buf : Bytes) (size : Nat) (timeout : Int)
    (returned : Ret × State) : Prop :=
  returned.1.value = -1 ∨
    ∃ count : Nat, returned.1.value = count ∧ count ≤ size ∧ Exact direction kernel buf count returned.2 ∧
      (timeout ≠ 0 → count < size → ∃ call < returned.2.calls, kernel.call call = .moved 0)

section

variable {direction : Direction} {kernel : Kernel} {buf : Bytes} {size : Nat} {timeout : Int} {state : State}

theorem InStep.same {other : State} (inStep : InStep direction kernel buf size state)
    (total : other.total = state.total) (buffer : other.buf = state.buf) (wire : other.wire = state.wire) :
    InStep direction kernel buf size other := by
  refine ⟨total ▸ inStep.within, ?_, ?_, ?_⟩
  · rw [wire, buffer, total]
    exact inStep.precise.wire
  · rw [buffer, total]
    exact inStep.precise.rest
  · rw [wire, buffer, total]
    exact inStep.precise.source

theorem InStep.move (inStep : InStep direction kernel buf size state) {count : Nat}
    (fits : state.total + count ≤ size) :
        InStep direction kernel buf size (state.move direction kernel.stream count) := by
  obtain ⟨_, wire, rest, source⟩ := inStep
  have length : state.wire.length = state.total := by rw [wire, load_length]
  cases direction with
  | read =>
    have front : load (store state.buf state.total (load kernel.stream state.total count)) 0 state.total =
        load state.buf 0 state.total :=
      load_congr fun place _ early => store_outside (Or.inl (by omega))
    have back : load (store state.buf state.total (load kernel.stream state.total count)) state.total count =
        load kernel.stream state.total count := by
      have held := load_of_holdsAt (holdsAt_store state.buf state.total (load kernel.stream state.total count))
      rwa [load_length] at held
    refine ⟨fits, ?_, ?_, ?_⟩
    · simp only [State.move, length]
      rw [load_append, Nat.zero_add, front, back, ← wire]
    · intro place late
      simp only [State.move, length] at late ⊢
      rw [store_outside (Or.inr (by rw [load_length]; exact late))]
      exact rest place (by omega)
    · simp only [State.move, length]
      rw [load_append, Nat.zero_add, ← source]
  | write =>
    refine ⟨fits, ?_, ?_, source⟩
    · simp only [State.move]
      rw [load_append, Nat.zero_add, ← wire]
    · intro place late
      simp only [State.move] at late ⊢
      exact rest place (by omega)

theorem Promised.failed (errno : Errno) (state : State) :
    Promised direction kernel buf size timeout (.failed errno, state) := Or.inl rfl

section

variable (inStep : InStep direction kernel buf size state)

include inStep

theorem InStep.test (phase : Phase) :
    Loop.After (InStep direction kernel buf size) (Promised direction kernel buf size timeout)
      (state.test size timeout phase) := by
  rw [State.test]
  split
  · exact inStep.same rfl rfl rfl
  · rename_i done
    refine Or.inr ⟨state.total, rfl, inStep.within, inStep.precise, fun limited less => ?_⟩
    exact absurd ⟨less, limited⟩ done

theorem InStep.moved (phase : Phase) {limit call : Nat}
    (made : call < state.calls) (answer : kernel.call call = .moved limit) :
    Loop.After (InStep direction kernel buf size) (Promised direction kernel buf size timeout)
      (state.moved direction kernel.stream size timeout phase limit) := by
  have within := inStep.within
  simp only [State.moved]
  split
  · refine Or.inr ⟨state.total, rfl, within, inStep.precise, fun _ less => ⟨call, made, ?_⟩⟩
    rw [answer, show limit = 0 by omega]
  · exact (inStep.move (by omega)).test phase

theorem InStep.wait {ready : State → Outcome}
    (goesOn : ∀ next, InStep direction kernel buf size next →
      Loop.After (InStep direction kernel buf size) (Promised direction kernel buf size timeout) (ready next)) :
    Loop.After (InStep direction kernel buf size) (Promised direction kernel buf size timeout)
      (state.wait direction kernel ready) := by
  have next : InStep direction kernel buf size { state with polls := state.polls + 1 } := inStep.same rfl rfl rfl
  simp only [State.wait]
  split
  · exact next
  · exact Promised.failed _ _
  · split
    · exact goesOn _ next
    · split <;> exact Promised.failed _ _

end

theorem InStep.blockStep (state : State) (inStep : InStep direction kernel buf size state) :
    Loop.After (InStep direction kernel buf size) (Promised direction kernel buf size timeout)
      (blockStep direction kernel size timeout state) := by
  rw [Transfer.blockStep]
  split
  · dsimp only
    split
    · exact Promised.failed _ _
    · exact inStep.same rfl rfl rfl
  · exact inStep.wait fun next kept => kept.same rfl rfl rfl
  · have next : InStep direction kernel buf size { state with calls := state.calls + 1 } := inStep.same rfl rfl rfl
    dsimp only
    split
    · exact next
    · exact Promised.failed _ _
    · rename_i answer
      exact next.moved _ (Nat.lt_succ_self _) answer

theorem InStep.nonblockStep (state : State) (inStep : InStep direction kernel buf size state) :
    Loop.After (InStep direction kernel buf size) (Promised direction kernel buf size timeout)
      (nonblockStep direction kernel size timeout state) := by
  rw [Transfer.nonblockStep]
  split
  · dsimp only
    split
    · exact Promised.failed _ _
    · exact inStep.same rfl rfl rfl
  · exact inStep.wait fun next kept => kept.test _
  · have next : InStep direction kernel buf size { state with calls := state.calls + 1 } := inStep.same rfl rfl rfl
    dsimp only
    split
    · exact next.test _
    · exact next.same rfl rfl rfl
    · exact Promised.failed _ _
    · rename_i answer
      exact next.moved _ (Nat.lt_succ_self _) answer

theorem inStep_start (phase : Phase) (size : Nat) : InStep direction kernel buf size { phase, buf } := by
  refine ⟨Nat.zero_le _, rfl, fun _ _ => rfl, ?_⟩
  cases direction <;> rfl

end

structure Kernel.Fair (kernel : Kernel) : Prop where
  calls : Loop.Recurs fun call => kernel.call call ≠ .failed .eintr ∧ kernel.call call ≠ .failed .eagain
  polls : Loop.Recurs fun poll => kernel.poll poll ≠ .failed .eintr

def Phase.rank : Phase → Nat
  | .top => 2
  | .poll => 1
  | .call => 0

section

variable {direction : Direction} {kernel : Kernel} {size : Nat} {timeout : Int}

noncomputable def rank (fair : kernel.Fair) (size : Nat) (state : State) : Nat × Nat × Nat × Nat :=
  (size - state.total, Loop.gap fair.calls state.calls, state.phase.rank, Loop.gap fair.polls state.polls)

def Lowers (fair : kernel.Fair) (size : Nat) (state : State) : Outcome → Prop :=
  Loop.After (fun next => WellFoundedRelation.rel (rank fair size next) (rank fair size state)) fun _ => True

variable {fair : kernel.Fair} {state : State} {next : State}

section

variable (total : next.total = state.total)

include total

theorem lowers_of_call (calls : Loop.gap fair.calls next.calls < Loop.gap fair.calls state.calls) :
    Lowers fair size state (.inl next) := by
  show Prod.Lex _ _ _ _
  rw [rank, rank, total]
  exact .right _ (.left _ _ calls)

theorem lowers_of_phase (calls : next.calls = state.calls)
    (phase : next.phase.rank < state.phase.rank) : Lowers fair size state (.inl next) := by
  show Prod.Lex _ _ _ _
  rw [rank, rank, total, calls]
  exact .right _ (.right _ (.left _ _ phase))

theorem lowers_of_poll (calls : next.calls = state.calls)
    (phase : next.phase = state.phase) (polls : Loop.gap fair.polls next.polls < Loop.gap fair.polls state.polls) :
    Lowers fair size state (.inl next) := by
  show Prod.Lex _ _ _ _
  rw [rank, rank, total, calls, phase]
  exact .right _ (.right _ (.right _ polls))

end

theorem lowers_of_total (total : size - next.total < size - state.total) :
    Lowers fair size state (.inl next) := .left _ _ total

theorem lowers_test {middle : State} {phase : Phase} (lower : Lowers fair size state (.inl { middle with phase })) :
    Lowers fair size state (middle.test size timeout phase) := by
  rw [State.test]
  split
  · exact lower
  · trivial

theorem lowers_moved {middle : State} {limit : Nat} {phase : Phase} (total : middle.total = state.total) :
    Lowers fair size state (middle.moved direction kernel.stream size timeout phase limit) := by
  simp only [State.moved]
  split
  · trivial
  · refine lowers_test (lowers_of_total ?_)
    cases direction <;> simp only [State.move] <;> omega

theorem lowers_wait {ready : State → Outcome}
    (goesOn : Lowers fair size state (ready { state with polls := state.polls + 1 })) :
    Lowers fair size state (state.wait direction kernel ready) := by
  simp only [State.wait]
  split
  · rename_i interrupted
    exact lowers_of_poll rfl rfl rfl (Loop.gap_succ_lt fair.polls fun other => other interrupted)
  · trivial
  · split
    · exact goesOn
    · split <;> trivial

theorem blockStep_lowers (state : State) : Lowers fair size state (blockStep direction kernel size timeout state) := by
  rw [blockStep]
  split
  · rename_i top
    dsimp only
    split
    · trivial
    · exact lowers_of_phase rfl rfl (by rw [top]; exact Nat.lt_succ_self 1)
  · rename_i poll
    exact lowers_wait (lowers_of_phase rfl rfl (by rw [poll]; exact Nat.lt_succ_self 0))
  · dsimp only
    split
    · rename_i interrupted
      exact lowers_of_call rfl (Loop.gap_succ_lt fair.calls fun other => other.1 interrupted)
    · trivial
    · exact lowers_moved rfl

theorem nonblockStep_lowers (state : State) :
    Lowers fair size state (nonblockStep direction kernel size timeout state) := by
  rw [nonblockStep]
  split
  · rename_i top
    dsimp only
    split
    · trivial
    · exact lowers_of_phase rfl rfl (by rw [top]; exact Nat.lt_succ_self 1)
  · rename_i poll
    exact lowers_wait (lowers_test (lowers_of_phase rfl rfl (by rw [poll]; exact Nat.lt_succ_self 0)))
  · dsimp only
    split
    · rename_i interrupted
      exact lowers_test (lowers_of_call rfl (Loop.gap_succ_lt fair.calls fun other => other.1 interrupted))
    · rename_i blocked
      exact lowers_of_call rfl (Loop.gap_succ_lt fair.calls fun other => other.2 blocked)
    · trivial
    · exact lowers_moved rfl

end

/-- What is returned is as promised, and a fair system makes it return. -/
def Transfers (direction : Direction) (kernel : Kernel) (buf : Bytes) (size : Nat) (timeout : Int)
    (call : Nat → Option (Ret × State)) : Prop :=
  (∀ fuel returned, call fuel = some returned → Promised direction kernel buf size timeout returned) ∧
    (kernel.Fair → ∃ fuel returned, call fuel = some returned)

theorem transfers_of_step {direction : Direction} {kernel : Kernel} {size : Nat} {timeout : Int}
    {step : State → Outcome} (buf : Bytes) (phase : Phase) (keeps : ∀ state, InStep direction kernel buf size state →
      Loop.After (InStep direction kernel buf size) (Promised direction kernel buf size timeout) (step state))
    (lowers : ∀ (fair : kernel.Fair) state, Lowers fair size state (step state)) :
    Transfers direction kernel buf size timeout fun fuel => Loop.run step fuel { phase, buf } := by
  refine ⟨fun fuel returned runEq => Loop.run_invariant keeps (inStep_start phase size) runEq, fun fair => ?_⟩
  obtain ⟨count, result, ends⟩ := Loop.endsIn_of_wellFounded (rank fair size) (lowers fair) { phase, buf }
  exact ⟨count + 1, result, Loop.run_of_endsIn ends (Nat.lt_succ_self count)⟩

/-- `-1` or the bytes transferred, with a timeout fewer only at the end. -/
theorem transfers_exact (kernel : Kernel) (buf : Bytes) (size : Nat) (timeout : Int) :
    Transfers .read kernel buf size timeout (blockReadN kernel buf size timeout) ∧
      Transfers .read kernel buf size timeout (nonblockReadN kernel buf size timeout) ∧
      Transfers .write kernel buf size timeout (blockWriteN kernel buf size timeout) ∧
      Transfers .write kernel buf size timeout (nonblockWriteN kernel buf size timeout) :=
  ⟨transfers_of_step buf .top InStep.blockStep fun _ => blockStep_lowers,
    transfers_of_step buf .call InStep.nonblockStep fun _ => nonblockStep_lowers,
    transfers_of_step buf .top InStep.blockStep fun _ => blockStep_lowers,
    transfers_of_step buf .call InStep.nonblockStep fun _ => nonblockStep_lowers⟩

end Libucmq.Transfer
