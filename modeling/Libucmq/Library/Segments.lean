import Mathlib.Data.List.Basic

/-! A queue kept as a sequence of numbered segments. -/

namespace Segments

variable {α : Type}

/-- `done` of the first segment has been taken, `rest` and `more` have not. -/
structure Log (α : Type) where
  first : Nat
  done : List α
  rest : List α
  more : List (List α)

namespace Log

def pending (log : Log α) : List α := log.rest ++ log.more.flatten

def last (log : Log α) : Nat := log.first + log.more.length

def segment (log : Log α) : Nat → List α
  | 0 => log.done ++ log.rest
  | offset + 1 => log.more.getD offset []

def tail (log : Log α) : List α := log.segment log.more.length

def append (log : Log α) (item : α) : Log α :=
  match log.more.getLast? with
  | none => { log with rest := log.rest ++ [item] }
  | some segment => { log with more := log.more.dropLast ++ [segment ++ [item]] }

def roll (log : Log α) : Log α := { log with more := log.more ++ [[]] }

def settleFrom : Nat → List α → List α → List (List α) → Log α
  | first, _, [], next :: more => settleFrom (first + 1) [] next more
  | first, done, rest, more => { first, done, rest, more }

def settle (log : Log α) : Log α := settleFrom log.first log.done log.rest log.more

def take (log : Log α) : Option (α × Log α) :=
  let log := log.settle
  match log.rest with
  | [] => none
  | item :: rest => some (item, { log with done := log.done ++ [item], rest })

@[simp] theorem append_first (log : Log α) (item : α) : (log.append item).first = log.first := by
  unfold append
  split <;> rfl

@[simp] theorem append_done (log : Log α) (item : α) : (log.append item).done = log.done := by
  unfold append
  split <;> rfl

theorem more_snoc {log : Log α} {segment : List α} (found : log.more.getLast? = some segment) :
    log.more = log.more.dropLast ++ [segment] := by
  obtain ⟨_, same⟩ := List.getLast?_eq_some_iff.mp found
  simp [same]

section

variable (log : Log α)

include log

@[simp] theorem append_more_length (item : α) : (log.append item).more.length = log.more.length := by
  unfold append
  split
  · rfl
  · rename_i segment found
    conv_rhs => rw [more_snoc found]
    simp

@[simp] theorem append_pending (item : α) : (log.append item).pending = log.pending ++ [item] := by
  unfold append
  split
  · rename_i none
    simp [pending, List.getLast?_eq_none_iff.mp none]
  · rename_i segment found
    simp only [pending]
    conv_rhs => rw [more_snoc found]
    simp

theorem append_segment (item : α) {offset : Nat} (bound : offset ≤ log.more.length) :
    (log.append item).segment offset =
      if offset = log.more.length then log.segment offset ++ [item] else log.segment offset := by
  unfold append
  split
  · rename_i none
    have empty := List.getLast?_eq_none_iff.mp none
    simp only [empty, List.length_nil, Nat.le_zero] at bound
    subst bound
    simp [segment, empty]
  · rename_i segment found
    obtain ⟨front, same⟩ := List.getLast?_eq_some_iff.mp found
    simp only [same, List.length_append, List.length_singleton] at bound ⊢
    cases offset with
    | zero => simp [Log.segment]
    | succ offset =>
      by_cases final : offset = front.length
      · simp [Log.segment, same, final]
      · have early : offset < front.length := by omega
        simp [Log.segment, same, early, List.getElem?_append_left, final]

theorem append_tail (item : α) : (log.append item).tail = log.tail ++ [item] := by
  simp [tail, append_segment]

@[simp] theorem roll_pending : log.roll.pending = log.pending := by
  simp [roll, pending]

theorem roll_last : log.roll.last = log.last + 1 := by
  simp [Log.roll, Log.last, Nat.add_assoc]

@[simp] theorem roll_tail : log.roll.tail = [] := by
  simp [roll, tail, segment]

theorem roll_segment {offset : Nat} (bound : offset ≤ log.more.length) :
    log.roll.segment offset = log.segment offset := by
  cases offset with
  | zero => rfl
  | succ offset => simp [roll, segment, List.getElem?_append_left (show offset < log.more.length by omega)]

end

section Behind

variable {log : Log α} {next : List α} {more : List (List α)}

theorem segment_behind (later : log.more = next :: more) (offset : Nat) :
    ({ first := log.first + 1, done := [], rest := next, more } : Log α).segment offset = log.segment (offset + 1) := by
  cases offset with
  | zero => simp [segment, later]
  | succ offset => simp [segment, later]

theorem last_behind (later : log.more = next :: more) :
    ({ first := log.first + 1, done := [], rest := next, more } : Log α).last = log.last := by
  simp only [last, later, List.length_cons]
  omega

theorem tail_behind (later : log.more = next :: more) :
    ({ first := log.first + 1, done := [], rest := next, more } : Log α).tail = log.tail := by
  rw [tail, segment_behind later, tail, later, List.length_cons]

end Behind

theorem settleFrom_pending (first : Nat) (done rest : List α) (more : List (List α)) :
    (settleFrom first done rest more).pending = rest ++ more.flatten := by
  fun_induction settleFrom first done rest more with
  | case1 first done next more ih => simpa using ih
  | case2 first done rest more _ => rfl

@[simp] theorem settle_pending (log : Log α) : log.settle.pending = log.pending :=
  settleFrom_pending log.first log.done log.rest log.more

theorem settleFrom_last (first : Nat) (done rest : List α) (more : List (List α)) :
    (settleFrom first done rest more).last = first + more.length := by
  fun_induction settleFrom first done rest more with
  | case1 first done next more ih =>
    rw [ih]
    simp
    omega
  | case2 first done rest more _ => rfl

@[simp] theorem settle_last (log : Log α) : log.settle.last = log.last :=
  settleFrom_last log.first log.done log.rest log.more

theorem settleFrom_tail (first : Nat) (done rest : List α) (more : List (List α)) :
    (settleFrom first done rest more).tail = tail { first, done, rest, more } := by
  fun_induction settleFrom first done rest more with
  | case1 first done next more ih =>
    rw [ih]
    cases more with
    | nil => simp [tail, segment]
    | cons later more => simp [tail, segment]
  | case2 first done rest more _ => rfl

@[simp] theorem settle_tail (log : Log α) : log.settle.tail = log.tail :=
  settleFrom_tail log.first log.done log.rest log.more

theorem settleFrom_rest (first : Nat) (done rest : List α) (more : List (List α))
    (exhausted : (settleFrom first done rest more).rest = []) : (settleFrom first done rest more).more = [] := by
  fun_induction settleFrom first done rest more with
  | case1 first done next more ih => exact ih exhausted
  | case2 first done rest more distinct =>
    cases more with
    | nil => rfl
    | cons next more => exact absurd rfl (distinct next more exhausted)

theorem settle_first {log : Log α} (exhausted : log.settle.rest = []) : log.settle.first = log.last := by
  have alone : log.settle.more = [] := settleFrom_rest log.first log.done log.rest log.more exhausted
  rw [← log.settle_last, last, alone]
  rfl

variable {item : α}

theorem settle_waiting {log : Log α} {rest : List α} (waiting : log.rest = item :: rest) : log.settle = log := by
  rw [settle, waiting, settleFrom]
  · rw [← waiting]
  · simp

theorem settle_alone {log : Log α} (alone : log.more = []) : log.settle = log := by
  rw [settle, alone, settleFrom]
  · rw [← alone]
  · simp

theorem settle_step {log : Log α} {next : List α} {more : List (List α)} (exhausted : log.rest = [])
    (later : log.more = next :: more) :
    log.settle = settle { first := log.first + 1, done := [], rest := next, more } := by
  rw [settle, exhausted, later, settleFrom]
  rfl

theorem take_waiting {log : Log α} {rest : List α} (waiting : log.rest = item :: rest) :
    log.take = some (item, { log with done := log.done ++ [item], rest }) := by
  simp [take, settle_waiting waiting, waiting]

theorem take_step {log : Log α} {next : List α} {more : List (List α)} (exhausted : log.rest = [])
    (later : log.more = next :: more) :
    log.take = take { first := log.first + 1, done := [], rest := next, more } := by
  rw [take, take, settle_step exhausted later]

theorem take_none {log : Log α} : log.take = none ↔ log.pending = [] := by
  rw [← settle_pending]
  unfold take
  cases found : log.settle.rest with
  | nil =>
    have alone : log.settle.more = [] := settleFrom_rest _ _ _ _ found
    simp [pending, found, alone]
  | cons item rest => simp [pending, found]

variable {log next : Log α}

section

variable (taken : log.take = some (item, next))

include taken

theorem take_settle :
    ∃ rest, log.settle.rest = item :: rest ∧
      next = { log.settle with done := log.settle.done ++ [item], rest } := by
  unfold take at taken
  cases found : log.settle.rest with
  | nil => simp [found] at taken
  | cons first rest =>
    simp only [found, Option.some.injEq, Prod.mk.injEq] at taken
    obtain ⟨rfl, rfl⟩ := taken
    exact ⟨rest, rfl, rfl⟩

theorem take_some : log.pending = item :: next.pending := by
  obtain ⟨rest, found, rfl⟩ := take_settle taken
  rw [← settle_pending]
  simp [pending, found]

theorem take_tail : next.tail = log.tail := by
  obtain ⟨rest, found, rfl⟩ := take_settle taken
  rw [← settle_tail log]
  cases more : log.settle.more with
  | nil => simp [tail, segment, more, found]
  | cons later others => simp [tail, segment, more]

theorem take_last : next.last = log.last := by
  obtain ⟨rest, _, rfl⟩ := take_settle taken
  exact settle_last log

end

end Log

end Segments
