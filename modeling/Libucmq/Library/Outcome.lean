import Mathlib.Logic.Basic

/-! Computations that may stop with an error, taken apart at their steps. -/

namespace Outcome

variable {ε α β : Type} {first : Except ε α} {second : α → Except ε β} {result : β} {stop : ε}

theorem ok_bind (value : α) (second : α → Except ε β) : (Except.ok value >>= second) = second value := rfl

theorem bind_ok_iff : first >>= second = .ok result ↔ ∃ middle, first = .ok middle ∧ second middle = .ok result := by
  cases first with
  | error stop => simp [bind, Except.bind]
  | ok middle => simp [bind, Except.bind]

theorem bind_error_iff : first >>= second = .error stop ↔
      first = .error stop ∨ ∃ middle, first = .ok middle ∧ second middle = .error stop := by
  cases first with
  | error other => simp [bind, Except.bind]
  | ok middle => simp [bind, Except.bind]

theorem map_ok_iff {change : α → β} :
    first.map change = .ok result ↔ ∃ middle, first = .ok middle ∧ change middle = result := by
  cases first with
  | error stop => simp [Except.map]
  | ok middle => simp [Except.map]

theorem foldlM_range_ok {step : α → Nat → Except ε α} {start : α} {count : Nat} (holds : Nat → α → Prop)
    (initial : holds 0 start)
    (turn : ∀ i state, i < count → holds i state → ∃ next, step state i = .ok next ∧ holds (i + 1) next) :
    ∃ final, (List.range count).foldlM step start = .ok final ∧ holds count final := by
  induction count with
  | zero => exact ⟨start, rfl, initial⟩
  | succ count ih =>
    obtain ⟨middle, before, kept⟩ := ih fun i state bound => turn i state (by omega)
    obtain ⟨final, last, done⟩ := turn count middle (by omega) kept
    refine ⟨final, ?_, done⟩
    rw [List.range_succ, List.foldlM_append, before]
    simp only [List.foldlM_cons, List.foldlM_nil, ok_bind, last, bind_pure]

/-- Every turn of a loop that came to its end did, in a state with what the turns keep. -/
theorem foldlM_ok_turns {step : α → β → Except ε α} {start final : α} {turns : List β} (kept : α → Prop)
    (initial : kept start) (keeps : ∀ state turn next, kept state → step state turn = .ok next → kept next)
    (done : turns.foldlM step start = .ok final) :
    ∀ turn ∈ turns, ∃ state next, kept state ∧ step state turn = .ok next := by
  induction turns generalizing start with
  | nil => simp
  | cons turn turns ih =>
      rw [List.foldlM_cons] at done
      obtain ⟨next, first, later⟩ := bind_ok_iff.mp done
      rw [List.forall_mem_cons]
      exact ⟨⟨start, next, initial, first⟩, ih (keeps start turn next initial first) later⟩

theorem foldlM_ok_kept {step : α → β → Except ε α} {start final : α} {turns : List β} (kept : α → Prop)
    (initial : kept start) (keeps : ∀ state turn next, kept state → step state turn = .ok next → kept next)
    (done : turns.foldlM step start = .ok final) : kept final := by
  induction turns generalizing start with
  | nil =>
      cases done
      exact initial
  | cons turn turns ih =>
      rw [List.foldlM_cons] at done
      obtain ⟨next, first, later⟩ := bind_ok_iff.mp done
      exact ih (keeps start turn next initial first) later

end Outcome
