import Mathlib.Data.Sum.Basic
import Mathlib.Data.Nat.Find

/-! Unbounded loops as step functions. -/

namespace Loop

variable {σ ρ : Type}

def run (step : σ → σ ⊕ ρ) : Nat → σ → Option ρ
  | 0, _ => none
  | fuel + 1, state =>
    match step state with
    | .inl next => run step fuel next
    | .inr result => some result

inductive Steps (step : σ → σ ⊕ ρ) : Nat → σ → σ → Prop
  | refl (state) : Steps step 0 state state
  | next {count state middle final} : step state = .inl middle →
      Steps step count middle final → Steps step (count + 1) state final

def EndsIn (step : σ → σ ⊕ ρ) (count : Nat) (state : σ) (result : ρ) : Prop :=
  ∃ final, Steps step count state final ∧ step final = .inr result

variable {step : σ → σ ⊕ ρ}

theorem Steps.trans {first second : Nat} {start middle final : σ}
    (before : Steps step first start middle) (after : Steps step second middle final) :
    Steps step (first + second) start final := by
  induction before with
  | refl _ => simpa using after
  | next turn _ ih =>
    rw [Nat.add_right_comm]
    exact Steps.next turn (ih after)

theorem Steps.single {state next : σ} (turn : step state = .inl next) : Steps step 1 state next :=
  Steps.next turn (Steps.refl next)

theorem EndsIn.of_end {state : σ} {result : ρ} (ends : step state = .inr result) : EndsIn step 0 state result :=
  ⟨state, Steps.refl state, ends⟩

theorem EndsIn.of_steps {first second : Nat} {start middle : σ} {result : ρ}
    (before : Steps step first start middle) (after : EndsIn step second middle result) :
    EndsIn step (first + second) start result := by
  obtain ⟨final, steps, ends⟩ := after
  exact ⟨final, before.trans steps, ends⟩

theorem run_of_endsIn {count fuel : Nat} {state : σ} {result : ρ}
    (ends : EndsIn step count state result) (enough : count < fuel) : run step fuel state = some result := by
  obtain ⟨final, steps, last⟩ := ends
  induction steps generalizing fuel with
  | refl state =>
    cases fuel with
    | zero => omega
    | succ fuel => simp [run, last]
  | next turn _ ih =>
    cases fuel with
    | zero => omega
    | succ fuel =>
      simp only [run, turn]
      exact ih (by omega) last

theorem endsIn_of_run {fuel : Nat} {state : σ} {result : ρ}
    (returned : run step fuel state = some result) : ∃ count, count < fuel ∧ EndsIn step count state result := by
  induction fuel generalizing state with
  | zero => simp [run] at returned
  | succ fuel ih =>
    simp only [run] at returned
    cases turn : step state with
    | inl next =>
      simp only [turn] at returned
      obtain ⟨count, bound, final, steps, last⟩ := ih returned
      exact ⟨count + 1, by omega, final, Steps.next turn steps, last⟩
    | inr value =>
      simp only [turn, Option.some.injEq] at returned
      subst value
      exact ⟨0, by omega, EndsIn.of_end turn⟩

def After (holds : σ → Prop) (good : ρ → Prop) : σ ⊕ ρ → Prop
  | .inl next => holds next
  | .inr result => good result

theorem run_invariant {holds : σ → Prop} {good : ρ → Prop}
    (keeps : ∀ state, holds state → After holds good (step state)) {fuel : Nat} {state : σ} {result : ρ}
    (initial : holds state) (returned : run step fuel state = some result) : good result := by
  induction fuel generalizing state with
  | zero => simp [run] at returned
  | succ fuel ih =>
    have kept := keeps state initial
    simp only [run] at returned
    cases turn : step state with
    | inl next =>
      rw [turn] at kept returned
      exact ih kept returned
    | inr value =>
      rw [turn] at kept returned
      exact Option.some.inj returned ▸ kept

theorem Steps.invariant {holds : σ → Prop} {good : ρ → Prop}
    (keeps : ∀ state, holds state → After holds good (step state)) {count : Nat} {start final : σ}
    (initial : holds start) (steps : Steps step count start final) : holds final := by
  induction steps with
  | refl _ => exact initial
  | next turn _ ih =>
    have kept := keeps _ initial
    rw [turn] at kept
    exact ih kept

theorem EndsIn.invariant {holds : σ → Prop} {good : ρ → Prop}
    (keeps : ∀ state, holds state → After holds good (step state)) {count : Nat} {start : σ} {result : ρ}
    (initial : holds start) (ends : EndsIn step count start result) : good result := by
  obtain ⟨final, steps, last⟩ := ends
  have kept := keeps final (steps.invariant keeps initial)
  rw [last] at kept
  exact kept

theorem EndsIn.head {count : Nat} {start : σ} {result other : ρ}
    (ends : EndsIn step count start result) (turn : step start = .inr other) : result = other := by
  obtain ⟨final, steps, last⟩ := ends
  cases steps with
  | refl _ =>
    rw [turn] at last
    cases last
    rfl
  | next first _ =>
    rw [turn] at first
    cases first

theorem EndsIn.tail {count : Nat} {start next : σ} {result : ρ}
    (ends : EndsIn step count start result) (turn : step start = .inl next) :
    ∃ count, EndsIn step count next result := by
  obtain ⟨final, steps, last⟩ := ends
  cases steps with
  | refl _ =>
    rw [turn] at last
    cases last
  | next first steps =>
    rw [turn] at first
    cases first
    exact ⟨_, final, steps, last⟩

theorem endsIn_of_rank {holds : σ → Prop} {good : ρ → Prop} (rank : σ → Nat)
    (keeps : ∀ state, holds state → After (fun next => holds next ∧ rank next < rank state) good (step state))
    {bound : Nat} {state : σ} (initial : holds state) (ranked : rank state ≤ bound) :
    ∃ count result, count ≤ bound ∧ EndsIn step count state result ∧ good result := by
  induction bound generalizing state with
  | zero =>
    have kept := keeps state initial
    cases turn : step state with
    | inl next =>
      rw [turn] at kept
      exact absurd kept.2 (by omega)
    | inr result =>
      rw [turn] at kept
      exact ⟨0, result, Nat.le_refl 0, EndsIn.of_end turn, kept⟩
  | succ bound ih =>
    have kept := keeps state initial
    cases turn : step state with
    | inl next =>
      rw [turn] at kept
      obtain ⟨count, result, within, ends, right⟩ := ih kept.1 (by have := kept.2; omega)
      exact ⟨1 + count, result, by omega, EndsIn.of_steps (Steps.single turn) ends, right⟩
    | inr result =>
      rw [turn] at kept
      exact ⟨0, result, by omega, EndsIn.of_end turn, kept⟩

theorem endsIn_of_wellFounded {α : Type} [WellFoundedRelation α] {step : σ → σ ⊕ ρ} (rank : σ → α)
    (lowers : ∀ state, After (fun next => WellFoundedRelation.rel (rank next) (rank state)) (fun _ => True) (step state))
    (state : σ) : ∃ count result, EndsIn step count state result := by
  have order := InvImage.wf rank (WellFoundedRelation.wf (α := α))
  induction state using order.induction with
  | _ state ih =>
    have lower := lowers state
    cases turn : step state with
    | inl next =>
      rw [turn] at lower
      obtain ⟨count, result, ends⟩ := ih next lower
      exact ⟨1 + count, result, EndsIn.of_steps (Steps.single turn) ends⟩
    | inr result => exact ⟨0, result, EndsIn.of_end turn⟩

def Recurs (event : Nat → Prop) : Prop := ∀ count, ∃ later, count ≤ later ∧ event later

section

open Classical

noncomputable def gap {event : Nat → Prop} (recurs : Recurs event) (count : Nat) : Nat :=
  Nat.find (recurs count) - count

theorem gap_succ_lt {event : Nat → Prop} (recurs : Recurs event) {count : Nat} (other : ¬ event count) :
    gap recurs (count + 1) < gap recurs count := by
  obtain ⟨later, found⟩ := Nat.find_spec (recurs count)
  have apart : Nat.find (recurs count) ≠ count := by
    intro same
    rw [same] at found
    exact other found
  have earlier : Nat.find (recurs (count + 1)) ≤ Nat.find (recurs count) :=
    Nat.find_min' _ ⟨by omega, found⟩
  have next := (Nat.find_spec (recurs (count + 1))).1
  rw [gap, gap]
  omega

end

end Loop
