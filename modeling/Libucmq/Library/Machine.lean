import Mathlib.Data.List.Basic

/-! Runs of a deterministic machine that may stop abnormally. -/

namespace Machine

open List Function

variable {σ ι ο ε α : Type}

def run (step : σ → ι → Except ε (σ × ο)) : σ → List ι → Except ε (σ × List ο)
  | state, [] => .ok (state, [])
  | state, input :: rest =>
    match step state input with
    | .error stop => .error stop
    | .ok (next, answer) =>
      match run step next rest with
      | .error stop => .error stop
      | .ok (final, answers) => .ok (final, answer :: answers)

def Guarded (step : σ → ι → Except ε (σ × ο)) (guard : σ → ι → Prop) : σ → List ι → Prop
  | _, [] => True
  | state, input :: rest =>
    guard state input ∧
      ∀ next answer, step state input = .ok (next, answer) → Guarded step guard next rest

@[simp] theorem run_nil (step : σ → ι → Except ε (σ × ο)) (state : σ) :
    run step state [] = .ok (state, []) := rfl

variable {step : σ → ι → Except ε (σ × ο)}

theorem run_cons {state next final : σ} {input : ι} {rest : List ι} {answer : ο} {answers : List ο}
    (first : step state input = .ok (next, answer)) (later : run step next rest = .ok (final, answers)) :
    run step state (input :: rest) = .ok (final, answer :: answers) := by
  simp [run, first, later]

theorem run_cons_ok {state final : σ} {input : ι} {rest : List ι}
    {answers : List ο} (returned : run step state (input :: rest) = .ok (final, answers)) :
    ∃ next answer later, step state input = .ok (next, answer) ∧ run step next rest = .ok (final, later) ∧
      answers = answer :: later := by
  simp only [run] at returned
  cases stepEq : step state input with
  | error stop => simp [stepEq] at returned
  | ok pair =>
    cases runEq : run step pair.1 rest with
    | error stop => simp [stepEq, runEq] at returned
    | ok result =>
      simp only [stepEq, runEq, Except.ok.injEq, Prod.mk.injEq] at returned
      obtain ⟨rfl, rfl⟩ := returned
      exact ⟨pair.1, pair.2, result.2, rfl, runEq, rfl⟩

theorem run_cons_error {state : σ} {input : ι} {rest : List ι} {stop : ε}
    (stopped : run step state (input :: rest) = .error stop) : step state input = .error stop ∨
      ∃ next answer, step state input = .ok (next, answer) ∧ run step next rest = .error stop := by
  simp only [run] at stopped
  cases stepEq : step state input with
  | error other => exact .inl (by simpa [stepEq] using stopped)
  | ok pair =>
    refine .inr ⟨pair.1, pair.2, rfl, ?_⟩
    cases runEq : run step pair.1 rest with
    | error other => simpa [stepEq, runEq] using stopped
    | ok result => simp [stepEq, runEq] at stopped

theorem run_error {state : σ} {inputs : List ι} {stop : ε} (stopped : run step state inputs = .error stop) :
    ∃ before input after middle answers, inputs = before ++ input :: after ∧
      run step state before = .ok (middle, answers) ∧ step middle input = .error stop := by
  induction inputs generalizing state with
  | nil => cases stopped
  | cons input rest ih =>
    obtain here | ⟨next, answer, stepEq, later⟩ := run_cons_error stopped
    · exact ⟨[], input, rest, state, [], rfl, rfl, here⟩
    · obtain ⟨before, last, after, middle, answers, rfl, runEq, here⟩ := ih later
      exact ⟨input :: before, last, after, middle, answer :: answers, rfl, run_cons stepEq runEq, here⟩

theorem final_cons (step : σ → ι → Except ε (σ × ο)) (state : σ) (input : ι) (rest : List ι) :
    (run step state (input :: rest)).map Prod.fst =
      (step state input).bind fun result => (run step result.1 rest).map Prod.fst := by
  rw [run]
  cases step state input with
  | error stop => rfl
  | ok result =>
    cases later : run step result.1 rest with
    | error stop => simp only [Except.bind, later, Except.map]
    | ok final => simp only [Except.bind, later, Except.map]

theorem run_append {state middle final : σ}
    {inputs more : List ι} {answers moreAnswers : List ο} (first : run step state inputs = .ok (middle, answers))
    (second : run step middle more = .ok (final, moreAnswers)) :
    run step state (inputs ++ more) = .ok (final, answers ++ moreAnswers) := by
  induction inputs generalizing state answers with
  | nil =>
    simp only [run_nil, Except.ok.injEq, Prod.mk.injEq] at first
    obtain ⟨rfl, rfl⟩ := first
    simpa using second
  | cons input rest ih =>
    obtain ⟨next, answer, later, stepEq, runEq, rfl⟩ := run_cons_ok first
    simpa using run_cons stepEq (ih runEq)

theorem run_concat {state middle final : σ} {inputs : List ι} {answers : List ο} {last : ι} {answer : ο}
    (first : run step state inputs = .ok (middle, answers)) (second : step middle last = .ok (final, answer)) :
    run step state (inputs ++ [last]) = .ok (final, answers ++ [answer]) :=
  run_append first (run_cons second (run_nil step final))

theorem run_stop {state middle : σ} {inputs : List ι} {answers : List ο}
    {last : ι} {stop : ε} (first : run step state inputs = .ok (middle, answers))
    (second : step middle last = .error stop) : run step state (inputs ++ [last]) = .error stop := by
  induction inputs generalizing state answers with
  | nil =>
    cases first
    simp [run, second]
  | cons input rest ih =>
    obtain ⟨next, answer, later, stepEq, runEq, -⟩ := run_cons_ok first
    simp [run, stepEq, ih runEq]

theorem run_invariant {guard : σ → ι → Prop} {invariant : σ → Prop}
    (keeps : ∀ state input, invariant state → guard state input →
      ∃ next answer, step state input = .ok (next, answer) ∧ invariant next)
    {state : σ} {inputs : List ι} (initial : invariant state) (guarded : Guarded step guard state inputs) :
    ∃ final answers, run step state inputs = .ok (final, answers) ∧ invariant final := by
  induction inputs generalizing state with
  | nil => exact ⟨state, [], rfl, initial⟩
  | cons input rest ih =>
    obtain ⟨next, answer, stepEq, kept⟩ := keeps state input initial guarded.1
    obtain ⟨final, answers, runEq, holds⟩ := ih kept (guarded.2 next answer stepEq)
    exact ⟨final, answer :: answers, run_cons stepEq runEq, holds⟩

theorem run_keeps {invariant : σ → Prop}
    (keeps : ∀ state input next answer, invariant state → step state input = .ok (next, answer) → invariant next)
    {state final : σ} {inputs : List ι} {answers : List ο} (initial : invariant state)
    (returned : run step state inputs = .ok (final, answers)) : invariant final := by
  induction inputs generalizing state answers with
  | nil =>
    simp only [run_nil, Except.ok.injEq, Prod.mk.injEq] at returned
    exact returned.1 ▸ initial
  | cons input rest ih =>
    obtain ⟨next, answer, later, stepEq, runEq, -⟩ := run_cons_ok returned
    exact ih (keeps state input next answer initial stepEq) runEq

theorem run_answers {invariant : σ → Prop} {good : ο → Prop}
    (keeps : ∀ state input next answer, invariant state → step state input = .ok (next, answer) →
      invariant next ∧ good answer) {state final : σ} {inputs : List ι} {answers : List ο} (initial : invariant state)
    (returned : run step state inputs = .ok (final, answers)) : ∀ answer ∈ answers, good answer := by
  induction inputs generalizing state answers with
  | nil =>
    simp only [run_nil, Except.ok.injEq, Prod.mk.injEq] at returned
    simp [← returned.2]
  | cons input rest ih =>
    obtain ⟨next, answer, later, stepEq, runEq, rfl⟩ := run_cons_ok returned
    obtain ⟨kept, right⟩ := keeps state input next answer initial stepEq
    exact forall_mem_cons.mpr ⟨right, ih kept runEq⟩

theorem run_history {guard : σ → ι → Prop}
    {invariant : List (ι × ο) → σ → Prop} {stops : ε → Prop}
    (keeps : ∀ history state input, invariant history state → guard state input →
      (∃ next answer, step state input = .ok (next, answer) ∧ invariant (history ++ [(input, answer)]) next) ∨
      ∃ stop, step state input = .error stop ∧ stops stop)
    {history : List (ι × ο)} {state : σ} {inputs : List ι} (initial : invariant history state)
    (guarded : Guarded step guard state inputs) : (∃ final answers, run step state inputs = .ok (final, answers) ∧
      invariant (history ++ inputs.zip answers) final) ∨
    ∃ stop, run step state inputs = .error stop ∧ stops stop := by
  induction inputs generalizing history state with
  | nil => exact Or.inl ⟨state, [], rfl, by simpa using initial⟩
  | cons input rest ih =>
    rcases keeps history state input initial guarded.1 with ⟨next, answer, stepEq, kept⟩ | ⟨stop, stepEq, allowed⟩
    · rcases ih kept (guarded.2 next answer stepEq) with ⟨final, answers, runEq, holds⟩ | ⟨stop, runEq, allowed⟩
      · exact Or.inl ⟨final, answer :: answers, run_cons stepEq runEq, by simpa using holds⟩
      · exact Or.inr ⟨stop, by simp [run, stepEq, runEq], allowed⟩
    · exact Or.inr ⟨stop, by simp [run, stepEq], allowed⟩

def specRun (spec : α → ι → α × ο) : α → List ι → α × List ο
  | model, [] => (model, [])
  | model, input :: rest =>
    let first := spec model input
    let later := specRun spec first.1 rest
    (later.1, first.2 :: later.2)

theorem specRun_concat (spec : α → ι → α × ο) (model : α) (inputs : List ι) (last : ι) :
    specRun spec model (inputs ++ [last]) = ((spec (specRun spec model inputs).1 last).1,
        (specRun spec model inputs).2 ++ [(spec (specRun spec model inputs).1 last).2]) := by
  induction inputs generalizing model with
  | nil => rfl
  | cons input rest ih => simp only [cons_append, specRun, ih]

theorem run_simulation {guard : σ → ι → Prop}
    {spec : α → ι → α × ο} {related : σ → α → Prop}
    (simulates : ∀ state model input, related state model → guard state input →
      ∃ next, step state input = .ok (next, (spec model input).2) ∧ related next (spec model input).1)
    {state : σ} {model : α} {inputs : List ι} (initial : related state model)
    (guarded : Guarded step guard state inputs) :
    ∃ final, run step state inputs = .ok (final, (specRun spec model inputs).2) ∧
      related final (specRun spec model inputs).1 := by
  induction inputs generalizing state model with
  | nil => exact ⟨state, rfl, initial⟩
  | cons input rest ih =>
    obtain ⟨next, stepEq, kept⟩ := simulates state model input initial guarded.1
    obtain ⟨final, runEq, holds⟩ := ih kept (guarded.2 next _ stepEq)
    exact ⟨final, run_cons stepEq runEq, holds⟩

theorem run_agree {guard : σ → ι → Prop} {related : σ → σ → Prop}
    (agrees : ∀ left right input, related left right → guard left input →
      ∃ nextLeft nextRight answer, step left input = .ok (nextLeft, answer) ∧
        step right input = .ok (nextRight, answer) ∧ related nextLeft nextRight)
    {left right : σ} {inputs : List ι} (initial : related left right) (guarded : Guarded step guard left inputs) :
    ∃ finalLeft finalRight answers, run step left inputs = .ok (finalLeft, answers) ∧
      run step right inputs = .ok (finalRight, answers) ∧ related finalLeft finalRight := by
  induction inputs generalizing left right with
  | nil => exact ⟨left, right, [], rfl, rfl, initial⟩
  | cons input rest ih =>
    obtain ⟨nextLeft, nextRight, answer, leftEq, rightEq, kept⟩ :=
      agrees left right input initial guarded.1
    obtain ⟨finalLeft, finalRight, answers, leftRun, rightRun, holds⟩ :=
      ih kept (guarded.2 nextLeft answer leftEq)
    exact ⟨finalLeft, finalRight, answer :: answers, run_cons leftEq leftRun, run_cons rightEq rightRun,
      holds⟩

theorem map_run_cons {left right nextLeft nextRight : σ} {input : ι} {rest : List ι} {answer : ο}
    (leftEq : step left input = .ok (nextLeft, answer)) (rightEq : step right input = .ok (nextRight, answer))
    (later : (run step nextLeft rest).map Prod.snd = (run step nextRight rest).map Prod.snd) :
    (run step left (input :: rest)).map Prod.snd = (run step right (input :: rest)).map Prod.snd := by
  simp only [run, leftEq, rightEq]
  cases leftRun : run step nextLeft rest <;> cases rightRun : run step nextRight rest <;>
    simp_all [Except.map]

theorem run_indistinct {allowed : ι → Prop} {related : σ → σ → Prop}
    (agrees : ∀ left right input, related left right → allowed input →
      (∃ stop, step left input = .error stop ∧ step right input = .error stop) ∨
      ∃ nextLeft nextRight answer, step left input = .ok (nextLeft, answer) ∧
        step right input = .ok (nextRight, answer) ∧ related nextLeft nextRight)
    {left right : σ} {inputs : List ι} (initial : related left right) (every : ∀ input ∈ inputs, allowed input) :
    (run step left inputs).map Prod.snd = (run step right inputs).map Prod.snd := by
  induction inputs generalizing left right with
  | nil => rfl
  | cons input rest ih =>
    rcases agrees left right input initial (every input mem_cons_self) with
      ⟨stop, leftEq, rightEq⟩ | ⟨nextLeft, nextRight, answer, leftEq, rightEq, kept⟩
    · simp only [run, leftEq, rightEq]
    · exact map_run_cons leftEq rightEq (ih kept fun input member => every input (mem_cons_of_mem _ member))

section Family

variable {κ : Type} [DecidableEq κ]

def family (step : κ → σ → ι → Except ε (σ × ο)) (states : κ → σ) (input : κ × ι) :
    Except ε ((κ → σ) × ο) :=
  (step input.1 (states input.1) input.2).map fun result => (update states input.1 result.1, result.2)

def inputsOf (key : κ) (inputs : List (κ × ι)) : List ι :=
  (inputs.filter fun input => input.1 = key).map Prod.snd

def answersOf (key : κ) (inputs : List (κ × ι)) (answers : List ο) : List ο :=
  ((inputs.zip answers).filter fun pair => pair.1.1 = key).map Prod.snd

theorem run_family {step : κ → σ → ι → Except ε (σ × ο)} {states final : κ → σ} {inputs : List (κ × ι)}
    {answers : List ο} (returned : run (family step) states inputs = .ok (final, answers)) (key : κ) :
    run (step key) (states key) (inputsOf key inputs) = .ok (final key, answersOf key inputs answers) := by
  induction inputs generalizing states answers with
  | nil =>
    simp only [run_nil, Except.ok.injEq, Prod.mk.injEq] at returned
    obtain ⟨rfl, rfl⟩ := returned
    rfl
  | cons input rest ih =>
    obtain ⟨place, input⟩ := input
    obtain ⟨_, answer, restAnswers, firstEq, runEq, rfl⟩ := run_cons_ok returned
    cases stepEq : step place (states place) input with
    | error stop => simp [family, stepEq, Except.map] at firstEq
    | ok result =>
      obtain ⟨next, answer⟩ := result
      simp only [family, stepEq, Except.map, Except.ok.injEq, Prod.mk.injEq] at firstEq
      obtain ⟨rfl, rfl⟩ := firstEq
      have later := ih runEq
      by_cases same : place = key
      · subst same
        rw [update_self] at later
        simpa [inputsOf, answersOf] using run_cons stepEq later
      · rw [update_of_ne (Ne.symm same)] at later
        simpa [inputsOf, answersOf, same] using later

end Family

def Always (step : σ → ι → Except ε (σ × ο)) (good : σ → Prop) : σ → List ι → Prop
  | state, [] => good state
  | state, input :: rest =>
    good state ∧ ∃ next answer, step state input = .ok (next, answer) ∧ Always step good next rest

theorem Always.here {good : σ → Prop} {state : σ} {inputs : List ι}
    (always : Always step good state inputs) : good state := by
  cases inputs with
  | nil => exact always
  | cons input rest => exact always.1

theorem always_iff {good invariant : σ → Prop} {valid guard : σ → ι → Prop}
    (single : ∀ state input, invariant state → good state → valid state input →
      ((∃ next answer, step state input = .ok (next, answer) ∧ good next) ↔ guard state input))
    (keeps : ∀ state input next answer, invariant state → valid state input →
      step state input = .ok (next, answer) → invariant next)
    {state : σ} {inputs : List ι} (kept : invariant state) (initial : good state)
    (validRun : Guarded step valid state inputs) :
    Always step good state inputs ↔ Guarded step guard state inputs := by
  induction inputs generalizing state with
  | nil => exact iff_of_true initial trivial
  | cons input rest ih =>
    have rule := single state input kept initial validRun.1
    constructor
    · rintro ⟨-, next, answer, stepEq, always⟩
      refine ⟨rule.mp ⟨next, answer, stepEq, always.here⟩, fun other same otherEq => ?_⟩
      rw [stepEq] at otherEq
      cases otherEq
      exact (ih (keeps state input next answer kept validRun.1 stepEq) always.here
        (validRun.2 next answer stepEq)).mp always
    · rintro ⟨allowed, later⟩
      obtain ⟨next, answer, stepEq, goodNext⟩ := rule.mpr allowed
      exact ⟨initial, next, answer, stepEq, (ih (keeps state input next answer kept validRun.1 stepEq) goodNext
        (validRun.2 next answer stepEq)).mpr (later next answer stepEq)⟩

theorem guarded_of_forall_state {guard : σ → ι → Prop} {state : σ} {inputs : List ι}
    (all : ∀ state, ∀ input ∈ inputs, guard state input) : Guarded step guard state inputs := by
  induction inputs generalizing state with
  | nil => trivial
  | cons input rest ih =>
    exact ⟨all state input mem_cons_self, fun next answer stepEq =>
      ih fun state other mem => all state other (mem_cons_of_mem _ mem)⟩

theorem guarded_of_forall {allowed : ι → Prop} {state : σ} {inputs : List ι}
    (all : ∀ input ∈ inputs, allowed input) : Guarded step (fun _ input => allowed input) state inputs :=
  guarded_of_forall_state fun _ => all

theorem guarded_cons_iff {guard : σ → ι → Prop} {state next : σ}
    {input : ι} {answer : ο} {rest : List ι} (stepEq : step state input = .ok (next, answer)) :
    Guarded step guard state (input :: rest) ↔ guard state input ∧ Guarded step guard next rest := by
  refine and_congr_right fun _ => ⟨fun all => all next answer stepEq, fun guarded other same otherEq => ?_⟩
  rw [stepEq] at otherEq
  cases otherEq
  exact guarded

theorem Guarded.concat {guard : σ → ι → Prop} {state : σ} {inputs : List ι}
    {last : ι} (guarded : Guarded step guard state (inputs ++ [last])) : Guarded step guard state inputs ∧
      ∀ middle answers, run step state inputs = .ok (middle, answers) → guard middle last := by
  induction inputs generalizing state with
  | nil =>
    refine ⟨trivial, fun middle answers returned => ?_⟩
    cases returned
    exact guarded.1
  | cons input rest ih =>
    refine ⟨⟨guarded.1, fun next answer stepEq => (ih (guarded.2 next answer stepEq)).1⟩, ?_⟩
    intro middle answers returned
    obtain ⟨next, answer, later, stepEq, runEq, _⟩ := run_cons_ok returned
    exact (ih (guarded.2 next answer stepEq)).2 middle later runEq

theorem Guarded.extend {guard : σ → ι → Prop} {state middle : σ}
    {inputs : List ι} {answers : List ο} {last : ι} (guarded : Guarded step guard state inputs)
    (returned : run step state inputs = .ok (middle, answers)) (allowed : guard middle last) :
    Guarded step guard state (inputs ++ [last]) := by
  induction inputs generalizing state answers with
  | nil =>
    cases returned
    exact ⟨allowed, fun _ _ _ => trivial⟩
  | cons input rest ih =>
    obtain ⟨next, answer, later, stepEq, runEq, -⟩ := run_cons_ok returned
    refine ⟨guarded.1, fun other same otherEq => ?_⟩
    rw [stepEq] at otherEq
    cases otherEq
    exact ih (guarded.2 next answer stepEq) runEq

theorem Guarded.and {left right : σ → ι → Prop} {state : σ}
    {inputs : List ι} (first : Guarded step left state inputs) (second : Guarded step right state inputs) :
    Guarded step (fun state input => left state input ∧ right state input) state inputs := by
  induction inputs generalizing state with
  | nil => trivial
  | cons input rest ih =>
    exact ⟨⟨first.1, second.1⟩, fun next answer stepEq =>
      ih (first.2 next answer stepEq) (second.2 next answer stepEq)⟩

end Machine
