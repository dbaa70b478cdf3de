import Mathlib.Logic.Function.Basic

/-! Cells that parties hold one at a time. -/

namespace Exclusive

open Function

variable {ρ κ V P : Type}

structure Rules (holds : ρ → P → κ → V → Prop) (idle : ρ → P → Prop) (free : V) : Prop where
  used : ∀ party part cell, ¬ holds party part cell free
  one : ∀ party part cell other value otherValue,
    holds party part cell value → holds party part other otherValue → cell = other
  apart : ∀ party part cell value, idle party part → ¬ holds party part cell value

structure Sound (holds : ρ → P → κ → V → Prop) (idle : ρ → P → Prop) (free : V) (cells : κ → V) (parts : ρ → P) :
    Prop where
  settled : ∀ party, (∃ cell, holds party (parts party) cell (cells cell)) ∨ idle party (parts party)
  single : ∀ party other cell, holds party (parts party) cell (cells cell) →
    holds other (parts other) cell (cells cell) → party = other
  covered : ∀ cell, cells cell = free ∨ ∃ party, holds party (parts party) cell (cells cell)

variable {holds : ρ → P → κ → V → Prop} {idle : ρ → P → Prop} {free : V} {cells : κ → V} {parts : ρ → P}
  {party : ρ} {part : P} {cell : κ} {value : V}

theorem Sound.others (sound : Sound holds idle free cells parts) (rules : Rules holds idle free)
    (before : holds party (parts party) cell (cells cell) ∨ cells cell = free ∧ idle party (parts party))
    {other : ρ} (different : other ≠ party) (anyValue : V) : ¬ holds other (parts other) cell anyValue := by
  intro also
  obtain ⟨place, holder⟩ | resting := sound.settled other
  · obtain rfl := rules.one _ _ _ _ _ _ holder also
    obtain held | ⟨empty, _⟩ := before
    · exact different (sound.single other party _ holder held)
    · rw [empty] at holder
      exact rules.used _ _ _ holder
  · exact rules.apart _ _ _ _ resting also

variable [DecidableEq ρ]

theorem Sound.stay (sound : Sound holds idle free cells parts) (rules : Rules holds idle free)
    (before : idle party (parts party)) (after : idle party part) :
    Sound holds idle free cells (update parts party part) := by
  have absent : ∀ place anyValue, ¬ holds party part place anyValue := fun _ _ => rules.apart _ _ _ _ after
  have was : ∀ place anyValue, ¬ holds party (parts party) place anyValue := fun _ _ => rules.apart _ _ _ _ before
  have iff : ∀ other place, holds other (update parts party part other) place (cells place) ↔
      holds other (parts other) place (cells place) := by
    intro other place
    by_cases same : other = party
    · subst same
      rw [update_self]
      exact iff_of_false (absent _ _) (was _ _)
    · rw [update_of_ne same]
  refine ⟨?_, ?_, ?_⟩
  · intro other
    by_cases same : other = party
    · subst same
      exact .inr (by rwa [update_self])
    · rw [update_of_ne same]
      exact sound.settled other
  · intro first second place holder also
    exact sound.single first second place ((iff first place).mp holder) ((iff second place).mp also)
  · intro place
    refine (sound.covered place).imp_right ?_
    rintro ⟨other, holder⟩
    exact ⟨other, (iff other place).mpr holder⟩

variable [DecidableEq κ]

theorem Sound.move (sound : Sound holds idle free cells parts) (rules : Rules holds idle free)
    (before : holds party (parts party) cell (cells cell) ∨ cells cell = free ∧ idle party (parts party))
    (after : holds party part cell value ∨ value = free ∧ idle party part) :
    Sound holds idle free (update cells cell value) (update parts party part) := by
  have others : ∀ other, other ≠ party → ∀ anyValue, ¬ holds other (parts other) cell anyValue :=
    fun other different => sound.others rules before different
  have self : ∀ place, place ≠ cell → ∀ anyValue, ¬ holds party part place anyValue := by
    intro place different anyValue also
    obtain held | ⟨_, resting⟩ := after
    · exact different (rules.one _ _ _ _ _ _ also held)
    · exact rules.apart _ _ _ _ resting also
  have was : ∀ place, place ≠ cell → ¬ holds party (parts party) place (cells place) := by
    intro place different also
    obtain held | ⟨_, resting⟩ := before
    · exact different (rules.one _ _ _ _ _ _ also held)
    · exact rules.apart _ _ _ _ resting also
  refine ⟨?_, ?_, ?_⟩
  · intro other
    by_cases same : other = party
    · subst same
      rw [update_self]
      refine after.imp (fun held => ⟨cell, ?_⟩) And.right
      rwa [update_self]
    · rw [update_of_ne same]
      refine (sound.settled other).imp_left ?_
      rintro ⟨place, holder⟩
      have different : place ≠ cell := by
        rintro rfl
        exact others other same _ holder
      exact ⟨place, by rwa [update_of_ne different]⟩
  · intro first second place holder also
    by_cases here : place = cell
    · subst here
      have only : ∀ other, holds other (update parts party part other) place
          (update cells place value place) → other = party := by
        intro other holder
        by_contra different
        rw [update_of_ne different] at holder
        exact others other different _ holder
      rw [only first holder, only second also]
    · rw [update_of_ne here] at holder also
      have kept : ∀ other, holds other (update parts party part other) place (cells place) →
          holds other (parts other) place (cells place) := by
        intro other holder
        by_cases same : other = party
        · subst same
          rw [update_self] at holder
          exact absurd holder (self place here _)
        · rwa [update_of_ne same] at holder
      exact sound.single first second place (kept first holder) (kept second also)
  · intro place
    by_cases here : place = cell
    · subst here
      rw [update_self]
      refine after.symm.imp And.left (fun held => ⟨party, ?_⟩)
      rwa [update_self]
    · rw [update_of_ne here]
      refine (sound.covered place).imp_right ?_
      rintro ⟨other, holder⟩
      have different : other ≠ party := by
        rintro rfl
        exact was place here holder
      exact ⟨other, by rwa [update_of_ne different]⟩

end Exclusive
