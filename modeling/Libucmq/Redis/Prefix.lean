import Mathlib.Data.List.GetD
import Libucmq.Redis.Ranges

/-! What the parser finds in a part of the buffer, compared with the whole. -/

namespace Libucmq.Redis

open Net List

theorem findCrlf_append {text more : List UInt8} {index : Nat} (found : findCrlf text = some index) :
    findCrlf (text ++ more) = some index := by
  induction text generalizing index with
  | nil => simp [findCrlf] at found
  | cons byte rest ih =>
    simp only [findCrlf, cons_append] at found ⊢
    split at found
    · simp at found
    · rename_i nonzero
      rw [if_neg nonzero]
      split at found
      · rename_i line
        rw [if_pos]
        · exact found
        · cases rest with
          | nil => simp at line
          | cons other rest => simpa using line
      · rename_i other
        simp only [Option.map_eq_some_iff] at found
        obtain ⟨before, foundRest, rfl⟩ := found
        rw [if_neg, ih foundRest]
        · rfl
        · cases rest with
          | nil => simp [findCrlf] at foundRest
          | cons next rest => simpa using other

theorem findCrlf_take {text : List UInt8} {index : Nat} (found : findCrlf text = some index) (count : Nat) :
    findCrlf (text.take count) = if index + 2 ≤ count then some index else none := by
  cases shorter : findCrlf (text.take count) with
  | some early =>
    have same : early = index := by
      have longer := @findCrlf_append _ (text.drop count) _ shorter
      rw [take_append_drop] at longer
      exact Option.some.inj (longer.symm.trans found)
    have inside := findCrlf_inside shorter
    rw [length_take] at inside
    rw [if_pos (by omega), same]
  | none =>
    rw [if_neg]
    intro reaches
    induction text generalizing index count with
    | nil => simp [findCrlf] at found
    | cons byte rest ih =>
      obtain ⟨count, rfl⟩ : ∃ less, count = less + 1 := ⟨count - 1, by omega⟩
      simp only [take_succ_cons, findCrlf] at shorter found
      split at found
      · simp at found
      · rename_i nonzero
        rw [if_neg nonzero] at shorter
        split at found
        · rename_i line
          simp only [Option.some.injEq] at found
          subst found
          obtain ⟨count, rfl⟩ : ∃ less, count = less + 1 := ⟨count - 1, by omega⟩
          cases rest with
          | nil => simp at line
          | cons other rest => simp [take_succ_cons, line.1, (by simpa using line.2 : other = 10)] at shorter
        · simp only [Option.map_eq_some_iff] at found
          obtain ⟨before, foundRest, rfl⟩ := found
          split at shorter
          · simp at shorter
          · exact ih foundRest count (by simpa using shorter) (by omega)

end Libucmq.Redis
