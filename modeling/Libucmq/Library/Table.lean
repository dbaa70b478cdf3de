import Mathlib.Algebra.BigOperators.Group.List.Basic

/-! Tables with distinct keys, kept in the order in which the keys were added. -/

namespace Table

open List

variable {κ α M : Type} [DecidableEq κ]

def find : List (κ × α) → κ → Option α
  | [], _ => none
  | (key, value) :: rest, query => if query = key then some value else find rest query

def replace (table : List (κ × α)) (key : κ) (value : α) : List (κ × α) :=
  table.map fun entry => if entry.1 = key then (key, value) else entry

def erase (table : List (κ × α)) (key : κ) : List (κ × α) :=
  table.filter fun entry => decide (entry.1 ≠ key)

def keys (table : List (κ × α)) : List κ := table.map Prod.fst

variable {table : List (κ × α)} {key query : κ} {value : α}

theorem find_mem (found : find table key = some value) : (key, value) ∈ table := by
  induction table with
  | nil => simp [find] at found
  | cons entry rest ih =>
    rw [find] at found
    split at found
    · rename_i same
      obtain rfl := Option.some.inj found
      simp [same]
    · exact mem_cons_of_mem _ (ih found)

theorem find_none_iff : find table key = none ↔ key ∉ keys table := by
  induction table with
  | nil => simp [find, keys]
  | cons entry rest ih =>
    rw [find]
    split
    · simp_all [keys]
    · simp_all [keys]

@[simp] theorem keys_replace (table : List (κ × α)) (key : κ) (value : α) :
    keys (replace table key value) = keys table := by
  simp only [keys, replace, map_map]
  apply map_congr_left
  intro entry _
  simp only [Function.comp_apply]
  split
  · rename_i same
    exact same.symm
  · rfl

theorem find_replace : find (replace table key value) query =
    if query = key then (find table key).map fun _ => value else find table query := by
  induction table with
  | nil => simp [find, replace]
  | cons entry rest ih =>
    obtain ⟨name, old⟩ := entry
    simp only [replace, map_cons] at ih ⊢
    by_cases changed : name = key
    · subst changed
      by_cases asked : query = name <;> simp [find, asked, ih]
    · by_cases asked : query = key
      · subst asked
        simp [find, changed, Ne.symm changed, ih]
      · simp [find, changed, ih, asked]

theorem find_erase : find (erase table key) query = if query = key then none else find table query := by
  induction table with
  | nil => simp [find, erase]
  | cons entry rest ih =>
    obtain ⟨name, old⟩ := entry
    simp only [erase] at ih ⊢
    by_cases gone : name = key
    · subst gone
      rw [filter_cons_of_neg (by simp), ih]
      by_cases asked : query = name <;> simp [find, asked]
    · rw [filter_cons_of_pos (by simpa using gone), find, find, ih]
      by_cases asked : query = name
      · subst asked
        simp [gone]
      · simp [asked]

theorem find_append (other : List (κ × α)) :
    find (table ++ other) query = (find table query).or (find other query) := by
  induction table with
  | nil => simp [find]
  | cons entry rest ih =>
    simp only [cons_append, find]
    split
    · rfl
    · exact ih

theorem sum_replace [AddCommMonoid M] (weight : α → M) (distinct : (keys table).Nodup) {old : α}
    (found : find table key = some old) :
    ((replace table key value).map fun entry => weight entry.2).sum + weight old =
      (table.map fun entry => weight entry.2).sum + weight value := by
  induction table with
  | nil => simp [find] at found
  | cons entry rest ih =>
    obtain ⟨name, current⟩ := entry
    obtain ⟨first, later⟩ := nodup_cons.mp distinct
    rw [find] at found
    split at found
    · rename_i same
      subst same
      obtain rfl := Option.some.inj found
      have kept : replace rest key value = rest := by
        conv_rhs => rw [← map_id rest]
        apply map_congr_left
        intro entry member
        rw [if_neg, id_eq]
        intro same
        exact first (mem_map.mpr ⟨entry, member, same⟩)
      have head : replace ((key, current) :: rest) key value = (key, value) :: rest := by
        simpa [replace] using kept
      rw [head, map_cons, map_cons, sum_cons, sum_cons,
        add_right_comm, add_assoc, add_comm (weight value)]
    · rename_i other
      have head : replace ((name, current) :: rest) key value =
          (name, current) :: replace rest key value := by
        simp [replace, Ne.symm other]
      rw [head, map_cons, map_cons, sum_cons, sum_cons, add_assoc, ih later found,
        add_assoc]

end Table
