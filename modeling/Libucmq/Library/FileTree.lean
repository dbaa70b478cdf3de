import Libucmq.Library.Table

/-! Path names and the tree of files they lead to, without symbolic links. -/

namespace FileTree

open List

def Component (text : List UInt8) : Prop := text ≠ [] ∧ 47 ∉ text ∧ text ≠ [46] ∧ text ≠ [46, 46]

instance (text : List UInt8) : Decidable (Component text) := inferInstanceAs (Decidable (_ ∧ _ ∧ _ ∧ _))

abbrev Name := { text : List UInt8 // Component text }

abbrev Place := List Name

def enter (place : Place) (text : List UInt8) : Place :=
  if text = [46, 46] then place.dropLast
  else if named : Component text then place ++ [⟨text, named⟩] else place

def resolve (cwd : Place) (path : List UInt8) : Option Place :=
  if path = [] then none
  else some ((path.splitOn 47).foldl enter (if path.head? = some 47 then [] else cwd))

theorem enter_name (place : Place) (name : Name) : enter place name.1 = place ++ [name] := by
  rw [enter, if_neg name.2.2.2.2, dif_pos name.2]

theorem enter_nil (place : Place) : enter place [] = place := by
  rw [enter, if_neg (by decide), dif_neg (fun named => named.1 rfl)]

theorem resolve_child (cwd : Place) {path : List UInt8} (named : path ≠ []) (name : Name) :
    resolve cwd (path ++ 47 :: name.1) = (resolve cwd path).map (· ++ [name]) := by
  rw [resolve, resolve, if_neg (by simp), if_neg named, splitOn_append_cons_self,
    splitOn_eq_singleton name.2.2.1, List.head?_append_of_ne_nil _ named]
  simp [enter_name]

theorem resolve_root (cwd : Place) (name : Name) : resolve cwd (47 :: name.1) = some [name] := by
  have pieces : (47 :: name.1).splitOn 47 = [[], name.1] := by
    rw [show 47 :: name.1 = [] ++ 47 :: name.1 from rfl, splitOn_append_cons_self,
      splitOn_eq_singleton name.2.2.1, splitOn_nil]
    rfl
  rw [resolve, if_neg (cons_ne_nil _ _), pieces]
  simp [enter_nil, enter_name]

theorem resolve_slash (cwd : Place) {path : List UInt8} (named : path ≠ []) :
    resolve cwd (path ++ [47]) = resolve cwd path := by
  rw [resolve, resolve, if_neg (by simp), if_neg named, splitOn_append_cons_self,
    List.head?_append_of_ne_nil _ named]
  simp [splitOn_nil, enter_nil]

inductive Kind
  | file | dir | other
deriving DecidableEq, Repr

abbrev Tree := List (Place × Kind)

def kind (tree : Tree) (place : Place) : Option Kind := Table.find tree place

def entries (tree : Tree) (place : Place) : List Name :=
  tree.filterMap fun node => if node.1.dropLast = place then node.1.getLast? else none

def remove (tree : Tree) (place : Place) : Tree := Table.erase tree place

def rmdir (tree : Tree) (place : Place) : Tree :=
  if kind tree place = some .dir ∧ entries tree place = [] then Table.erase tree place else tree

def mkdir (tree : Tree) (place : Place) : Tree :=
  if kind tree place = none ∧ (place.dropLast = [] ∨ kind tree place.dropLast = some .dir) then
    tree ++ [(place, .dir)]
  else tree

def SameOutside (base : Place) (tree next : Tree) : Prop :=
  ∀ place, ¬ base <+: place → kind next place = kind tree place

namespace SameOutside

variable {base : Place} {tree next after : Tree}

theorem refl (base : Place) (tree : Tree) : SameOutside base tree tree := fun _ _ => rfl

theorem trans (first : SameOutside base tree next) (second : SameOutside base next after) :
    SameOutside base tree after :=
  fun place outside => (second place outside).trans (first place outside)

theorem of_child {name : Name} (same : SameOutside (base ++ [name]) tree next) : SameOutside base tree next :=
  fun place outside => same place fun below => outside ((prefix_append base [name]).trans below)

theorem remove (base : Place) (tree : Tree) : SameOutside base tree (FileTree.remove tree base) := by
  intro place outside
  rw [kind, FileTree.remove, Table.find_erase, if_neg]
  · rfl
  · rintro rfl
    exact outside (prefix_refl place)

theorem rmdir (base : Place) (tree : Tree) : SameOutside base tree (FileTree.rmdir tree base) := by
  rw [FileTree.rmdir]
  split
  · exact remove base tree
  · exact refl base tree

theorem mkdir (base : Place) (tree : Tree) : SameOutside base tree (FileTree.mkdir tree base) := by
  rw [FileTree.mkdir]
  split
  · intro place outside
    have other : place ≠ base := by
      rintro rfl
      exact outside (prefix_refl place)
    simp [kind, Table.find_append, Table.find, other]
  · exact refl base tree

theorem foldl {step : Tree → Name → Tree} (keeps : ∀ tree name, SameOutside base tree (step tree name))
    (names : List Name) (tree : Tree) : SameOutside base tree (names.foldl step tree) := by
  induction names generalizing tree with
  | nil => exact refl base tree
  | cons name names ih => exact (keeps tree name).trans (ih (step tree name))

end SameOutside

end FileTree
