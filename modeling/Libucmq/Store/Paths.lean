import Libucmq.Library.FileTree
import Libucmq.Store.Api

/-! The paths of `mq_store_file.h` and what `delete_file` removes. -/

namespace Libucmq

open FileTree List CString

def snprintf (size : Nat) (text : List UInt8) : List UInt8 := text.take (size - 1)

def genQueuePathByQname (dataFilePath qname : List UInt8) : List UInt8 :=
  snprintf 128 (dataFilePath ++ 47 :: qname)

def genDataFullPathByFname (dataFilePath qname fname : List UInt8) : List UInt8 :=
  snprintf 256 (dataFilePath ++ 47 :: (qname ++ 47 :: fname))

/-- `GEN_RTAG_`, `GEN_WTAG_` and `GEN_DATA_FULL_PATH_BY_QNAME_INDEX`. -/
def genFullPathByQnameIndex (dataFilePath qname : List UInt8) (file : FileName) : List UInt8 :=
  genDataFullPathByFname dataFilePath qname file.text

def dirPart (path : List UInt8) : List UInt8 := ((path.reverse.dropWhile (· ≠ 47)).drop 1).reverse

def getFilePath (path fileName : List UInt8) : List UInt8 :=
  (if path.getLast? = some 47 then path else path ++ [47]) ++ fileName

def lstat (cwd : Place) (tree : Tree) (path : List UInt8) : Option Kind := (resolve cwd path).bind (kind tree)

def atPath (call : Tree → Place → Tree) (cwd : Place) (tree : Tree) (path : List UInt8) : Tree :=
  match resolve cwd path with
  | some place => call tree place
  | none => tree

/-- Directories nested at most `depth` deep; `.` and `..` are passed over. -/
def deleteFile : Nat → Place → Tree → List UInt8 → Tree
  | 0, _, tree, _ => tree
  | depth + 1, cwd, tree, path =>
    if lstat cwd tree path = some .file then atPath remove cwd tree path
    else
      let names :=
        if lstat cwd tree path = some .dir then ((resolve cwd path).map (entries tree)).getD [] else []
      let tree := names.foldl (fun tree name =>
        atPath rmdir cwd (deleteFile depth cwd tree (getFilePath path name.1)) (getFilePath path name.1)) tree
      atPath rmdir cwd tree path

def removeDbTree (depth : Nat) (cwd : Place) (tree : Tree) (dataFilePath qname : List UInt8) : Bool × Tree :=
  let queueDbPath := genQueuePathByQname dataFilePath qname
  if (lstat cwd tree queueDbPath).isSome then (true, deleteFile depth cwd tree queueDbPath)
  else (false, tree)

def creatDbTree (depth : Nat) (cwd : Place) (tree : Tree) (dataFilePath qname : List UInt8) : Tree :=
  atPath mkdir cwd (removeDbTree depth cwd tree dataFilePath qname).2 (genQueuePathByQname dataFilePath qname)

theorem qnameLoop_clear {place : Nat} {qname : List UInt8} (checked : qnameLoop place qname = true) :
    ∀ char ∈ qname, char ≠ 46 ∧ char ≠ 47 := by
  induction qname generalizing place with
  | nil => simp
  | cons char rest ih =>
    rw [qnameLoop] at checked
    intro other member
    split at checked
    · rename_i odd
      split at checked
      · cases checked
      · rename_i inner
        rcases mem_cons.mp member with rfl | later
        · obtain rfl : other = 95 := by
            by_contra different
            exact inner (by simp [different])
          decide
        · exact ih checked other later
    · rename_i plain
      rcases mem_cons.mp member with rfl | later
      · constructor
        · rintro rfl
          exact plain (by decide)
        · rintro rfl
          exact plain (by decide)
      · exact ih checked other later

theorem QueueName.length_le (qname : QueueName) : qname.1.length ≤ 32 := by
  have checked := qname.2
  rw [qnameCheck] at checked
  split at checked
  · cases checked
  · rename_i fits
    by_contra long
    refine fits ?_
    rw [Bool.or_eq_true, decide_eq_true_eq, decide_eq_true_eq]
    exact Or.inr (Nat.lt_of_not_le long)

theorem QueueName.component (qname : QueueName) : Component qname.1 := by
  have checked := qname.2
  rw [qnameCheck] at checked
  split at checked
  · cases checked
  · rename_i fits
    have clear := qnameLoop_clear checked
    refine ⟨?_, fun slash => (clear 47 slash).2 rfl, ?_, ?_⟩
    · rintro empty
      simp [empty] at fits
    · intro dot
      exact (clear 46 (by simp [dot])).1 rfl
    · intro dots
      exact (clear 46 (by simp [dots])).1 rfl

def QueueName.entry (qname : QueueName) : Name := ⟨qname.1, qname.component⟩

theorem dirPart_append (front : List UInt8) {name : List UInt8} (flat : 47 ∉ name) :
    dirPart (front ++ 47 :: name) = front := by
  have back : (name.reverse ++ 47 :: front.reverse).dropWhile (fun char => decide (char ≠ 47)) =
      47 :: front.reverse := by
    rw [dropWhile_append_of_pos]
    · simp
    · intro char member
      simp only [mem_reverse] at member
      simp only [decide_eq_true_eq]
      rintro rfl
      exact flat member
  rw [dirPart, reverse_append, reverse_cons, append_assoc, singleton_append, back]
  simp

theorem genQueuePath_of_fits {dataFilePath qname : List UInt8} (fits : dataFilePath.length + 1 + qname.length ≤ 127) :
    genQueuePathByQname dataFilePath qname = dataFilePath ++ 47 :: qname := by
  rw [genQueuePathByQname, snprintf, take_of_length_le]
  simp only [length_append, length_cons]
  omega

theorem dirPart_fullPath {dataFilePath qname fname : List UInt8} (short : dataFilePath.length ≤ 127)
    (named : qname.length ≤ 32) (flat : 47 ∉ fname) :
    dirPart (genDataFullPathByFname dataFilePath qname fname) = dataFilePath ++ 47 :: qname := by
  have front : dataFilePath ++ 47 :: (qname ++ 47 :: fname) = (dataFilePath ++ 47 :: qname) ++ 47 :: fname := by
    simp
  have room : (dataFilePath ++ 47 :: qname).length + 1 ≤ 255 := by
    simp only [length_append, length_cons]
    omega
  rw [genDataFullPathByFname, snprintf, front, take_append, take_of_length_le (by omega)]
  obtain ⟨rest, restEq⟩ : ∃ rest, 256 - 1 - (dataFilePath ++ 47 :: qname).length = rest + 1 :=
    ⟨256 - 1 - (dataFilePath ++ 47 :: qname).length - 1, by omega⟩
  rw [restEq, take_succ_cons]
  exact dirPart_append _ fun slash => flat (mem_of_mem_take slash)

theorem fileName_flat (file : FileName) : 47 ∉ file.text := by
  have digits : ∀ index : UInt64, 47 ∉ Decimal.padded 12 index.toNat :=
    fun index slash => (@CString.digits_clear _ _ 47 (by decide) 47 slash).2 rfl
  match file with
  | .db index => exact fun slash => (mem_append.mp slash).elim (by decide) (digits index)
  | .tag .rtag index => exact fun slash => (mem_append.mp slash).elim (by decide) (digits index)
  | .tag .wtag index => exact fun slash => (mem_append.mp slash).elim (by decide) (digits index)

theorem queuePath_parent (cwd : Place) (dataFilePath : List UInt8) : ∃ base,
    (∀ qname : QueueName, resolve cwd (dataFilePath ++ 47 :: qname.1) = some (base ++ [qname.entry])) ∧
      ∀ place, resolve cwd dataFilePath = some place → place = base := by
  by_cases empty : dataFilePath = []
  · refine ⟨[], fun qname => ?_, fun place found => ?_⟩
    · rw [empty]
      exact resolve_root cwd qname.entry
    · rw [empty, resolve, if_pos rfl] at found
      cases found
  · obtain ⟨base, baseEq⟩ : ∃ base, resolve cwd dataFilePath = some base := ⟨_, if_neg empty⟩
    refine ⟨base, fun qname => ?_, fun place found => Option.some.inj (found.symm.trans baseEq)⟩
    rw [show qname.1 = qname.entry.1 from rfl, resolve_child cwd empty qname.entry, baseEq]
    rfl

theorem getFilePath_resolve (cwd : Place) {path : List UInt8} (named : path ≠ []) (name : Name) :
    resolve cwd (getFilePath path name.1) = (resolve cwd path).map (· ++ [name]) := by
  rw [getFilePath]
  split
  · rename_i slash
    obtain ⟨front, rfl⟩ := List.getLast?_eq_some_iff.mp slash
    rw [append_assoc, singleton_append]
    by_cases root : front = []
    · subst root
      exact resolve_root cwd name
    · rw [resolve_child cwd root name, resolve_slash cwd root]
  · rw [append_assoc, singleton_append]
    exact resolve_child cwd named name

theorem atPath_same {call : Tree → Place → Tree} (keeps : ∀ base tree, SameOutside base tree (call tree base))
    {cwd base : Place} {path : List UInt8} (found : resolve cwd path = some base) (tree : Tree) :
    SameOutside base tree (atPath call cwd tree path) := by
  rw [atPath, found]
  exact keeps base tree

theorem deleteFile_same (depth : Nat) {cwd base : Place} {path : List UInt8}
    (found : resolve cwd path = some base) (tree : Tree) :
    SameOutside base tree (deleteFile depth cwd tree path) := by
  induction depth generalizing base path tree with
  | zero => exact SameOutside.refl base tree
  | succ depth ih =>
    have named : path ≠ [] := by
      rintro rfl
      cases found
    rw [deleteFile]
    split
    · exact atPath_same SameOutside.remove found tree
    · refine SameOutside.trans (SameOutside.foldl (fun tree name => ?_) _ tree)
        (atPath_same SameOutside.rmdir found _)
      have child : resolve cwd (getFilePath path name.1) = some (base ++ [name]) := by
        rw [getFilePath_resolve cwd named, found]
        rfl
      exact ((ih child tree).trans (atPath_same SameOutside.rmdir child _)).of_child

theorem creatDbTree_same (depth : Nat) {cwd base : Place} {dataFilePath qname : List UInt8}
    (found : resolve cwd (genQueuePathByQname dataFilePath qname) = some base) (tree : Tree) :
    SameOutside base tree (removeDbTree depth cwd tree dataFilePath qname).2 ∧
      SameOutside base tree (creatDbTree depth cwd tree dataFilePath qname) := by
  have removed : SameOutside base tree (removeDbTree depth cwd tree dataFilePath qname).2 := by
    rw [removeDbTree]
    split
    · exact deleteFile_same depth found tree
    · exact SameOutside.refl base tree
  exact ⟨removed, removed.trans (atPath_same SameOutside.mkdir found _)⟩

structure OwnDirectory (dataFilePath : List UInt8) (qname : QueueName) : Prop where
  below : ∃ name : Name, genQueuePathByQname dataFilePath qname.1 = dataFilePath ++ 47 :: name.1
  files : ∀ file, dirPart (genFullPathByQnameIndex dataFilePath qname.1 file) =
    genQueuePathByQname dataFilePath qname.1
  named : ∀ fname, 47 ∉ fname → dirPart (genDataFullPathByFname dataFilePath qname.1 fname) =
    genQueuePathByQname dataFilePath qname.1

structure Apart (dataFilePath : List UInt8) (qname other : QueueName) : Prop where
  own : OwnDirectory dataFilePath qname
  ownOther : OwnDirectory dataFilePath other
  different : genQueuePathByQname dataFilePath qname.1 ≠ genQueuePathByQname dataFilePath other.1
  spares : ∀ depth cwd tree place,
    (∃ base, resolve cwd (genQueuePathByQname dataFilePath other.1) = some base ∧ base <+: place) ∨
      resolve cwd dataFilePath = some place →
    kind (removeDbTree depth cwd tree dataFilePath qname.1).2 place = kind tree place ∧
      kind (creatDbTree depth cwd tree dataFilePath qname.1) place = kind tree place

theorem ownDirectory_iff {dataFilePath : List UInt8} (short : dataFilePath.length ≤ 127) (qname : QueueName) :
    OwnDirectory dataFilePath qname ↔ dataFilePath.length + 1 + qname.1.length ≤ 127 := by
  have files : ∀ fname, 47 ∉ fname →
      dirPart (genDataFullPathByFname dataFilePath qname.1 fname) = dataFilePath ++ 47 :: qname.1 :=
    fun fname flat => dirPart_fullPath short qname.length_le flat
  constructor
  · intro own
    have whole := (files [] not_mem_nil).symm.trans (own.named [] not_mem_nil)
    have length := congrArg List.length whole
    rw [genQueuePathByQname, snprintf, length_take] at length
    simp only [length_append, length_cons] at length
    omega
  · intro fits
    have whole := genQueuePath_of_fits fits
    exact
      { below := ⟨qname.entry, whole⟩
        files := fun file => (files file.text (fileName_flat file)).trans whole.symm
        named := fun fname flat => (files fname flat).trans whole.symm }

theorem entry_outside {base place : Place} {name other : Name} (different : name ≠ other)
    (inside : base ++ [other] <+: place ∨ place = base) : ¬ base ++ [name] <+: place := by
  rintro ⟨rest, rfl⟩
  rcases inside with ⟨later, same⟩ | same
  · rw [append_assoc, append_assoc] at same
    exact different (List.cons.inj (append_cancel_left same)).1.symm
  · have length := congrArg List.length same
    simp at length

/-- Queues are apart exactly when the path buffer has room for both names. -/
theorem directories_apart_iff (dataFilePath : List UInt8) (short : dataFilePath.length ≤ 127)
    (qname other : QueueName) (different : qname ≠ other) : Apart dataFilePath qname other ↔
      dataFilePath.length + 1 + qname.1.length ≤ 127 ∧ dataFilePath.length + 1 + other.1.length ≤ 127 := by
  rw [← ownDirectory_iff short, ← ownDirectory_iff short]
  refine ⟨fun apart => ⟨apart.own, apart.ownOther⟩, fun ⟨own, ownOther⟩ => ⟨own, ownOther, ?_, ?_⟩⟩
  · rw [genQueuePath_of_fits ((ownDirectory_iff short qname).mp own),
      genQueuePath_of_fits ((ownDirectory_iff short other).mp ownOther)]
    intro same
    exact different (Subtype.ext (List.cons.inj (append_cancel_left same)).2)
  · intro depth cwd tree place inside
    obtain ⟨parent, queues, data⟩ := queuePath_parent cwd dataFilePath
    have here : resolve cwd (genQueuePathByQname dataFilePath qname.1) = some (parent ++ [qname.entry]) := by
      rw [genQueuePath_of_fits ((ownDirectory_iff short qname).mp own)]
      exact queues qname
    have entries : qname.entry ≠ other.entry :=
      fun same => different (Subtype.ext (congrArg (fun name : Name => name.1) same))
    have outside : ¬ parent ++ [qname.entry] <+: place := by
      apply entry_outside entries
      rcases inside with ⟨base, found, below⟩ | found
      · rw [genQueuePath_of_fits ((ownDirectory_iff short other).mp ownOther), queues other] at found
        exact Or.inl (Option.some.inj found ▸ below)
      · exact Or.inr (data place found)
    obtain ⟨removed, made⟩ := creatDbTree_same depth here tree
    exact ⟨removed place outside, made place outside⟩

def nameA : QueueName := ⟨[97], by decide⟩

def nameB : QueueName := ⟨[98], by decide⟩

theorem directories_apart_default : Apart (ascii "../data") nameA nameB :=
  (directories_apart_iff (ascii "../data") (by decide) nameA nameB (by decide)).mpr
    ⟨by decide, by decide⟩

def longPath : List UInt8 := 47 :: List.replicate 126 100

def longTree : Tree :=
  [([⟨List.replicate 126 100, by decide⟩], .dir),
    ([⟨List.replicate 126 100, by decide⟩, nameB.entry], .dir),
    ([⟨List.replicate 126 100, by decide⟩, nameB.entry, ⟨FileName.text (.db 1), by decide⟩], .file)]

theorem directories_collide : longPath.length = 127 ∧ nameA ≠ nameB ∧
    genQueuePathByQname longPath nameA.1 = longPath ∧ genQueuePathByQname longPath nameB.1 = longPath ∧
    lstat [] longTree longPath = some .dir ∧
    lstat [] longTree (genFullPathByQnameIndex longPath nameB.1 (.db 1)) = some .file ∧
    (removeDbTree 3 [] longTree longPath nameA.1).1 = true ∧ lstat [] (removeDbTree 3 [] longTree longPath nameA.1).2
      (genFullPathByQnameIndex longPath nameB.1 (.db 1)) = none ∧
    lstat [] (removeDbTree 3 [] longTree longPath nameA.1).2 longPath = none := by
  decide +kernel

end Libucmq
