import Libucmq.Library.Machine

/-! The wrapper of leveldb in `ldb.c`, over calls that report no error. -/

namespace Libucmq.Ldb

open Function Machine

abbrev Key := List UInt8
abbrev Database := Key → Option (List UInt8)

inductive Write
  | put (key : Key) (value : List UInt8)
  | delete (key : Key)
deriving DecidableEq, Repr

structure LeveldbStuff where
  db : Database
  wbatch : List Write

inductive Op
  | write (write : Write)
  | batch (write : Write)
  | commit
  | existing (key : Key)

def leveldbWrite (db : Database) : Write → Database
  | .put key value => update db key (some value)
  | .delete key => update db key none

def leveldbGet (db : Database) (key : Key) : Nat := ((db key).getD []).length

def ldbPut (ldbs : LeveldbStuff) (key : Key) (value : List UInt8) : LeveldbStuff × Int :=
  ({ ldbs with db := leveldbWrite ldbs.db (.put key value) }, 0)

def ldbDelete (ldbs : LeveldbStuff) (key : Key) : LeveldbStuff × Int :=
  if leveldbGet ldbs.db key = 0 then (ldbs, 0)
  else ({ ldbs with db := leveldbWrite ldbs.db (.delete key) }, 1)

def ldbBatch (ldbs : LeveldbStuff) (write : Write) : LeveldbStuff × Int :=
  ({ ldbs with wbatch := ldbs.wbatch ++ [write] }, 0)

def ldbBatchCommit (ldbs : LeveldbStuff) : LeveldbStuff × Int :=
  (⟨ldbs.wbatch.foldl leveldbWrite ldbs.db, []⟩, 0)

def ldbExists (ldbs : LeveldbStuff) (key : Key) : LeveldbStuff × Int :=
  (ldbs, if leveldbGet ldbs.db key ≠ 0 then 1 else 0)

def call (ldbs : LeveldbStuff) : Op → LeveldbStuff × Int
  | .write (.put key value) => ldbPut ldbs key value
  | .write (.delete key) => ldbDelete ldbs key
  | .batch write => ldbBatch ldbs write
  | .commit => ldbBatchCommit ldbs
  | .existing key => ldbExists ldbs key

def mapCall (ldbs : LeveldbStuff) : Op → LeveldbStuff × Int
  | .write (.put key value) => ({ ldbs with db := update ldbs.db key (some value) }, 0)
  | .write (.delete key) =>
    if (ldbs.db key).isSome then ({ ldbs with db := update ldbs.db key none }, 1) else (ldbs, 0)
  | .batch write => ({ ldbs with wbatch := ldbs.wbatch ++ [write] }, 0)
  | .commit => (⟨ldbs.wbatch.foldl leveldbWrite ldbs.db, []⟩, 0)
  | .existing key => (ldbs, if (ldbs.db key).isSome then 1 else 0)

def Op.asks : Op → Option Key
  | .write (.delete key) => some key
  | .existing key => some key
  | _ => none

def Told : LeveldbStuff → List Op → Prop
  | _, [] => True
  | ldbs, op :: ops => (∀ key, op.asks = some key → ldbs.db key ≠ some []) ∧ Told (mapCall ldbs op).1 ops

theorem leveldbGet_eq_zero_iff (db : Database) (key : Key) :
    leveldbGet db key = 0 ↔ db key = none ∨ db key = some [] := by
  cases found : db key with
  | none => simp [leveldbGet, found]
  | some value => simp [leveldbGet, found]

theorem call_eq {ldbs : LeveldbStuff} {op : Op} (told : ∀ key, op.asks = some key → ldbs.db key ≠ some []) :
    call ldbs op = mapCall ldbs op := by
  have zero_iff : ∀ key, op.asks = some key → (leveldbGet ldbs.db key = 0 ↔ ldbs.db key = none) := by
    intro key asked
    simp [leveldbGet_eq_zero_iff, told key asked]
  cases op with
  | write write =>
    cases write with
    | put key value => rfl
    | delete key =>
      simp only [call, ldbDelete, mapCall, zero_iff key rfl, leveldbWrite]
      cases ldbs.db key <;> rfl
  | batch write => rfl
  | commit => rfl
  | existing key =>
    simp only [call, ldbExists, mapCall, ne_eq, zero_iff key rfl]
    cases ldbs.db key <;> rfl

theorem told_of_answer {ldbs : LeveldbStuff} {op : Op} (same : (call ldbs op).2 = (mapCall ldbs op).2) :
    ∀ key, op.asks = some key → ldbs.db key ≠ some [] := by
  intro key asked empty
  have zero : leveldbGet ldbs.db key = 0 := (leveldbGet_eq_zero_iff _ _).mpr (.inr empty)
  cases op with
  | write write =>
    cases write with
    | put other value => simp [Op.asks] at asked
    | delete other =>
      obtain rfl : other = key := by simpa [Op.asks] using asked
      simp [call, ldbDelete, mapCall, zero, empty] at same
  | batch write => simp [Op.asks] at asked
  | commit => simp [Op.asks] at asked
  | existing other =>
    obtain rfl : other = key := by simpa [Op.asks] using asked
    simp [call, ldbExists, mapCall, zero, empty] at same

/-- The calls act as on a map unless a key with an empty value is asked for. -/
theorem ldb_refines_iff (ldbs : LeveldbStuff) (ops : List Op) :
    specRun call ldbs ops = specRun mapCall ldbs ops ↔ Told ldbs ops := by
  induction ops generalizing ldbs with
  | nil => simp [Told, specRun]
  | cons op ops ih =>
    constructor
    · intro same
      have first : (call ldbs op).2 = (mapCall ldbs op).2 := by
        have answers := congrArg (fun result => result.2.head?) same
        simpa [specRun] using answers
      have told := told_of_answer first
      refine ⟨told, (ih _).mp ?_⟩
      simp only [specRun, call_eq told, Prod.mk.injEq, List.cons.injEq, true_and] at same
      exact Prod.ext same.1 same.2
    · rintro ⟨told, later⟩
      simp only [specRun, call_eq told, (ih _).mpr later]

theorem ldb_refines_empty : ∃ ldbs : LeveldbStuff, (call ldbs (.write (.put [107] []))).1.db [107] = some [] ∧
    (call (call ldbs (.write (.put [107] []))).1 (.existing [107])).2 = 0 ∧
    (call (call ldbs (.write (.put [107] []))).1 (.write (.delete [107]))).2 = 0 ∧
    (call (call ldbs (.write (.put [107] []))).1 (.write (.delete [107]))).1.db [107] = some [] :=
  ⟨⟨fun _ => none, []⟩, by decide⟩

end Libucmq.Ldb
