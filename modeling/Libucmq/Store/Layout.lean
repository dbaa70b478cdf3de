import Libucmq.Store.Record

/-! The layout of a data file: a head of 128 bytes, records and a rest. -/

namespace Libucmq

open Memory List Decimal

def used (records : List Record) : Nat := dbFileHeadLen + (records.map Record.size).sum

def recordBytes (records : List Record) : List UInt8 := records.flatMap Record.bytes

@[simp] theorem used_nil : used [] = 128 := rfl

theorem used_append (front back : List Record) : used (front ++ back) = used front + (back.map Record.size).sum := by
  simp [used, Nat.add_assoc]

theorem used_concat (records : List Record) (record : Record) :
    used (records ++ [record]) = used records + record.size := by
  simp [used_append]

theorem used_record_le (front back : List Record) (record : Record) :
    used front + record.size ≤ used (front ++ record :: back) := by
  simp [used_append]

theorem used_ge (records : List Record) : 128 ≤ used records := by
  simp [used, dbFileHeadLen]

theorem recordBytes_length (records : List Record) : 128 + (recordBytes records).length = used records := by
  simp [recordBytes, used, dbFileHeadLen, length_flatMap]

structure FileHolds (file : DbFile) (records : List Record) : Prop where
  size : file.size = maxDbFileSize
  room : used records ≤ maxDbFileSize
  held : HoldsAt file.bytes dbFileHeadLen (recordBytes records)
  headClear : ∀ pos < dbFileHeadLen, file.bytes pos ≠ msgHeadOfFirstMagicNum
  restClear : ∀ pos, used records ≤ pos → pos < maxDbFileSize →
    file.bytes pos ≠ msgHeadOfFirstMagicNum

namespace FileHolds

theorem record_held {file : DbFile} {front back : List Record} {record : Record}
    (holds : FileHolds file (front ++ record :: back)) : HoldsAt file.bytes (used front) record.bytes := by
  have held := holds.held
  rw [recordBytes, flatMap_append, flatMap_cons, ← append_assoc] at held
  have located := (holdsAt_append.mp (holdsAt_append.mp held).1).2
  rwa [show dbFileHeadLen + (front.flatMap Record.bytes).length = used front from
    recordBytes_length front] at located

theorem append {file : DbFile} {records : List Record} {record : Record}
    (holds : FileHolds file records) (fits : used records + record.size ≤ maxDbFileSize) :
    FileHolds { file with bytes := store file.bytes (used records) record.bytes }
      (records ++ [record]) := by
  have length := recordBytes_length records
  have grown := used_concat records record
  refine ⟨holds.size, by omega, ?_, ?_, ?_⟩
  · rw [recordBytes, flatMap_append, holdsAt_append]
    constructor
    · exact holds.held.store_disjoint (Or.inl (Nat.le_of_eq length))
    · rw [show dbFileHeadLen + (records.flatMap Record.bytes).length = used records from length]
      simpa using holdsAt_store file.bytes (used records) record.bytes
  · intro pos early
    have start := used_ge records
    dsimp only
    rw [store_outside (Or.inl (by simp only [dbFileHeadLen] at early; omega))]
    exact holds.headClear pos early
  · intro pos late inside
    dsimp only
    rw [store_outside (Or.inr (by rw [Record.bytes_length]; omega))]
    exact holds.restClear pos (by omega) inside

theorem write_head {file : DbFile} {records : List Record} {head : List UInt8} (holds : FileHolds file records)
    (length : head.length = dbFileHeadLen) (clear : ∀ byte ∈ head, byte ≠ msgHeadOfFirstMagicNum) :
    FileHolds { file with bytes := store file.bytes 0 head } records := by
  refine ⟨holds.size, holds.room, ?_, ?_, ?_⟩
  · exact holds.held.store_disjoint (Or.inr (by omega))
  · intro pos early
    dsimp only
    rcases @store_mem_or file.bytes 0 pos head with written | kept
    · exact clear _ written
    · rw [kept]
      exact holds.headClear pos early
  · intro pos late inside
    have start := used_ge records
    dsimp only
    rw [store_outside (Or.inr (by simp only [dbFileHeadLen] at length; omega))]
    exact holds.restClear pos late inside

end FileHolds

def blankFile : DbFile :=
  { size := maxDbFileSize, bytes := store (fun _ => 0) (maxDbFileSize - 1) [48] }

theorem blankFile_clear (pos : Nat) : blankFile.bytes pos ≠ msgHeadOfFirstMagicNum := by
  simp only [blankFile]
  rcases @store_mem_or (fun _ => 0) (maxDbFileSize - 1) pos [48] with written | kept
  · rw [mem_singleton.mp written]
    decide
  · rw [kept]
    decide

theorem blankFile_holds : FileHolds blankFile [] where
  size := rfl
  room := by simp
  held := holdsAt_nil _ _
  headClear := fun pos _ => blankFile_clear pos
  restClear := fun pos _ _ => blankFile_clear pos

theorem padded_byte_clear {width value : Nat} {byte : UInt8}
    (member : byte ∈ Decimal.padded width value) : byte ≠ msgHeadOfFirstMagicNum := by
  have bounds := fixedDigits_digit member
  rintro rfl
  exact absurd bounds.2 (by decide)

theorem dbFileHead_text_length (optCount : UInt32) :
    (Decimal.padded 1 dbFileVersion ++ Decimal.padded 12 optCount.toNat).length = 13 := by
  have bound := optCount.toNat_lt
  rw [padded_of_fits (by omega) (by simp [dbFileVersion]),
    padded_of_fits (by omega) (by omega)]
  simp

theorem dbFileHead_length (optCount : UInt32) : (dbFileHead optCount).length = dbFileHeadLen := by
  have text := dbFileHead_text_length optCount
  simp only [length_append] at text
  simp only [dbFileHead, length_append, length_replicate, dbFileHeadLen, text]

theorem dbFileHead_clear (optCount : UInt32) : ∀ byte ∈ dbFileHead optCount, byte ≠ msgHeadOfFirstMagicNum := by
  intro byte member
  simp only [dbFileHead, mem_append, mem_replicate] at member
  rcases member with (version | count) | ⟨_, rfl⟩
  · exact padded_byte_clear version
  · exact padded_byte_clear count
  · decide

end Libucmq
