import Mathlib.Tactic.IntervalCases
import Libucmq.Store.Noted

/-! The process stops in the middle of a file rollover. -/

namespace Libucmq

open Segments List

def crashDir (before after : Os) (count : Nat) : QueueDir :=
  before.dir.applyAll ((after.trace.drop before.trace.length).take count)

theorem crashDir_eq {before after : Os} {effects : List Effect} {count : Nat}
    (trace : before.trace ++ effects <+: after.trace) (bound : count ≤ effects.length) :
    crashDir before after count = before.dir.applyAll (effects.take count) := by
  obtain ⟨later, same⟩ := trace
  rw [crashDir, ← same, append_assoc, drop_left, take_append_of_le_length bound]

variable {cwd : FileName → Bool} {listing : List FileName} {dir : QueueDir}

theorem Lists.firstTag_some (lists : Lists dir listing) {kind : TagKind} {index : UInt64}
    (present : dir.tag kind index ≠ none) :
    ∃ found, firstTag kind listing = some (.tag kind found) ∧ dir.tag kind found ≠ none := by
  have member : .tag kind index ∈ listing.filter (FileName.isTag kind) :=
    mem_filter.mpr ⟨(lists.tag kind index).mpr present, by simp [FileName.isTag]⟩
  rw [firstTag]
  cases tags : listing.filter (FileName.isTag kind) with
  | nil => simp [tags] at member
  | cons head rest =>
    have first : head ∈ listing.filter (FileName.isTag kind) := by
      rw [tags]
      exact mem_cons_self
    obtain ⟨inside, isTag⟩ := mem_filter.mp first
    cases head with
    | db index => simp [FileName.isTag] at isTag
    | tag other place =>
      simp only [FileName.isTag, decide_eq_true_eq] at isTag
      subst isTag
      exact ⟨place, rfl, (lists.tag kind place).mp inside⟩

theorem Lists.search (lists : Lists dir listing) (elsewhere : ∀ name, cwd name = false)
    {first last rtag wtag : UInt64} (firstIn : dir.db first ≠ none) (lastIn : dir.db last ≠ none)
    (range : ∀ index, dir.db index ≠ none → first.toNat ≤ index.toNat ∧ index.toNat ≤ last.toNat)
    (fits : last.toNat < 10 ^ 12) (rtagFirst : firstTag .rtag listing = some (.tag .rtag rtag))
    (wtagFirst : firstTag .wtag listing = some (.tag .wtag wtag)) (rtagFits : rtag.toNat < 10 ^ 12)
    (wtagFits : wtag.toNat < 10 ^ 12) : findHandleFile cwd listing =
      if rtag = first ∧ wtag = last then some (handleOf first last) else none := by
  obtain ⟨read, write⟩ := @Lists.find_db cwd dir listing lists first last firstIn lastIn range fits {} rfl rfl
  have firstFits := (range first firstIn).2
  exact findHandleFile_eq _ rfl read write ((find_firstTag .rtag {} rfl elsewhere).trans rtagFirst)
    ((find_firstTag .wtag {} rfl elsewhere).trans wtagFirst) (by omega) fits rtagFits wtagFits

theorem openQueue_rejected (qname : List UInt8) (os : Os) (found : findHandleFile cwd listing = none) :
    openQueue qname cwd listing os = none := by
  rw [openQueue, found]

theorem openQueue_emptyTag (qname : List UInt8) {os : Os} {first last : UInt64}
    (found : findHandleFile cwd listing = some (handleOf first last))
    (empty : os.dir.tag .wtag last = some []) : openQueue qname cwd listing os = none := by
  have keeps : (mqSmTagOpenFile .rtag first os).2.dir = os.dir := by
    rw [mqSmTagOpenFile]
    split
    · split
      · rfl
      · rw [Os.openTag, Os.attempt]
        simp only [Bool.false_eq_true, ↓reduceIte]
        split <;> rfl
    · rfl
  rw [openQueue, found]
  simp only [handleOf]
  cases opened : mqSmTagOpenFile .rtag first os with
  | mk fd middle =>
    rw [opened] at keeps
    cases fd with
    | none => rfl
    | some fd =>
      have refused : mqSmTagOpenFile .wtag last middle = (none, middle) := by
        rw [mqSmTagOpenFile, keeps, empty]
        simp [toCInt]
      simp only [refused]

theorem crash_accepted (qname : List UInt8) {first last getNum : UInt64} {pos : UInt32} {line : WtagLine}
    {rtagFront wtagFront : List UInt8} {model : QueueModel}
    (found : findHandleFile cwd listing = some (handleOf first last)) (stores : Stores dir model.log)
    (firstEq : first.toNat = model.log.first) (lastEq : last.toNat = model.log.last)
    (rtag : dir.tag .rtag first = some (rtagFront ++ rtagItem getNum pos))
    (rtagSize : 31 ≤ toCInt (rtagFront ++ rtagItem getNum pos).length) (readPos : ReadPos model.log.done pos.toNat)
    (wtag : dir.tag .wtag last = some (wtagFront ++ wtagItem line.putNum line.pos line.maxque))
    (wtagSize : 41 ≤ toCInt (wtagFront ++ wtagItem line.putNum line.pos line.maxque).length)
    (linePos : line.pos.toNat = used model.log.tail) (getNumEq : model.getNum = getNum)
    (putNumEq : model.putNum = line.putNum) (maxqueEq : model.maxque = line.maxque) (covered : model.Covered) :
    ∃ next, openQueue qname cwd listing { dir } = some next ∧ Delivers next model.bodies := by
  obtain ⟨readFile, readFound, readHolds⟩ := stores.files first (by omega)
    (by rw [firstEq, Log.last]; omega)
  obtain ⟨writeFile, writeFound, writeHolds⟩ := stores.files last
    (by rw [lastEq, Log.last]; omega) (by omega)
  rw [firstEq, Nat.sub_self, Log.segment] at readHolds
  rw [lastEq, Log.last, Nat.add_sub_cancel_left] at writeHolds
  have readRoom := readHolds.room
  have writeRoom : used model.log.tail ≤ maxDbFileSize := writeHolds.room
  have whole := used_append model.log.done model.log.rest
  rw [maxDbFileSize_eq] at readRoom writeRoom
  have posBound : pos.toNat ≤ 67108864 := by
    rcases readPos with atRecord | ⟨_, early⟩ <;> omega
  obtain ⟨next, openEq, opened⟩ := @openQueue_opened cwd listing { dir } qname first last getNum pos line
    rtagFront wtagFront readFile writeFile (fun _ => rfl) (fun _ _ => ⟨rfl, rfl⟩) found rtag rtagSize
    posBound wtag wtagSize (by omega) readFound readHolds.size writeFound writeHolds.size
  have rep : Rep False next.queue next.os model :=
    opened.rep stores firstEq lastEq readPos linePos getNumEq putNumEq maxqueEq False.elim
  exact ⟨next, openEq, rep.delivers covered⟩

def Recovers (qname : List UInt8) (cwd : FileName → Bool) (listing : List FileName) (dir : QueueDir)
    (accepted : Prop) (waiting : List (List UInt8)) : Prop :=
  (openQueue qname cwd listing { dir } ≠ none ↔ accepted) ∧
    ∀ next, openQueue qname cwd listing { dir } = some next → Delivers next waiting

variable {qname : List UInt8}

theorem recovers_of_accepted {accepted : Prop} {waiting : List (List UInt8)} (holds : accepted)
    (opens : ∃ next, openQueue qname cwd listing { dir } = some next ∧ Delivers next waiting) :
    Recovers qname cwd listing dir accepted waiting := by
  obtain ⟨next, openEq, delivers⟩ := opens
  refine ⟨by simp [openEq, holds], fun other otherEq => ?_⟩
  rw [openEq] at otherEq
  exact Option.some.inj otherEq ▸ delivers

theorem recovers_of_rejected {accepted : Prop} (waiting : List (List UInt8))
    (fails : ¬ accepted) (rejected : openQueue qname cwd listing { dir } = none) :
    Recovers qname cwd listing dir accepted waiting :=
  ⟨by simp [rejected, fails], fun next openEq => by simp [rejected] at openEq⟩

theorem Recovers.congr {accepted other : Prop} {waiting : List (List UInt8)}
    (recovers : Recovers qname cwd listing dir accepted waiting) (same : accepted ↔ other) :
    Recovers qname cwd listing dir other waiting := ⟨recovers.1.trans same, recovers.2⟩

structure Ready (queue : MqQueue) (os : Os) (model : QueueModel) : Prop where
  rep : Rep True queue os model
  noted : model.Noted
  pos : model.noted.pos.toNat = used model.log.tail
  size : 41 ≤ toCInt (41 * model.lines)
  fits : model.log.last + 1 < 10 ^ 12

namespace Ready

variable {queue : MqQueue} {os : Os} {model : QueueModel}

section

variable (ready : Ready queue os model)

include ready

theorem range {index : UInt64} (present : os.dir.db index ≠ none) :
    queue.curRdb.curIndex.toNat ≤ index.toNat ∧ index.toNat ≤ queue.curWdb.curIndex.toNat := by
  rw [ready.rep.readIndex, ready.rep.writeIndex]
  exact ⟨Nat.le_of_not_lt fun early => present ((ready.rep.tags trivial).noneBefore index early),
    Nat.le_of_not_lt fun late => present (ready.rep.absent index late)⟩

theorem write_lt : queue.curWdb.curIndex.toNat + 1 < 10 ^ 12 := by
  rw [ready.rep.writeIndex]
  exact ready.fits

theorem write_succ : (queue.curWdb.curIndex + 1).toNat = queue.curWdb.curIndex.toNat + 1 := by
  have bound := ready.write_lt
  exact index_next (by omega)

theorem read_succ : (queue.curRdb.curIndex + 1).toNat = queue.curRdb.curIndex.toNat + 1 := by
  have bound := ready.write_lt
  have order := ready.rep.read_le_write
  exact index_next (by omega)

theorem rtag : ∃ front pos, ReadPos model.log.done pos.toNat ∧
    os.dir.tag .rtag queue.curRdb.curIndex = some (front ++ rtagItem model.getNum pos) ∧
    31 ≤ toCInt (front ++ rtagItem model.getNum pos).length := by
  obtain ⟨front, pos, readPos, length, content, _⟩ := (ready.rep.tags trivial).rtag
  obtain ⟨file, _, holds⟩ := ready.rep.head_file
  have room := holds.room
  have bound := used_length (model.log.done ++ model.log.rest)
  simp only [length_append, maxDbFileSize_eq] at bound room
  refine ⟨front, pos, readPos, content, ?_⟩
  rw [length, toCInt_of_lt (by omega)]
  omega

theorem wtag : ∃ front, os.dir.tag .wtag queue.curWdb.curIndex =
      some (front ++ wtagItem model.noted.putNum model.noted.pos model.noted.maxque) ∧
    41 ≤ toCInt (front ++ wtagItem model.noted.putNum model.noted.pos model.noted.maxque).length := by
  obtain ⟨front, lineEq⟩ := (ready.rep.tags trivial).line
  obtain ⟨content, length, contentEq, _⟩ := (ready.rep.tags trivial).wtag
  obtain rfl := Option.some.inj (contentEq.symm.trans lineEq)
  exact ⟨front, lineEq, by rw [length]; exact ready.size⟩

theorem reopened_covered : model.reopened.Covered :=
  ready.noted.reopened.covered

theorem old_files (qname : List UInt8) (lists : Lists dir listing) (elsewhere : ∀ name, cwd name = false)
    (db : dir.db = os.dir.db) {rtag wtag : UInt64} (rtagFirst : firstTag .rtag listing = some (.tag .rtag rtag))
    (wtagFirst : firstTag .wtag listing = some (.tag .wtag wtag)) (rtagFits : rtag.toNat < 10 ^ 12)
    (wtagFits : wtag.toNat < 10 ^ 12)
    (rtagSame : rtag = queue.curRdb.curIndex → dir.tag .rtag rtag = os.dir.tag .rtag rtag)
    (wtagSame : wtag = queue.curWdb.curIndex → dir.tag .wtag wtag = os.dir.tag .wtag wtag) :
    Recovers qname cwd listing dir (rtag = queue.curRdb.curIndex ∧ wtag = queue.curWdb.curIndex) model.bodies := by
  obtain ⟨_, readFound, _⟩ := ready.rep.head_file
  obtain ⟨_, writeFound, _⟩ := ready.rep.tail_file
  have search := lists.search elsewhere (by rw [db, readFound]; simp) (by rw [db, writeFound]; simp)
    (fun index present => ready.range (db ▸ present)) (Nat.lt_of_succ_lt ready.write_lt) rtagFirst wtagFirst
    rtagFits wtagFits
  by_cases both : rtag = queue.curRdb.curIndex ∧ wtag = queue.curWdb.curIndex
  · rw [if_pos both] at search
    obtain ⟨front, pos, readPos, content, size⟩ := ready.rtag
    obtain ⟨wtagFront, lineEq, lineSize⟩ := ready.wtag
    have rtagEq := rtagSame both.1
    have wtagEq := wtagSame both.2
    rw [both.1, content] at rtagEq
    rw [both.2, lineEq] at wtagEq
    have stores := ready.rep.stores
    exact recovers_of_accepted both (@crash_accepted cwd listing dir qname _ _ model.getNum pos model.noted
      front wtagFront model.reopened search ⟨by rw [db]; exact stores.files, by rw [db]; exact stores.absent⟩
      ready.rep.readIndex ready.rep.writeIndex rtagEq size readPos wtagEq lineSize ready.pos rfl rfl rfl
      ready.reopened_covered)
  · rw [if_neg both] at search
    exact recovers_of_rejected _ both (openQueue_rejected qname _ search)

section

variable (lists : Lists dir listing) (elsewhere : ∀ name, cwd name = false) {file : DbFile} {wtag : UInt64}
  (db : ∀ index, dir.db index = if index = queue.curWdb.curIndex + 1 then some file else os.dir.db index)
  (rtagFirst : firstTag .rtag listing = some (.tag .rtag queue.curRdb.curIndex))
  (wtagFirst : firstTag .wtag listing = some (.tag .wtag wtag)) (wtagFits : wtag.toNat < 10 ^ 12)

include lists elsewhere db rtagFirst wtagFirst wtagFits

theorem next_search :
    findHandleFile cwd listing = if wtag = queue.curWdb.curIndex + 1 then
      some (handleOf queue.curRdb.curIndex (queue.curWdb.curIndex + 1)) else none := by
  obtain ⟨_, readFound, _⟩ := ready.rep.head_file
  have succ := ready.write_succ
  have bound := ready.write_lt
  have order := ready.rep.read_le_write
  have apart : queue.curRdb.curIndex ≠ queue.curWdb.curIndex + 1 := by
    intro same
    rw [same] at order
    omega
  have search := lists.search elsewhere (by rw [db, if_neg apart, readFound]; simp)
    (by rw [db, if_pos rfl]; simp) (fun index present => by
      rw [db] at present
      split at present
      · rename_i same
        rw [same]
        omega
      · have limits := ready.range present
        omega) (by rw [succ]; exact bound) rtagFirst wtagFirst (by omega) wtagFits
  simpa using search

theorem next_untagged (qname : List UInt8)
    (empty : dir.tag .wtag (queue.curWdb.curIndex + 1) = some []) :
    Recovers qname cwd listing dir False model.bodies := by
  have search := ready.next_search lists elsewhere db rtagFirst wtagFirst wtagFits
  refine recovers_of_rejected _ id ?_
  split at search
  · exact openQueue_emptyTag qname search empty
  · exact openQueue_rejected qname _ search

theorem next_tagged (qname : List UInt8) (holds : FileHolds file [])
    (rtagSame : dir.tag .rtag queue.curRdb.curIndex = os.dir.tag .rtag queue.curRdb.curIndex)
    (line : dir.tag .wtag (queue.curWdb.curIndex + 1) = some (wtagItem queue.putNum 128 queue.maxque)) :
    Recovers qname cwd listing dir (wtag = queue.curWdb.curIndex + 1) model.bodies := by
  have search := ready.next_search lists elsewhere db rtagFirst wtagFirst wtagFits
  have succ := ready.write_succ
  by_cases same : wtag = queue.curWdb.curIndex + 1
  · rw [if_pos same] at search
    obtain ⟨front, pos, readPos, content, size⟩ := ready.rtag
    rw [content] at rtagSame
    rw [ready.rep.putNum, ready.rep.maxque] at line
    have place : (queue.curWdb.curIndex + 1).toNat = model.log.last + 1 := by rw [succ, ready.rep.writeIndex]
    have stores : Stores dir model.roll.log := ready.rep.stores.roll place holds db
    have covered : model.roll.Covered := by
      simpa [QueueModel.Covered, QueueModel.unread, QueueModel.roll] using ready.noted.covered
    have accepted := @crash_accepted cwd listing dir qname _ _ model.getNum pos model.roll.noted
      front [] model.roll search stores ready.rep.readIndex
      (place.trans (Log.roll_last model.log).symm) rtagSame size readPos line
      (by rw [nil_append, wtagItem_length]; decide)
      (by rw [show model.roll.log.tail = [] from Log.roll_tail model.log]; rfl) rfl rfl rfl covered
    have bodies : model.roll.bodies = model.bodies := by
      simp [QueueModel.bodies, QueueModel.unread, QueueModel.roll]
    rw [bodies] at accepted
    exact recovers_of_accepted same accepted
  · rw [if_neg same] at search
    exact recovers_of_rejected _ same (openQueue_rejected qname _ search)

end

theorem next_read (qname : List UInt8) {next : List Record} {more : List (List Record)} (rest : model.log.rest = [])
    (later : model.log.more = next :: more) (lists : Lists dir listing) (elsewhere : ∀ name, cwd name = false)
    (db : ∀ index, dir.db index = if index = queue.curRdb.curIndex then none else os.dir.db index)
    (rtagFirst : firstTag .rtag listing = some (.tag .rtag (queue.curRdb.curIndex + 1)))
    (wtagFirst : firstTag .wtag listing = some (.tag .wtag queue.curWdb.curIndex))
    (rtag : dir.tag .rtag (queue.curRdb.curIndex + 1) = some (rtagItem queue.getNum 128))
    (wtagSame : dir.tag .wtag queue.curWdb.curIndex = os.dir.tag .wtag queue.curWdb.curIndex) :
    Recovers qname cwd listing dir True model.bodies := by
  have succ := ready.read_succ
  have bound := ready.write_lt
  have readIndex := ready.rep.readIndex
  have writeIndex := ready.rep.writeIndex
  have last : model.log.last = model.log.first + more.length + 1 := by
    rw [Log.last, later, length_cons, Nat.add_assoc]
  let moved : Log Record := { first := model.log.first + 1, done := [], rest := next, more }
  have movedLast : moved.last = model.log.last := Log.last_behind later
  have movedStores : Stores dir moved := ready.rep.stores.behind later readIndex db
  obtain ⟨file, readFound, _⟩ := movedStores.files (queue.curRdb.curIndex + 1)
    (by rw [succ, readIndex]) (by rw [succ, readIndex, movedLast]; omega)
  obtain ⟨_, writeFound, _⟩ := movedStores.files queue.curWdb.curIndex
    (by rw [writeIndex, last]; simp only [moved]; omega) (by rw [writeIndex, movedLast])
  have search := lists.search elsewhere (by rw [readFound]; simp) (by rw [writeFound]; simp)
    (fun index present => by
      rw [db] at present
      split at present
      · exact absurd rfl present
      · rename_i different
        have limits := ready.range present
        have apart : index.toNat ≠ queue.curRdb.curIndex.toNat :=
          fun equal => different (UInt64.toNat_inj.mp equal)
        omega)
    (by omega) rtagFirst wtagFirst (by omega) (by omega)
  rw [if_pos ⟨rfl, rfl⟩] at search
  obtain ⟨wtagFront, lineEq, lineSize⟩ := ready.wtag
  rw [lineEq] at wtagSame
  rw [ready.rep.getNum] at rtag
  have pending : moved.pending = model.log.pending := by
    simp [moved, Log.pending, rest, later]
  have tail : moved.tail = model.log.tail := Log.tail_behind later
  have covered : { model.reopened with log := moved }.Covered := by
    have before := ready.reopened_covered
    rw [QueueModel.Covered, QueueModel.unread] at before ⊢
    rw [pending]
    exact before
  have accepted := @crash_accepted cwd listing dir qname _ _ model.getNum 128 model.noted [] wtagFront
    { model.reopened with log := moved } search movedStores (by rw [succ, readIndex])
    (by rw [writeIndex, movedLast]) rtag (by rw [nil_append, rtagItem_length]; decide)
    (Or.inl rfl) wtagSame lineSize (by rw [tail]; exact ready.pos) rfl rfl rfl covered
  have bodies : { model.reopened with log := moved }.bodies = model.bodies := by
    rw [QueueModel.bodies, QueueModel.bodies, QueueModel.unread, QueueModel.unread, pending]
  rw [bodies] at accepted
  exact recovers_of_accepted trivial accepted

end

end Ready

/-- After which effects of `get_next_write_file` a restart accepts the queue. -/
def SurvivesWrite (queue : MqQueue) (listing : List FileName) (count : Nat) : Prop :=
  count = 0 ∨ 7 ≤ count ∨
    count = 1 ∧ firstTag .wtag listing = some (.tag .wtag queue.curWdb.curIndex) ∨
    count = 6 ∧ firstTag .wtag listing = some (.tag .wtag (queue.curWdb.curIndex + 1))

def SurvivesRead (queue : MqQueue) (listing : List FileName) (count : Nat) : Prop :=
  count = 0 ∨ 4 ≤ count ∨
    (count = 1 ∨ count = 2) ∧ firstTag .rtag listing = some (.tag .rtag queue.curRdb.curIndex)

namespace Ready

variable {queue : MqQueue} {os : Os} {model : QueueModel}

section

variable (ready : Ready queue os model)

include ready

theorem next_absent : os.dir.db (queue.curWdb.curIndex + 1) = none ∧
      os.dir.tag .wtag (queue.curWdb.curIndex + 1) = none := by
  have succ := ready.write_succ
  refine ⟨ready.rep.absent _ (by rw [succ, ready.rep.writeIndex]; omega),
    (ready.rep.tags trivial).wtagAlone _ fun same => ?_⟩
  rw [same] at succ
  omega

theorem write_crash_dir {count : Nat} (lower : 2 ≤ count) (upper : count ≤ 7) :
    let crashed := os.dir.applyAll ((writeRollEffects queue).take count)
    (∃ file, crashed.db (queue.curWdb.curIndex + 1) = some file ∧ (6 ≤ count → FileHolds file [])) ∧
      (∀ index, index ≠ queue.curWdb.curIndex + 1 → crashed.db index = os.dir.db index) ∧
      crashed.tag .rtag = os.dir.tag .rtag ∧
      crashed.tag .wtag (queue.curWdb.curIndex + 1) =
        some (if count < 6 then [] else wtagItem queue.putNum 128 queue.maxque) ∧
      ∀ index, index ≠ queue.curWdb.curIndex + 1 → crashed.tag .wtag index =
        if count = 7 ∧ index = queue.curWdb.curIndex then none else os.dir.tag .wtag index := by
  obtain ⟨dbAbsent, tagAbsent⟩ := ready.next_absent
  have apart : queue.curWdb.curIndex + 1 ≠ queue.curWdb.curIndex := by
    have succ := ready.write_succ
    intro same
    rw [same] at succ
    omega
  have headed := blankFile_holds.write_head (dbFileHead_length 0) (dbFileHead_clear 0)
  have created : (os.dir.apply (.createTag .wtag (queue.curWdb.curIndex + 1))).apply
      (.createDb (queue.curWdb.curIndex + 1)) =
        (os.dir.setTag .wtag (queue.curWdb.curIndex + 1) (some [])).setDb (queue.curWdb.curIndex + 1)
          (some { size := 0, bytes := fun _ => 0 }) := by
    rw [QueueDir.apply_createTag_absent tagAbsent, QueueDir.apply_createDb_absent (by simpa using dbAbsent)]
  dsimp only
  interval_cases count <;>
    simp only [writeRollEffects, take_succ_cons, take_zero, QueueDir.applyAll_cons,
      QueueDir.applyAll_nil, created] <;>
    refine ⟨⟨_, by simp; rfl, fun wide => ?_⟩, fun index other => by simp [other],
      by funext index; simp, by simp [apart, overwrite], fun index other => by simp [other]⟩
  all_goals first | omega | simpa [blankFile] using headed

theorem first_rtag (lists : Lists dir listing)
    (same : dir.tag .rtag = os.dir.tag .rtag) : firstTag .rtag listing = some (.tag .rtag queue.curRdb.curIndex) := by
  obtain ⟨_, _, _, content, _⟩ := ready.rtag
  obtain ⟨found, firstEq, present⟩ := @Lists.firstTag_some listing dir lists .rtag
    queue.curRdb.curIndex (by rw [same, content]; simp)
  by_contra other
  rw [same] at present
  exact present ((ready.rep.tags trivial).rtagAlone found fun equal => other (by rw [firstEq, equal]))

theorem first_wtag (lists : Lists dir listing)
    (same : dir.tag .wtag = os.dir.tag .wtag) : firstTag .wtag listing = some (.tag .wtag queue.curWdb.curIndex) := by
  obtain ⟨_, content, _⟩ := ready.wtag
  obtain ⟨found, firstEq, present⟩ := @Lists.firstTag_some listing dir lists .wtag
    queue.curWdb.curIndex (by rw [same, content]; simp)
  by_contra other
  rw [same] at present
  exact present ((ready.rep.tags trivial).wtagAlone found fun equal => other (by rw [firstEq, equal]))

theorem write_apart : queue.curWdb.curIndex ≠ queue.curWdb.curIndex + 1 := by
  have succ := ready.write_succ
  intro same
  rw [← same] at succ
  omega

theorem read_fits : queue.curRdb.curIndex.toNat < 10 ^ 12 := by
  have order := ready.rep.read_le_write
  have bound := ready.write_lt
  omega

theorem write_crash_early (qname : List UInt8) (elsewhere : ∀ name, cwd name = false) {count : Nat}
    (early : count ≤ 1) (lists : Lists (os.dir.applyAll ((writeRollEffects queue).take count)) listing) :
    Recovers qname cwd listing (os.dir.applyAll ((writeRollEffects queue).take count))
      (SurvivesWrite queue listing count) model.bodies := by
  have succ := ready.write_succ
  have fits := ready.write_lt
  have apart := ready.write_apart
  obtain ⟨_, lineEq, _⟩ := ready.wtag
  have alone := (ready.rep.tags trivial).wtagAlone
  -- The data files are the old ones; after one effect there is an empty write tag as well.
  have created := QueueDir.apply_createTag_absent ready.next_absent.2
  have facts : (os.dir.applyAll ((writeRollEffects queue).take count)).db = os.dir.db ∧
      (os.dir.applyAll ((writeRollEffects queue).take count)).tag .rtag = os.dir.tag .rtag ∧
      ∀ index, (os.dir.applyAll ((writeRollEffects queue).take count)).tag .wtag index =
        if count = 1 ∧ index = queue.curWdb.curIndex + 1 then some [] else os.dir.tag .wtag index := by
    interval_cases count
    · simp [QueueDir.applyAll]
    · simp only [writeRollEffects, take_succ_cons, take_zero, QueueDir.applyAll_cons,
        QueueDir.applyAll_nil, created]
      exact ⟨rfl, by funext index; simp, fun index => by simp⟩
  obtain ⟨db, rtagSame, wtagSame⟩ := facts
  obtain ⟨found, firstEq, present⟩ := @Lists.firstTag_some listing _ lists .wtag queue.curWdb.curIndex
    (by rw [wtagSame, lineEq]; simp [apart])
  have which : found = queue.curWdb.curIndex ∨ count = 1 ∧ found = queue.curWdb.curIndex + 1 := by
    rw [wtagSame] at present
    by_contra neither
    simp only [not_or] at neither
    rw [if_neg neither.2] at present
    exact present (alone found neither.1)
  refine (ready.old_files qname lists elsewhere db (ready.first_rtag lists rtagSame) firstEq ready.read_fits
    (by rcases which with same | ⟨_, same⟩ <;> rw [same] <;> omega) (fun _ => by rw [rtagSame])
    (fun same => by rw [wtagSame, same]; simp [apart])).congr ?_
  simp only [SurvivesWrite, firstEq, Option.some.injEq, FileName.tag.injEq, true_and]
  constructor
  · intro same
    by_cases zero : count = 0
    · exact Or.inl zero
    · exact Or.inr (Or.inr (Or.inl ⟨by omega, same⟩))
  · rintro (zero | seven | ⟨_, same⟩ | ⟨six, _⟩)
    · exact which.resolve_right fun both => absurd both.1 (by omega)
    · omega
    · exact same
    · omega

theorem write_crash_late (qname : List UInt8) (elsewhere : ∀ name, cwd name = false) {count : Nat} (late : 2 ≤ count)
    (bound : count ≤ 7) (lists : Lists (os.dir.applyAll ((writeRollEffects queue).take count)) listing) :
    Recovers qname cwd listing (os.dir.applyAll ((writeRollEffects queue).take count))
      (SurvivesWrite queue listing count) model.bodies := by
  have succ := ready.write_succ
  have fits := ready.write_lt
  have alone := (ready.rep.tags trivial).wtagAlone
  obtain ⟨⟨file, fileEq, holds⟩, otherDb, rtagSame, nextTag, otherTag⟩ :=
    ready.write_crash_dir late bound
  have db : ∀ index, (os.dir.applyAll ((writeRollEffects queue).take count)).db index =
      if index = queue.curWdb.curIndex + 1 then some file else os.dir.db index := by
    intro index
    split
    · rename_i same
      rw [same, fileEq]
    · rename_i other
      exact otherDb index other
  obtain ⟨found, firstEq, present⟩ := @Lists.firstTag_some listing _ lists .wtag
    (queue.curWdb.curIndex + 1) (by rw [nextTag]; simp)
  have which : found = queue.curWdb.curIndex + 1 ∨ count ≠ 7 ∧ found = queue.curWdb.curIndex := by
    by_cases next : found = queue.curWdb.curIndex + 1
    · exact Or.inl next
    · rw [otherTag found next] at present
      by_cases old : found = queue.curWdb.curIndex
      · exact Or.inr ⟨fun seven => present (by simp [seven, old]), old⟩
      · exact absurd (alone found old) (by simpa [old] using present)
  have foundFits : found.toNat < 10 ^ 12 := by
    rcases which with same | ⟨_, same⟩ <;> rw [same] <;> omega
  by_cases untagged : count < 6
  · refine (ready.next_untagged lists elsewhere db (ready.first_rtag lists rtagSame) firstEq foundFits qname
      (by rw [nextTag, if_pos untagged])).congr ?_
    simp only [SurvivesWrite, false_iff]
    omega
  · refine (ready.next_tagged lists elsewhere db (ready.first_rtag lists rtagSame) firstEq foundFits qname
      (holds (by omega)) (by rw [rtagSame]) (by rw [nextTag, if_neg untagged])).congr ?_
    simp only [SurvivesWrite, firstEq, Option.some.injEq, FileName.tag.injEq, true_and]
    constructor
    · intro same
      by_cases seven : count = 7
      · exact Or.inr (Or.inl (by omega))
      · exact Or.inr (Or.inr (Or.inr ⟨by omega, same⟩))
    · rintro (zero | seven | ⟨one, _⟩ | ⟨_, same⟩)
      · omega
      · exact which.resolve_right fun ⟨notSeven, _⟩ => by omega
      · omega
      · exact same

theorem write_crash (qname : List UInt8) (elsewhere : ∀ name, cwd name = false) {count : Nat} (bound : count ≤ 7)
    (lists : Lists (os.dir.applyAll ((writeRollEffects queue).take count)) listing) :
    Recovers qname cwd listing (os.dir.applyAll ((writeRollEffects queue).take count))
      (SurvivesWrite queue listing count) model.bodies := by
  by_cases early : count ≤ 1
  · exact ready.write_crash_early qname elsewhere early lists
  · exact ready.write_crash_late qname elsewhere (by omega) bound lists

theorem read_apart : queue.curRdb.curIndex ≠ queue.curRdb.curIndex + 1 := by
  have succ := ready.read_succ
  intro same
  rw [← same] at succ
  omega

theorem read_crash_dir {count : Nat} (bound : count ≤ 4) :
    let crashed := os.dir.applyAll ((readRollEffects queue).take count)
    (∀ index, crashed.db index =
        if count = 4 ∧ index = queue.curRdb.curIndex then none else os.dir.db index) ∧
      (∀ index, crashed.tag .wtag index = os.dir.tag .wtag index) ∧
      ∀ index, crashed.tag .rtag index =
        if index = queue.curRdb.curIndex + 1 then
          (if count = 0 then none else if count = 1 then some [] else some (rtagItem queue.getNum 128))
        else if 3 ≤ count ∧ index = queue.curRdb.curIndex then none
        else os.dir.tag .rtag index := by
  have absent := (ready.rep.tags trivial).rtagAlone _ ready.read_apart.symm
  have apart := ready.read_apart.symm
  have created := QueueDir.apply_createTag_absent absent
  dsimp only
  interval_cases count <;>
    simp only [readRollEffects, take_succ_cons, take_zero, QueueDir.applyAll_cons,
      QueueDir.applyAll_nil, created] <;>
    refine ⟨fun index => by simp, fun index => by simp, fun index => ?_⟩ <;>
    by_cases here : index = queue.curRdb.curIndex + 1 <;>
    simp [here, overwrite, apart, absent]

theorem read_crash (qname : List UInt8) {next : List Record} {more : List (List Record)} (rest : model.log.rest = [])
    (later : model.log.more = next :: more) (elsewhere : ∀ name, cwd name = false) {count : Nat} (bound : count ≤ 4)
    (lists : Lists (os.dir.applyAll ((readRollEffects queue).take count)) listing) :
    Recovers qname cwd listing (os.dir.applyAll ((readRollEffects queue).take count))
      (SurvivesRead queue listing count) model.bodies := by
  have succ := ready.read_succ
  have fits := ready.read_fits
  have writeFits := ready.write_lt
  have apart := ready.read_apart
  have alone := (ready.rep.tags trivial).rtagAlone
  have order : queue.curRdb.curIndex.toNat < queue.curWdb.curIndex.toNat := by
    rw [ready.rep.readIndex, ready.rep.writeIndex, Log.last, later, length_cons]
    omega
  obtain ⟨db, wtagSame, rtagEq⟩ := ready.read_crash_dir bound
  have wtagFirst := ready.first_wtag lists (funext wtagSame)
  obtain ⟨_, _, _, oldTag, _⟩ := ready.rtag
  -- There is a read tag at every moment; which one is listed first decides.
  obtain ⟨found, firstEq, present⟩ : ∃ found, firstTag .rtag listing = some (.tag .rtag found) ∧
      (os.dir.applyAll ((readRollEffects queue).take count)).tag .rtag found ≠ none := by
    by_cases early : count < 3
    · exact @Lists.firstTag_some listing _ lists .rtag queue.curRdb.curIndex
        (by rw [rtagEq, if_neg apart, if_neg (by omega), oldTag]; simp)
    · exact @Lists.firstTag_some listing _ lists .rtag (queue.curRdb.curIndex + 1)
        (by rw [rtagEq, if_pos rfl, if_neg (by omega), if_neg (by omega)]; simp)
  have which : (count ≠ 0 ∧ found = queue.curRdb.curIndex + 1) ∨
      (count < 3 ∧ found = queue.curRdb.curIndex) := by
    rw [rtagEq] at present
    by_cases next : found = queue.curRdb.curIndex + 1
    · rw [if_pos next] at present
      exact Or.inl ⟨fun zero => present (if_pos zero), next⟩
    · rw [if_neg next] at present
      by_cases old : found = queue.curRdb.curIndex
      · exact Or.inr ⟨Nat.lt_of_not_le fun late => present (if_pos ⟨late, old⟩), old⟩
      · exact absurd (alone found old) (by simpa [old] using present)
  have foundFits : found.toNat < 10 ^ 12 := by
    rcases which with ⟨_, same⟩ | ⟨_, same⟩ <;> rw [same] <;> omega
  by_cases whole : count = 4
  · have foundNext : found = queue.curRdb.curIndex + 1 := by
      rcases which with ⟨_, same⟩ | ⟨early, _⟩
      · exact same
      · omega
    refine (ready.next_read qname rest later lists elsewhere (fun index => by rw [db]; simp [whole])
      (foundNext ▸ firstEq) wtagFirst (by rw [rtagEq]; simp [whole]) (wtagSame _)).congr ?_
    simp [SurvivesRead, whole]
  · refine (ready.old_files qname lists elsewhere (funext fun index => by simp [db, whole]) firstEq wtagFirst
      foundFits (by omega) (fun same => ?_) (fun _ => wtagSame _)).congr ?_
    · rcases which with ⟨_, next⟩ | ⟨early, _⟩
      · exact absurd (same.symm.trans next) apart
      · rw [rtagEq, same, if_neg apart, if_neg (by omega)]
    · simp only [SurvivesRead, firstEq, Option.some.injEq, FileName.tag.injEq, true_and, and_true]
      constructor
      · intro same
        rcases which with ⟨_, next⟩ | ⟨early, _⟩
        · exact absurd (same.symm.trans next) apart
        · by_cases zero : count = 0
          · exact Or.inl zero
          · exact Or.inr (Or.inr ⟨by omega, same⟩)
      · rintro (zero | late | ⟨_, same⟩)
        · rcases which with ⟨began, _⟩ | ⟨_, same⟩
          · exact absurd zero began
          · exact same
        · omega
        · exact same

end

end Ready

structure Sized (node : Node) : Prop where
  size : ∀ content, node.os.dir.tag .wtag node.queue.curWdb.curIndex = some content →
    41 ≤ toCInt content.length
  fits : node.queue.curWdb.curIndex.toNat + 1 < 10 ^ 12

theorem Sized.ready {node : Node} {model : QueueModel} (sized : Sized node)
    (rep : Rep True node.queue node.os model) (noted : model.Noted)
    (written : ¬ (model.log.more = [] ∧ model.log.tail = [])) : Ready node.queue node.os model where
  rep
  noted
  pos := noted.pos.resolve_right written
  size := by
    obtain ⟨content, length, contentEq, _⟩ := (rep.tags trivial).wtag
    rw [← length]
    exact sized.size content contentEq
  fits := by
    rw [← rep.writeIndex]
    exact sized.fits

variable {queue : MqQueue} {os : Os} {model : QueueModel}

theorem Ready.sized {node : Node} (ready : Ready node.queue node.os model) : Sized node where
  size := by
    intro content contentEq
    obtain ⟨_, lineEq, size⟩ := ready.wtag
    obtain rfl := Option.some.inj (lineEq.symm.trans contentEq)
    exact size
  fits := ready.write_lt

theorem Ready.write_head (ready : Ready queue os model) (optCount : UInt32) :
    Ready queue (os.emit (.writeDb queue.curWdb.curIndex 0 (dbFileHead optCount))) model :=
  { ready with rep := ready.rep.write_head optCount }

theorem crashDir_push {after : Os} {count : Nat} (bound : count ≤ 7)
    (trace : os.trace ++ .writeDb queue.curWdb.curIndex 0 (dbFileHead queue.curWdb.optCount) ::
      writeRollEffects queue <+: after.trace) : crashDir os after (count + 1) =
      (os.emit (.writeDb queue.curWdb.curIndex 0 (dbFileHead queue.curWdb.optCount))).dir.applyAll
        ((writeRollEffects queue).take count) := by
  have length : (writeRollEffects queue).length = 7 := rfl
  rw [@crashDir_eq os after _ (count + 1) trace (by rw [length_cons, length]; omega),
    take_succ_cons, QueueDir.applyAll_cons]
  rfl

theorem Ready.push_crash (ready : Ready queue os model) (qname : List UInt8)
    (elsewhere : ∀ name, cwd name = false) {after : Os}
    (trace : os.trace ++ .writeDb queue.curWdb.curIndex 0 (dbFileHead queue.curWdb.optCount) ::
      writeRollEffects queue <+: after.trace) {count : Nat} (bound : count ≤ 7)
    (lists : Lists (crashDir os after (count + 1)) listing) :
    Recovers qname cwd listing (crashDir os after (count + 1)) (SurvivesWrite queue listing count) model.bodies := by
  rw [crashDir_push bound trace] at lists ⊢
  exact (ready.write_head _).write_crash qname elsewhere bound lists

theorem Ready.pop_crash (ready : Ready queue os model) (qname : List UInt8) (rest : model.log.rest = [])
    (more : model.log.more ≠ []) (elsewhere : ∀ name, cwd name = false) {after : Os}
    (trace : os.trace ++ readRollEffects queue <+: after.trace) {count : Nat} (bound : count ≤ 4)
    (lists : Lists (crashDir os after count) listing) :
    Recovers qname cwd listing (crashDir os after count) (SurvivesRead queue listing count) model.bodies := by
  obtain ⟨next, others, later⟩ := exists_cons_of_ne_nil more
  rw [crashDir_eq trace bound] at lists ⊢
  exact ready.read_crash qname rest later elsewhere bound lists

/-- Where a restart accepts the queue, all waiting messages come out. -/
theorem rollover_crash (ops : List StoreOp) (safe : Machine.Guarded storeStep StepSafe {} ops) :
    ∃ store answers, Machine.run storeStep {} ops = .ok (store, answers) ∧
      ∀ qname node, mqQmFindQueue store qname = some node → Sized node →
        ∃ waiting, acceptedOf qname ops answers = returnedOf qname ops answers ++ waiting ∧
          ∀ cwd listing, (∀ name, cwd name = false) →
            (∀ record, queueFull node.queue = false → writeFull node.queue record.item = true →
              ∃ next, queueStep node (.push record) = .ok (next, .put .putOk) ∧
                node.os.trace ++
                  .writeDb node.queue.curWdb.curIndex 0 (dbFileHead node.queue.curWdb.optCount) ::
                    writeRollEffects node.queue <+: next.os.trace ∧
                ∀ count ≤ 7, Lists (crashDir node.os next.os (count + 1)) listing →
                  Recovers qname cwd listing (crashDir node.os next.os (count + 1))
                    (SurvivesWrite node.queue listing count) waiting) ∧
            ∀ stack next answer, queueStep node (.pop stack) = .ok (next, answer) →
              node.os.trace ++ readRollEffects node.queue <+: next.os.trace →
                ∀ count ≤ 4, Lists (crashDir node.os next.os count) listing →
                  Recovers qname cwd listing (crashDir node.os next.os count)
                    (SurvivesRead node.queue listing count) waiting := by
  obtain ⟨store, runEq, showing, noted⟩ := storeRun_noted safe
  refine ⟨store, _, runEq, ?_⟩
  intro qname node found sized
  have balance := storeModelRun_balance {} qname ops
  obtain ⟨model, present, rep⟩ := showing.of_found found
  have waiting : (storeModelRun {} ops).1.bodies qname = model.bodies := by
    rw [StoreModel.bodies, present]
  rw [waiting, show StoreModel.bodies {} qname = [] from rfl, nil_append] at balance
  refine ⟨model.bodies, balance, fun cwd listing elsewhere => ⟨?_, ?_⟩⟩
  · intro record isOpen full
    have unfit : model.fits record = false := by
      rw [rep.writeFull_eq] at full
      simpa using full
    have ready := sized.ready rep (noted qname model present) (by
      rintro ⟨_, empty⟩
      have size := record.size_le
      rw [QueueModel.fits, empty, used_nil, maxDbFileSize_eq] at unfit
      simp only [decide_eq_false_iff_not] at unfit
      omega)
    obtain ⟨pushed, after, pushEq, trace⟩ := rep.push_trace record (rep.queueFull_eq.symm.trans isOpen) unfit
      (by have fits := ready.fits; omega)
    exact ⟨⟨pushed, after⟩, by rw [queueStep, pushEq], trace, fun count bound lists =>
      ready.push_crash qname elsewhere trace bound lists⟩
  · intro stack next answer popEq rolls count bound lists
    rw [queueStep] at popEq
    split at popEq
    · cases popEq
    · rename_i ret item queue os itemEq
      cases popEq
      obtain ⟨rest, more⟩ := rep.pop_rolls itemEq rolls
      exact (sized.ready rep (noted qname model present) fun alone => more alone.1).pop_crash qname rest more
        elsewhere rolls bound lists

def rolledListing (queue : MqQueue) (count : Nat) : List FileName :=
  [.db queue.curWdb.curIndex, .db (queue.curWdb.curIndex + 1), .tag .rtag queue.curWdb.curIndex,
    .tag .wtag (queue.curWdb.curIndex + 1)] ++
    if count = 7 then [] else [.tag .wtag queue.curWdb.curIndex]

theorem Ready.lists_rolled (ready : Ready queue os model) (alone : model.log.more = []) {count : Nat}
    (lower : 2 ≤ count) (upper : count ≤ 7) :
    Lists (os.dir.applyAll ((writeRollEffects queue).take count)) (rolledListing queue count) := by
  have same : queue.curRdb.curIndex = queue.curWdb.curIndex := by
    apply UInt64.toNat_inj.mp
    rw [ready.rep.readIndex, ready.rep.writeIndex, Log.last, alone]
    rfl
  have apart := ready.write_apart
  obtain ⟨⟨_, nextDb, _⟩, otherDb, rtagSame, nextTag, otherTag⟩ := ready.write_crash_dir lower upper
  obtain ⟨_, fileEq, _⟩ := ready.rep.tail_file
  obtain ⟨_, _, _, rtagEq, _⟩ := ready.rtag
  obtain ⟨_, wtagEq, _⟩ := ready.wtag
  rw [same] at rtagEq
  have rtagAlone := (ready.rep.tags trivial).rtagAlone
  have wtagAlone := (ready.rep.tags trivial).wtagAlone
  rw [same] at rtagAlone
  have succ := ready.write_succ
  refine ⟨fun index => ?_, fun kind index => ?_, ?_⟩
  · by_cases next : index = queue.curWdb.curIndex + 1
    · simp [rolledListing, next, nextDb]
    · rw [otherDb index next]
      by_cases here : index = queue.curWdb.curIndex
      · simp [rolledListing, here, fileEq]
      · have missing : os.dir.db index = none := by
          by_contra present
          obtain ⟨early, late⟩ := ready.range present
          rw [same] at early
          exact here (UInt64.toNat_inj.mp (Nat.le_antisymm late early))
        simp [rolledListing, next, here, missing]
  · cases kind with
    | rtag =>
      rw [rtagSame]
      by_cases here : index = queue.curWdb.curIndex
      · simp [rolledListing, here, rtagEq]
      · simp [rolledListing, here, rtagAlone index here]
    | wtag =>
      by_cases next : index = queue.curWdb.curIndex + 1
      · simp [rolledListing, next, nextTag]
      · rw [otherTag index next]
        by_cases here : index = queue.curWdb.curIndex
        · by_cases whole : count = 7 <;> simp [rolledListing, here, whole, wtagEq]
        · by_cases whole : count = 7 <;> simp [rolledListing, next, here, whole, wtagAlone index here]
  · by_cases whole : count = 7 <;> simp [rolledListing, whole, apart, apart.symm]

theorem wide_ready {record : Record} (wide : record.size = 67108736) :
    ∃ node, Machine.run storeStep {} [.add jobsName, .call jobsName (.push record)] =
        .ok (single jobsName node, [.added true, .called (.put .putOk)]) ∧
      Ready node.queue node.os (QueueModel.initial.store record).note ∧
      queueFull node.queue = false ∧ writeFull node.queue record.item = true := by
  obtain ⟨node, runEq, rep⟩ := @run_new jobsName [.push record] (by rw [length_singleton]; omega)
  have stored : QueueModel.initial.push record = ((QueueModel.initial.store record).note, .putOk) := by
    have fits : QueueModel.initial.fits record = true := by
      rw [QueueModel.fits, show QueueModel.initial.log.tail = [] from rfl, used_nil, maxDbFileSize_eq, wide]
      rfl
    rw [QueueModel.push, fits, show QueueModel.initial.full = false by decide]
    rfl
  have noted := QueueModel.noted_initial.push record fun _ => by decide
  rw [stored] at noted
  simp only [modelRun, Machine.specRun, QueueModel.step, stored] at runEq rep
  have tail : (QueueModel.initial.store record).note.log.tail = [record] := rfl
  refine ⟨node, runEq, ⟨rep, noted, noted.pos.resolve_right (by simp [tail]), ?_, ?_⟩, ?_, ?_⟩
  · change 41 ≤ toCInt (41 * 2)
    decide
  · change 1 + 0 + 1 < 10 ^ 12
    decide
  · rw [rep.queueFull_eq]
    change QueueModel.full { QueueModel.initial with putNum := 0 + 1 } = false
    decide
  · rw [rep.writeFull_eq, QueueModel.fits, tail, ← nil_append [record], used_concat, used_nil,
      maxDbFileSize_eq, wide]
    rfl

theorem wide_crash {record : Record} (wide : record.size = 67108736) {count : Nat} (lower : 2 ≤ count)
    (upper : count ≤ 7) : ∃ node next, Machine.run storeStep {} [.add jobsName, .call jobsName (.push record)] =
        .ok (single jobsName node, [.added true, .called (.put .putOk)]) ∧
      queueStep node (.push record) = .ok (next, .put .putOk) ∧
      Lists (crashDir node.os next.os (count + 1)) (rolledListing node.queue count) ∧
      Recovers jobsName (fun _ => false) (rolledListing node.queue count) (crashDir node.os next.os (count + 1))
        (SurvivesWrite node.queue (rolledListing node.queue count) count) [record.body] := by
  obtain ⟨node, runEq, ready, isOpen, full⟩ := wide_ready wide
  have unfit : ((QueueModel.initial.store record).note).fits record = false := by
    rw [ready.rep.writeFull_eq] at full
    simpa using full
  obtain ⟨pushed, after, pushEq, trace⟩ := ready.rep.push_trace record (ready.rep.queueFull_eq.symm.trans isOpen)
    unfit (by have fits := ready.fits; omega)
  have lists : Lists (crashDir node.os after (count + 1)) (rolledListing node.queue count) := by
    rw [crashDir_push upper trace]
    exact (ready.write_head _).lists_rolled rfl lower upper
  exact ⟨node, ⟨pushed, after⟩, runEq, by rw [queueStep, pushEq], lists,
    ready.push_crash jobsName (fun _ => rfl) trace upper lists⟩

theorem wide_guarded (record : Record) :
    Machine.Guarded storeStep StepSafe {} [.add jobsName, .call jobsName (.push record)] := by
  refine ⟨⟨trivial, trivial⟩, fun store answer addEq => ?_⟩
  obtain ⟨node, addedEq, rep⟩ := add_single jobsName
  rw [addedEq] at addEq
  cases addEq
  have found : ∀ other, mqQmFindQueue (single jobsName node) jobsName = some other → other = node := by
    intro other found
    rw [find_single, if_pos rfl] at found
    exact (Option.some.inj found).symm
  refine ⟨⟨fun other otherFound _ => ?_, fun other otherFound _ => ?_⟩, fun _ _ _ => trivial⟩
  · rw [found other otherFound, rep.writeIndex]
    decide
  · rw [found other otherFound, rep.putNum]
    decide

theorem rollover_crash_whole : ∃ store answers node next,
    Machine.run storeStep {} [.add jobsName, .call jobsName (.push wideRecord)] = .ok (store, answers) ∧
      mqQmFindQueue store jobsName = some node ∧
      queueStep node (.push wideRecord) = .ok (next, .put .putOk) ∧
      openQueue jobsName (fun _ => false) (rolledListing node.queue 7) { dir := crashDir node.os next.os 8 } ≠
        none := by
  have wide : wideRecord.size = 67108736 := zeroRecord_size _ _ _
  obtain ⟨store, answers, runEq, crash⟩ :=
    rollover_crash [.add jobsName, .call jobsName (.push wideRecord)] (wide_guarded wideRecord)
  obtain ⟨node, newEq, ready, isOpen, full⟩ := wide_ready wide
  rw [runEq] at newEq
  cases newEq
  have found : mqQmFindQueue (single jobsName node) jobsName = some node := by
    rw [find_single, if_pos rfl]
  obtain ⟨_, _, crashes⟩ := crash jobsName node found ready.sized
  obtain ⟨next, pushEq, trace, recovers⟩ :=
    (crashes (fun _ => false) (rolledListing node.queue 7) fun _ => rfl).1 wideRecord isOpen full
  refine ⟨_, _, node, next, runEq, found, pushEq, (recovers 7 (by omega) ?_).1.mpr (Or.inr (Or.inl (by omega)))⟩
  rw [crashDir_push (by omega) trace]
  exact (ready.write_head _).lists_rolled rfl (by omega) (by omega)

theorem rollover_crash_loses : ∃ store answers node next listing,
    Machine.run storeStep {} [.add jobsName, .call jobsName (.push wideRecord)] = .ok (store, answers) ∧
      mqQmFindQueue store jobsName = some node ∧
      queueStep node (.push wideRecord) = .ok (next, .put .putOk) ∧
      Lists (crashDir node.os next.os 3) listing ∧
      openQueue jobsName (fun _ => false) listing { dir := crashDir node.os next.os 3 } = none ∧
      acceptedOf jobsName [.add jobsName, .call jobsName (.push wideRecord)] answers ≠
        returnedOf jobsName [.add jobsName, .call jobsName (.push wideRecord)] answers := by
  obtain ⟨node, next, runEq, pushEq, lists, recovers, _⟩ :=
    @wide_crash wideRecord (zeroRecord_size _ _ _) 2 (by omega) (by omega)
  refine ⟨_, _, node, next, _, runEq, by rw [find_single, if_pos rfl], pushEq, lists, ?_, ?_⟩
  · by_contra accepted
    have survives := recovers.mp accepted
    simp [SurvivesWrite] at survives
  · simp [acceptedOf, returnedOf, accepted, returned]

end Libucmq
