import Libucmq.Library.Loop
import Libucmq.Library.Heap
import Libucmq.Topo.Query

/-! `get_road_list_by_road`: the walk along the most straight lines. -/

namespace Libucmq.Topo

open Function CString

def toInt (value : Int) : Int := value.bmod 4294967296

def toUint64 (value : Int) : Nat := (value % 18446744073709551616).toNat

def strchr (char : UInt8) : List UInt8 → Except Fault (Option (List UInt8))
  | [] => .error .outside
  | first :: rest =>
    if first = char then .ok (some (first :: rest)) else if first = 0 then .ok none else strchr char rest

def behindNumber (text : List UInt8) : List UInt8 :=
  let text := text.dropWhile isSpace
  (if text.head? = some 43 ∨ text.head? = some 45 then text.tail else text).dropWhile isDigit

def atoi (text : List UInt8) : Except Fault Int :=
  if behindNumber text = [] then .error .outside else .ok (CString.atoi text)

def numberBehindColon (text : List UInt8) : Except Fault (Int × List UInt8) := do
  match ← strchr 58 text with
  | none => .error .null
  | some ptr =>
    let number ← atoi ptr.tail
    .ok (number, ptr.tail)

def roadArgs (info : QueryArgs) : Except Fault (Nat × Int) :=
  if 32 < info.len then .error .outside
  else do
    let tmp := Heap.padded 0 32 ((info.data.take info.len).takeWhile (· ≠ 0))
    let (road, rest) ← numberBehindColon tmp
    let (meter, _) ← numberBehindColon rest
    .ok (toUint64 road, meter)

def putRoad (info : QueryArgs) (i id : Nat) (threshold lineLen : Int) : QueryArgs :=
  { info with
    buf := update (update info.buf (i * 2) (some id)) (i * 2 + 1)
      (some (toUint64 (if threshold < 0 then threshold else lineLen)))
    size := info.size + 2 }

structure Walk where
  line : Place
  threshold : Int
  info : QueryArgs

def getNextMostStraightLine (topo : Network) (choose : Place → Option Place) (line : Place) :
    Except Fault (Option Place) :=
  match topo.gotoNode line with
  | none => .error .null
  | some node => .ok (if topo.exports.head node = none then none else choose line)

def walkStep (topo : Network) (choose : Place → Option Place) (walk : Walk) :
    Walk ⊕ Except Fault (Bool × QueryArgs) :=
  if 0 < walk.threshold then
    match getNextMostStraightLine topo choose walk.line with
    | .error fault => .inr (.error fault)
    | .ok none => .inr (.ok (true, { walk.info with size := 0 }))
    | .ok (some line) =>
      let lineLen := toInt (topo.length line)
      let threshold := toInt (walk.threshold - lineLen)
      .inl ⟨line, threshold, putRoad walk.info 1 (topo.id line) threshold lineLen⟩
  else .inr (.ok (true, walk.info))

def roadListStart (topo : Network) (info : QueryArgs) : Except Fault (Walk ⊕ (Bool × QueryArgs)) := do
  let (road, meter) ← roadArgs info
  let info := { info with idx := road }
  match ← topoPullLine topo road with
  | none => .ok (.inr (false, { info with erro := errorQueryNoId road }))
  | some line =>
    let lineLen := toInt (topo.length line - meter)
    let threshold := toInt (2000 - lineLen)
    .ok (.inl ⟨line, threshold, putRoad { info with size := 0 } 0 (topo.id line) threshold lineLen⟩)

def getRoadListByRoad (topo : Network) (choose : Place → Option Place) (fuel : Nat) (info : QueryArgs) :
    Option (Except Fault (Bool × QueryArgs)) :=
  match roadListStart topo info with
  | .error fault => some (.error fault)
  | .ok (.inr result) => some (.ok result)
  | .ok (.inl walk) => Loop.run (walkStep topo choose) fuel walk

/-- The roads of the walked path with their lengths, the first from `meter` on. -/
def roadAt (topo : Network) (choose : Place → Option Place) (start : Place) (meter : Int) : Nat → Option (Place × Int)
  | 0 => some (start, topo.length start - meter)
  | k + 1 =>
    match roadAt topo choose start meter k with
    | none => none
    | some (line, _) =>
      match getNextMostStraightLine topo choose line with
      | .ok (some next) => some (next, topo.length next)
      | _ => none

/-- It returns, writes inside `peak`, and has two entries for each road. -/
def ListsRoads (topo : Network) (choose : Place → Option Place) (info : QueryArgs) (start : Place) (meter : Int) :
    Prop :=
  ∃ fuel ok reply, getRoadListByRoad topo choose fuel info = some (.ok (ok, reply)) ∧
    (∀ index, info.peak ≤ index → reply.buf index = none) ∧
    (ok = true → (∀ index : Nat, (reply.buf index).isSome ↔ (index : Int) < reply.size) ∧
      ∀ k : Nat, (k : Int) * 2 < reply.size → ∃ line length entry,
        roadAt topo choose start meter k = some (line, length) ∧
        reply.buf (k * 2) = some (topo.id line) ∧
        reply.buf (k * 2 + 1) = some entry ∧
        (entry : Int) = length)

/-- The walk is over exactly at the end of the first or of the second road. -/
def EndsEarly (topo : Network) (choose : Place → Option Place) (peak : Nat) (start : Place) (meter : Int) : Prop :=
  let first := (topo.length start : Int) - meter
  (2 ≤ peak ∧ first = 2000) ∨
  (4 ≤ peak ∧ 0 ≤ first ∧ first < 2000 ∧
    ∃ next, getNextMostStraightLine topo choose start = .ok (some next) ∧ first + topo.length next = 2000)

theorem toInt_eq {value : Int} (low : -2147483648 ≤ value) (high : value < 2147483648) : toInt value = value :=
  Int.bmod_eq_of_le (by omega) (by omega)

theorem toInt_bounds (value : Int) :
    -2147483648 ≤ toInt value ∧ toInt value < 2147483648 ∧ ∃ turns, value = toInt value + 4294967296 * turns := by
  have low := @Int.le_bmod value 4294967296 (by decide)
  have high := @Int.bmod_lt value 4294967296 (by decide)
  refine ⟨by rw [toInt]; omega, by rw [toInt]; omega, (value - toInt value) / 4294967296, ?_⟩
  rw [toInt, Int.bmod_def]
  split <;> omega

theorem toUint64_nonneg {value : Int} (natural : 0 ≤ value) (small : value < 2147483648) :
    (toUint64 value : Int) = value := by
  simp only [toUint64]
  omega

theorem toUint64_neg {value : Int} (negative : value < 0) (small : -2147483648 ≤ value) :
    4294967296 ≤ (toUint64 value : Int) := by
  simp only [toUint64]
  omega

theorem roadArgs_meter {info : QueryArgs} {road : Nat} {meter : Int} (asked : roadArgs info = .ok (road, meter)) :
    -2147483648 ≤ meter := by
  rw [roadArgs] at asked
  split at asked
  · cases asked
  · obtain ⟨⟨_, rest⟩, -, later⟩ := Outcome.bind_ok_iff.mp asked
    obtain ⟨⟨number, behind⟩, read, result⟩ := Outcome.bind_ok_iff.mp later
    cases result
    obtain ⟨found, -, last⟩ := Outcome.bind_ok_iff.mp read
    cases found with
    | none => cases last
    | some text =>
        obtain ⟨value, parsed, result⟩ := Outcome.bind_ok_iff.mp last
        cases result
        rw [atoi] at parsed
        split at parsed
        · cases parsed
        · cases parsed
          exact (toInt_bounds _).1

theorem Made.topoPullLine_none {topo : Network} {graph : Graph} {id : Nat} (made : Made topo graph)
    (absent : graph id = none) : Topo.topoPullLine topo id = .ok none := by
  have number : topo.id (topo.lines.place id) = 0 := by simp [made.id, absent]
  rw [Topo.topoPullLine]
  by_cases inside : id < topo.lines.peakCount
  · rw [membtGain_eq inside, Outcome.ok_bind]
    simp [number]
  · have bad : membtGood topo.lines id = false := by rw [membtGood, if_pos (Nat.le_of_not_lt inside)]
    simp [bad]

section walk

variable {topo : Network} {graph : Graph} {choose : Place → Option Place} {info : QueryArgs} {road : Nat} {meter : Int}

def firstWalk (topo : Network) (info : QueryArgs) (road : Nat) (meter : Int) : Walk :=
  let line := topo.lines.place road
  let lineLen := toInt (topo.length line - meter)
  let threshold := toInt (2000 - lineLen)
  ⟨line, threshold, putRoad { info with idx := road, size := 0 } 0 (topo.id line) threshold lineLen⟩

def nextWalk (topo : Network) (walk : Walk) (line : Place) : Walk :=
  let lineLen := toInt (topo.length line)
  let threshold := toInt (walk.threshold - lineLen)
  ⟨line, threshold, putRoad walk.info 1 (topo.id line) threshold lineLen⟩

theorem Made.roadListStart_found {edge : Edge} (made : Made topo graph) (asked : roadArgs info = .ok (road, meter))
    (found : graph road = some edge) : roadListStart topo info = .ok (.inl (firstWalk topo info road meter)) := by
  rw [roadListStart, asked, Outcome.ok_bind]
  simp only [made.topoPullLine found, Outcome.ok_bind]
  rfl

theorem Made.roadListStart_absent (made : Made topo graph) (asked : roadArgs info = .ok (road, meter))
    (absent : graph road = none) :
    roadListStart topo info = .ok (.inr (false, { info with idx := road, erro := errorQueryNoId road })) := by
  rw [roadListStart, asked, Outcome.ok_bind]
  simp only [made.topoPullLine_none absent, Outcome.ok_bind]

theorem putRoad_buf (info : QueryArgs) (i id : Nat) (threshold lineLen : Int) (index : Nat) :
    (putRoad info i id threshold lineLen).buf index =
      if index = i * 2 + 1 then some (toUint64 (if threshold < 0 then threshold else lineLen))
      else if index = i * 2 then some id else info.buf index := by
  simp only [putRoad, update_apply]

theorem putRoad_written (info : QueryArgs) (i id : Nat) (threshold lineLen : Int) (index : Nat) :
    ((putRoad info i id threshold lineLen).buf index).isSome ↔
      index = i * 2 ∨ index = i * 2 + 1 ∨ (info.buf index).isSome := by
  rw [putRoad_buf]
  by_cases second : index = i * 2 + 1
  · simp [second]
  · by_cases first : index = i * 2
    · simp [first]
    · simp [first, second]

variable {walk : Walk}

/-- Two roads are written and a third is to come. -/
def Late (walk : Walk) : Prop :=
  (∀ index, (walk.info.buf index).isSome ↔ index < 4) ∧ 4 ≤ walk.info.size ∧
    (0 < walk.threshold ∨ 6 ≤ walk.info.size)

theorem walkStep_late (holds : Late walk) :
    Loop.After Late (fun result => ∀ ok reply, result = .ok (ok, reply) → ok = true ∧
      (∀ index, (reply.buf index).isSome ↔ index < 4) ∧ (reply.size = 0 ∨ 6 ≤ reply.size))
      (walkStep topo choose walk) := by
  obtain ⟨entries, size, late⟩ := holds
  rw [walkStep]
  split
  · split
    · rintro ok reply ⟨⟩
    · rintro ok reply ⟨⟩
      exact ⟨rfl, entries, Or.inl rfl⟩
    · rename_i line _
      refine ⟨?_, ?_, Or.inr ?_⟩
      · intro index
        rw [putRoad_written, entries]
        omega
      · show 4 ≤ walk.info.size + 2
        omega
      · show 6 ≤ walk.info.size + 2
        omega
  · rename_i done
    rintro ok reply ⟨⟩
    exact ⟨rfl, entries, Or.inr (by omega)⟩

variable (unwritten : ∀ index, info.buf index = none)

include unwritten in
theorem firstWalk_written (index : Nat) : ((firstWalk topo info road meter).info.buf index).isSome ↔ index < 2 := by
  rw [firstWalk, putRoad_written, unwritten]
  simp
  omega

include unwritten in
theorem nextWalk_written {line : Place} (index : Nat) :
    ((nextWalk topo (firstWalk topo info road meter) line).info.buf index).isSome ↔ index < 4 := by
  rw [nextWalk, putRoad_written, firstWalk_written unwritten]
  omega

theorem walkStep_done (done : walk.threshold ≤ 0) : walkStep topo choose walk = .inr (.ok (true, walk.info)) := by
  rw [walkStep, if_neg (by omega)]

theorem walkStep_next {line : Place} (more : 0 < walk.threshold)
    (next : getNextMostStraightLine topo choose walk.line = .ok (some line)) :
    walkStep topo choose walk = .inl (nextWalk topo walk line) := by
  rw [walkStep, if_pos more, next]
  rfl

theorem firstWalk_entries : (firstWalk topo info road meter).info.buf 0 = some (topo.id (topo.lines.place road)) ∧
      (firstWalk topo info road meter).info.buf 1 = some (toUint64 (
        if (firstWalk topo info road meter).threshold < 0 then (firstWalk topo info road meter).threshold
        else toInt (topo.length (topo.lines.place road) - meter))) := by
  simp only [firstWalk, putRoad_buf]
  simp
  rfl

theorem nextWalk_entries {line : Place} :
    (nextWalk topo walk line).info.buf 0 = walk.info.buf 0 ∧ (nextWalk topo walk line).info.buf 1 = walk.info.buf 1 ∧
      (nextWalk topo walk line).info.buf 2 = some (topo.id line) ∧
      (nextWalk topo walk line).info.buf 3 = some (toUint64 (
        if (nextWalk topo walk line).threshold < 0 then (nextWalk topo walk line).threshold
        else toInt (topo.length line))) := by
  simp only [nextWalk, putRoad_buf]
  simp
  rfl

/-- The length of the first road is listed exactly if it is walked to its end. -/
theorem firstWalk_length (short : ∀ line, topo.length line < 2147483648) (least : -2147483648 ≤ meter) :
    (∃ entry, (firstWalk topo info road meter).info.buf 1 = some entry ∧
      (entry : Int) = topo.length (topo.lines.place road) - meter) ↔
    0 ≤ (topo.length (topo.lines.place road) : Int) - meter ∧
      (topo.length (topo.lines.place road) : Int) - meter ≤ 2000 := by
  have small := short (topo.lines.place road)
  have threshold : (firstWalk topo info road meter).threshold =
      toInt (2000 - toInt (topo.length (topo.lines.place road) - meter)) := rfl
  have top : (topo.length (topo.lines.place road) : Int) - meter < 4294967296 := by omega
  rw [firstWalk_entries.2, threshold]
  generalize (topo.length (topo.lines.place road) : Int) - meter = first at *
  obtain ⟨low, high, turns, whole⟩ := toInt_bounds first
  obtain ⟨least, most, more, rest⟩ := toInt_bounds (2000 - toInt first)
  simp only [Option.some.injEq, exists_eq_left']
  constructor
  · intro same
    split at same
    · have := toUint64_neg ‹_› least
      omega
    · rcases Int.lt_or_le (toInt first) 0 with negative | natural
      · have := toUint64_neg negative low
        omega
      · rw [toUint64_nonneg natural high] at same
        omega
  · rintro ⟨natural, bound⟩
    have inner : toInt first = first := toInt_eq (by omega) (by omega)
    rw [inner, toInt_eq (by omega) (by omega), if_neg (by omega)]
    exact toUint64_nonneg natural (by omega)

theorem firstWalk_threshold (natural : 0 ≤ (topo.length (topo.lines.place road) : Int) - meter)
    (bound : (topo.length (topo.lines.place road) : Int) - meter ≤ 2000) :
    (firstWalk topo info road meter).threshold = 2000 - (topo.length (topo.lines.place road) - meter) := by
  have inner := @toInt_eq (topo.length (topo.lines.place road) - meter) (by omega) (by omega)
  rw [firstWalk]
  dsimp only
  rw [inner, toInt_eq (by omega) (by omega)]

theorem nextWalk_length {line : Place} (short : topo.length line < 2147483648) (low : 0 < walk.threshold)
    (high : walk.threshold ≤ 2000) :
    (nextWalk topo walk line).threshold = walk.threshold - topo.length line ∧
      ((∃ entry, (nextWalk topo walk line).info.buf 3 = some entry ∧ (entry : Int) = topo.length line) ↔
        (topo.length line : Int) ≤ walk.threshold) := by
  have inner := @toInt_eq (topo.length line) (by omega) (by omega)
  have threshold : (nextWalk topo walk line).threshold = walk.threshold - topo.length line := by
    rw [nextWalk]
    dsimp only
    rw [inner, toInt_eq (by omega) (by omega)]
  refine ⟨threshold, ?_⟩
  rw [nextWalk_entries.2.2.2, threshold, inner]
  simp only [Option.some.injEq, exists_eq_left']
  split
  · have := @toUint64_neg (walk.threshold - topo.length line) (by omega) (by omega)
    omega
  · rw [toUint64_nonneg (by omega) (by omega)]
    omega

section

variable {edge : Edge} (made : Made topo graph) (asked : roadArgs info = .ok (road, meter))
  (found : graph road = some edge) (short : ∀ line, topo.length line < 2147483648)

include unwritten made asked found short

theorem Made.lists_of_endsEarly (early : EndsEarly topo choose info.peak (topo.lines.place road) meter) :
    ListsRoads topo choose info (topo.lines.place road) meter := by
  have start := made.roadListStart_found asked found
  have first := (@firstWalk_entries topo info road meter).1
  have length := @firstWalk_length topo info road meter short (roadArgs_meter asked)
  obtain ⟨room, whole⟩ | ⟨room, natural, below, next, following, whole⟩ := early
  · obtain ⟨entry, stored, same⟩ := length.mpr (by omega)
    have done := @firstWalk_threshold topo info road meter (by omega) (by omega)
    have size : (firstWalk topo info road meter).info.size = 2 := rfl
    refine ⟨1, true, (firstWalk topo info road meter).info, ?_, ?_, fun _ => ⟨?_, ?_⟩⟩
    · rw [getRoadListByRoad, start]
      exact Loop.run_of_endsIn (Loop.EndsIn.of_end (walkStep_done (by omega))) Nat.one_pos
    · intro index behind
      rw [← Option.not_isSome_iff_eq_none, firstWalk_written unwritten]
      omega
    · intro index
      rw [firstWalk_written unwritten, size]
      omega
    · intro k bound
      obtain rfl : k = 0 := by omega
      exact ⟨_, _, entry, rfl, first, stored, same⟩
  · obtain ⟨entry, stored, same⟩ := length.mpr (by omega)
    have more := @firstWalk_threshold topo info road meter natural (by omega)
    obtain ⟨done, second⟩ := @nextWalk_length topo (firstWalk topo info road meter) next (short next) (by omega) (by omega)
    obtain ⟨entryNext, storedNext, sameNext⟩ := second.mpr (by omega)
    obtain ⟨kept, keptLen, id, -⟩ := @nextWalk_entries topo (firstWalk topo info road meter) next
    have size : (nextWalk topo (firstWalk topo info road meter) next).info.size = 4 := rfl
    refine ⟨2, true, (nextWalk topo (firstWalk topo info road meter) next).info, ?_, ?_, fun _ => ⟨?_, ?_⟩⟩
    · rw [getRoadListByRoad, start]
      have last : Loop.EndsIn (walkStep topo choose) 0 (nextWalk topo (firstWalk topo info road meter) next) _ :=
        Loop.EndsIn.of_end (walkStep_done (by omega))
      exact Loop.run_of_endsIn (Loop.EndsIn.of_steps (Loop.Steps.single (walkStep_next (by omega) following)) last)
        (by decide)
    · intro index behind
      rw [← Option.not_isSome_iff_eq_none, nextWalk_written unwritten]
      omega
    · intro index
      rw [nextWalk_written unwritten, size]
      omega
    · intro k bound
      obtain rfl | rfl : k = 0 ∨ k = 1 := by omega
      · exact ⟨_, _, entry, rfl, kept.trans first, keptLen.trans stored, same⟩
      · exact ⟨next, _, entryNext, by simp only [roadAt, following], id, storedNext, sameNext⟩

end

theorem run_walkStep_cases {fuel : Nat} {ok : Bool} {reply : QueryArgs}
    (returned : Loop.run (walkStep topo choose) fuel walk = some (.ok (ok, reply))) :
    (walk.threshold ≤ 0 ∧ reply = walk.info) ∨
      (0 < walk.threshold ∧ ok = true ∧ reply = { walk.info with size := 0 }) ∨
      (0 < walk.threshold ∧ ∃ next fuel, getNextMostStraightLine topo choose walk.line = .ok (some next) ∧
        Loop.run (walkStep topo choose) fuel (nextWalk topo walk next) = some (.ok (ok, reply))) := by
  cases fuel with
  | zero => cases returned
  | succ fuel =>
    rw [Loop.run] at returned
    by_cases done : walk.threshold ≤ 0
    · rw [walkStep_done done] at returned
      cases returned
      exact Or.inl ⟨done, rfl⟩
    · have more : 0 < walk.threshold := by omega
      rw [walkStep, if_pos more] at returned
      cases following : getNextMostStraightLine topo choose walk.line with
      | error fault =>
        rw [following] at returned
        cases returned
      | ok found =>
        rw [following] at returned
        cases found with
        | none =>
          cases returned
          exact Or.inr (Or.inl ⟨more, rfl, rfl⟩)
        | some next => exact Or.inr (Or.inr ⟨more, next, fuel, rfl, returned⟩)

theorem run_walkStep_ok {fuel : Nat} {ok : Bool} {reply : QueryArgs}
    (returned : Loop.run (walkStep topo choose) fuel walk = some (.ok (ok, reply))) : ok = true := by
  refine @Loop.run_invariant _ _ (walkStep topo choose) (fun _ => True)
    (fun result => ∀ ok reply, result = .ok (ok, reply) → ok = true) (fun walk _ => ?_) _ _ _ trivial returned ok reply rfl
  rw [walkStep]
  split
  · split
    · rintro ok reply ⟨⟩
    · rintro ok reply ⟨⟩
      rfl
    · trivial
  · rintro ok reply ⟨⟩
    rfl

include unwritten in
theorem Made.endsEarly_of_lists {edge : Edge} (made : Made topo graph) (asked : roadArgs info = .ok (road, meter))
    (found : graph road = some edge) (short : ∀ line, topo.length line < 2147483648)
    (lists : ListsRoads topo choose info (topo.lines.place road) meter) :
    EndsEarly topo choose info.peak (topo.lines.place road) meter := by
  obtain ⟨fuel, ok, reply, returned, inside, listed⟩ := lists
  have room : ∀ {index}, (reply.buf index).isSome → index < info.peak := by
    intro index written
    by_contra behind
    rw [inside index (by omega)] at written
    cases written
  rw [getRoadListByRoad, made.roadListStart_found asked found] at returned
  have length := @firstWalk_length topo info road meter short (roadArgs_meter asked)
  have once : (firstWalk topo info road meter).info.size = 2 := rfl
  have succeeded := run_walkStep_ok returned
  obtain ⟨done, rfl⟩ | ⟨_, rfl, rfl⟩ | ⟨more, next, fuel, following, returned⟩ := run_walkStep_cases returned
  · obtain ⟨_, _, entry, first, -, stored, same⟩ := (listed succeeded).2 0 (by rw [once]; decide)
    cases first
    obtain ⟨natural, bound⟩ := length.mp ⟨entry, stored, same⟩
    rw [firstWalk_threshold natural bound] at done
    exact Or.inl ⟨room ((firstWalk_written unwritten 1).mpr (by decide)), by omega⟩
  · have first := ((listed rfl).1 0).mp ((@firstWalk_written topo info road meter unwritten 0).mpr (by decide))
    cases first
  · by_cases done : (nextWalk topo (firstWalk topo info road meter) next).threshold ≤ 0
    · have twice : (nextWalk topo (firstWalk topo info road meter) next).info.size = 4 := rfl
      obtain ⟨_, rfl⟩ | ⟨later, _⟩ | ⟨later, _⟩ := run_walkStep_cases returned
      · obtain ⟨-, keptLen, -, -⟩ := @nextWalk_entries topo (firstWalk topo info road meter) next
        obtain ⟨_, _, entry, first, -, stored, same⟩ := (listed succeeded).2 0 (by rw [twice]; decide)
        cases first
        obtain ⟨natural, bound⟩ := length.mp ⟨entry, keptLen ▸ stored, same⟩
        have left := @firstWalk_threshold topo info road meter natural bound
        obtain ⟨_, _, entryNext, second, -, storedNext, sameNext⟩ := (listed succeeded).2 1 (by rw [twice]; decide)
        have behind : getNextMostStraightLine topo choose (topo.lines.place road) = .ok (some next) := following
        simp only [roadAt, behind, Option.some.injEq, Prod.mk.injEq] at second
        obtain ⟨rfl, rfl⟩ := second
        obtain ⟨rest, lengthNext⟩ :=
          @nextWalk_length topo (firstWalk topo info road meter) next (short next) more (by omega)
        have fits := lengthNext.mp ⟨entryNext, storedNext, sameNext⟩
        exact Or.inr ⟨room ((nextWalk_written unwritten 3).mpr (by decide)), natural, by omega, next, following,
          by omega⟩
      · omega
      · omega
    · obtain ⟨rfl, written, size⟩ := Loop.run_invariant (fun _ => walkStep_late)
        ⟨nextWalk_written unwritten, Int.le_refl 4, Or.inl (by omega)⟩ returned ok reply rfl
      have counted := (listed rfl).1
      obtain nothing | many := size
      · have first := (counted 0).mp ((written 0).mpr (by decide))
        omega
      · have fifth := (written 4).mp ((counted 4).mpr (by omega))
        omega

end walk

/-- The roads are listed exactly if the walk is over at the end of the first or of the second one. -/
theorem getRoadListByRoad_lists_iff {pageSize maxNodes maxLines : Nat} (fits : 0 < pageSize * memStepPageCount / 80)
    {rows : List Row} {topo made : Network}
      (loaded : topoLoad (topoInit pageSize maxNodes maxLines fits) rows = .ok topo)
    (result : topoMake topo = .ok made) {info : QueryArgs} {road : Nat} {meter : Int}
    (asked : roadArgs info = .ok (road, meter)) (unwritten : ∀ index, info.buf index = none)
    (short : ∀ line, made.length line < 2147483648) (choose : Place → Option Place) :
    ListsRoads made choose info (made.lines.place road) meter ↔
      graphOf rows road = none ∨ EndsEarly made choose info.peak (made.lines.place road) meter := by
  obtain ⟨other, same, rings, _⟩ := ((stores_init fits).topoLoad loaded).topoMake
  obtain rfl : other = made := Except.ok.inj (same.symm.trans result)
  cases found : graphOf rows road with
  | none =>
    have start := rings.roadListStart_absent asked found
    have answered : getRoadListByRoad other choose 0 info =
        some (.ok (false, { info with idx := road, erro := errorQueryNoId road })) := by
      rw [getRoadListByRoad, start]
    exact ⟨fun _ => Or.inl rfl, fun _ => ⟨0, false, _, answered, fun index _ => unwritten index, nofun⟩⟩
  | some edge =>
    refine ⟨fun lists => Or.inr (rings.endsEarly_of_lists unwritten asked found short lists), fun early => ?_⟩
    obtain absent | early := early
    · cases absent
    · exact rings.lists_of_endsEarly unwritten asked found short early

def roadQuery (data : String) : QueryArgs :=
  ⟨0, Heap.padded 0 32 (ascii data), (ascii data).length, 16, 0, [], fun _ => none⟩

theorem update_lt {bound : Nat} {lengths : Place → Nat} (all : ∀ line, lengths line < bound) {length : Nat}
    (small : length < bound) (road line : Place) : update lengths road length line < bound := by
  rw [update_apply]
  split
  · exact small
  · exact all line

theorem getRoadListByRoad_two_roads :
    ∃ topo made, topoLoad (topoInit 4096 10 10 (by decide)) [.node 1, .line 3 1 1 1500] = .ok topo ∧
      topoMake topo = .ok made ∧
      roadArgs (roadQuery "r:3:1000") = .ok (3, 1000) ∧
      ListsRoads made some (roadQuery "r:3:1000") (made.lines.place 3) 1000 := by
  refine ⟨_, _, rfl, rfl, rfl, ?_⟩
  refine (@getRoadListByRoad_lists_iff 4096 10 10 (by decide) [.node 1, .line 3 1 1 1500] _ _ rfl rfl _ 3 1000 rfl
    (fun _ => rfl) (fun line => ?_) some).mpr (Or.inr (Or.inr ?_))
  · exact @update_lt 2147483648 (fun _ => 0) (fun _ => by decide) 1500 (by decide) _ line
  · exact ⟨by decide, by decide, by decide, _, rfl, by decide⟩

theorem getRoadListByRoad_short_road :
    ∃ topo made, topoLoad (topoInit 4096 10 10 (by decide)) [.node 1, .line 3 1 1 500] = .ok topo ∧
      topoMake topo = .ok made ∧
      (getRoadListByRoad made some 10 (roadQuery "r:3:0")).map (fun result =>
        result.map fun reply => (reply.1, reply.2.size, (List.range 8).map reply.2.buf)) =
          some (.ok (true, 8, [some 3, some 500, some 3, some 500, none, none, none, none])) ∧
      ¬ ListsRoads made some (roadQuery "r:3:0") (made.lines.place 3) 0 := by
  refine ⟨_, _, rfl, rfl, rfl, ?_⟩
  intro lists
  obtain ⟨other, same, rings, -⟩ := ((stores_init (by decide)).topoLoad
    (show topoLoad (topoInit 4096 10 10 (by decide)) [.node 1, .line 3 1 1 500] = .ok _ from rfl)).topoMake
  cases same
  obtain ⟨-, whole⟩ | ⟨-, -, -, next, following, whole⟩ := rings.endsEarly_of_lists (fun _ => rfl)
    (show roadArgs (roadQuery "r:3:0") = .ok (3, 0) from rfl) (show graphOf _ 3 = some _ from rfl)
    (@update_lt 2147483648 (fun _ => 0) (fun _ => by decide) 500 (by decide) _) lists
  · revert whole
    decide
  · cases following
    revert whole
    decide

end Libucmq.Topo
