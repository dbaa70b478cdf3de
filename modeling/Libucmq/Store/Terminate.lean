import Libucmq.Store.Resync

/-! The loop of `mq_sm_get_data` ends whatever the data files hold. -/

namespace Libucmq

open Memory

variable {queue : MqQueue} {os : Os} {state : GetState}

structure InRange (queue : MqQueue) : Prop where
  readPos : queue.curRdb.pos.toNat ≤ maxDbFileSize
  writePos : queue.curWdb.pos.toNat ≤ maxDbFileSize
  index : queue.curRdb.curIndex.toNat ≤ queue.curWdb.curIndex.toNat
  last : queue.curWdb.curIndex.toNat + 1 < 2 ^ 64

structure Live (queue : MqQueue) (os : Os) : Prop where
  read : ∀ address, queue.curRdb.mapMem = some address → (os.mapped address).isSome
  write : queue.curRdb.curIndex ≠ queue.curWdb.curIndex →
    ∀ address, queue.curWdb.mapMem = some address →
      address < os.nextHandle ∧ queue.curRdb.mapMem ≠ some address ∧
        os.maps address = some queue.curWdb.curIndex ∧ (os.dir.db queue.curWdb.curIndex).isSome

def remaining (queue : MqQueue) : Nat × Nat :=
  (queue.curWdb.curIndex.toNat - queue.curRdb.curIndex.toNat, maxDbFileSize - queue.curRdb.pos.toNat)

/-- What a turn does; the `uint32_t` sums do not wrap. -/
def Moves (queue : MqQueue) : GetState ⊕ GetResult → Prop
  | .inl next =>
    Prod.Lex (· < ·) (· < ·) (remaining next.queue) (remaining queue) ∧
      (next.queue.curRdb.curIndex = queue.curRdb.curIndex ∧
          (next.queue.curRdb.pos.toNat = queue.curRdb.pos.toNat + 1 ∨
            next.queue.curRdb.pos.toNat = queue.curRdb.pos.toNat + 2) ∨
        next.queue.curRdb.curIndex.toNat = queue.curRdb.curIndex.toNat + 1 ∧
          next.queue.curRdb.pos = 128)
  | .inr (.ok (true, final)) =>
    final.queue.curRdb.pos.toNat = queue.curRdb.pos.toNat + (final.item.len.toNat + 12)
  | .inr (.ok (false, final)) =>
    final.queue.curRdb.pos = queue.curRdb.pos ∨ final.queue.curRdb.pos = queue.curWdb.pos ∨
      final.queue.curRdb.pos = 128
  | .inr (.error _) => False

def Readable (state : GetState) : Prop := InRange state.queue ∧ Live state.queue state.os

def Returned (result : GetResult) : Prop :=
  ∃ found final, result = .ok (found, final) ∧ InRange final.queue

theorem InRange.next_toNat (range : InRange queue) :
    (queue.curRdb.curIndex + 1).toNat = queue.curRdb.curIndex.toNat + 1 := by
  have index := range.index
  have last := range.last
  exact index_next (by omega)

theorem InRange.behind (range : InRange queue) (later : ¬ queue.curRdb.curIndex + 1 > queue.curWdb.curIndex) :
    queue.curRdb.curIndex.toNat < queue.curWdb.curIndex.toNat ∧ queue.curRdb.curIndex ≠ queue.curWdb.curIndex := by
  rw [gt_iff_lt, UInt64.lt_iff_toNat_lt, range.next_toNat] at later
  refine ⟨by omega, ?_⟩
  intro same
  rw [same] at later
  omega

theorem mapped_of_maps {address : Nat} {index : UInt64} (map : os.maps address = some index)
    (found : (os.dir.db index).isSome) : (os.mapped address).isSome := by
  simpa [Os.mapped, map] using found

theorem Live.retired {address : Nat} (live : Live queue os)
    (apart : queue.curRdb.curIndex ≠ queue.curWdb.curIndex) (map : queue.curWdb.mapMem = some address) :
    address < os.nextHandle ∧ (readRetired queue os).maps address = some queue.curWdb.curIndex ∧
      ((readRetired queue os).dir.db queue.curWdb.curIndex).isSome := by
  obtain ⟨early, other, showing, found⟩ := live.write apart address map
  refine ⟨early, by rw [readRetired_maps, if_neg other, showing], ?_⟩
  rw [readRetired_db, if_neg apart.symm]
  exact found

theorem ReadRoll.live {next : MqQueue} {after : Os} (roll : ReadRoll queue os true next after)
    (range : InRange queue) (live : Live queue os) : Live next after := by
  cases roll with
  | shared later _ last =>
    refine ⟨?_, fun different => absurd last different⟩
    intro address map
    obtain ⟨_, showing, found⟩ := live.retired (range.behind later).2 map
    exact mapped_of_maps showing found
  | opened later _ before opening dir =>
    cases opening with
    | opened _ maps nextHandle _ _ _ found =>
      refine ⟨?_, ?_⟩
      · rintro _ ⟨⟩
        exact mapped_of_maps (by rw [maps, if_pos rfl]) found
      · intro _ address map
        obtain ⟨early, showing, present⟩ := live.retired (range.behind later).2 map
        rw [readRetired_nextHandle] at maps nextHandle
        refine ⟨by omega, ?_, ?_, ?_⟩
        · intro same
          have := Option.some.inj same
          rw [readRetired_nextHandle] at this
          omega
        · rw [maps, if_neg (by omega)]
          exact showing
        · rw [dir]
          exact present

theorem ReadRoll.place {next : MqQueue} {after : Os} {found : Bool}
    (roll : ReadRoll queue os found next after) (range : InRange queue) : next.curWdb = queue.curWdb ∧
      (next.curRdb.curIndex.toNat = queue.curRdb.curIndex.toNat + 1 ∧ next.curRdb.pos = 128 ∧
          queue.curRdb.curIndex.toNat < queue.curWdb.curIndex.toNat ∨
        found = false ∧ next.curRdb.pos = queue.curRdb.pos ∧
          next.curRdb.curIndex.toNat ≤ queue.curWdb.curIndex.toNat) := by
  cases roll with
  | ended _ => exact ⟨rfl, Or.inr ⟨rfl, rfl, Nat.le_refl _⟩⟩
  | tagRefused _ _ => exact ⟨rfl, Or.inr ⟨rfl, rfl, range.index⟩⟩
  | shared later | dataRefused later | opened later =>
    exact ⟨rfl, Or.inl ⟨range.next_toNat, rfl, (range.behind later).1⟩⟩

theorem ReadRoll.inRange {next : MqQueue} {after : Os} {found : Bool}
    (roll : ReadRoll queue os found next after) (range : InRange queue) : InRange next := by
  obtain ⟨write, ⟨index, pos, before⟩ | ⟨_, pos, index⟩⟩ := roll.place range
  · refine ⟨by rw [pos]; simp, by rw [write]; exact range.writePos, by rw [write]; omega, ?_⟩
    rw [write]
    exact range.last
  · refine ⟨by rw [pos]; exact range.readPos, by rw [write]; exact range.writePos, by rw [write]; omega, ?_⟩
    rw [write]
    exact range.last

theorem getDataNextFile_turn {state : GetState} (readable : Readable state) :
    Loop.After Readable Returned (getDataNextFile state) ∧ Moves state.queue (getDataNextFile state) := by
  obtain ⟨range, live⟩ := readable
  obtain ⟨found, next, after, rollEq, roll⟩ := getNextReadFile_spec state.queue state.os
  obtain ⟨write, place⟩ := roll.place range
  have kept := roll.inRange range
  rw [getDataNextFile, rollEq]
  cases found with
  | true =>
    obtain ⟨index, pos, before⟩ | ⟨failed, _⟩ := place
    · refine ⟨⟨kept, roll.live range live⟩, ?_, Or.inr ⟨index, pos⟩⟩
      refine Prod.Lex.left _ _ ?_
      simp only [write]
      omega
    · cases failed
  | false =>
    refine ⟨⟨false, _, rfl, kept⟩, ?_⟩
    obtain ⟨_, pos, _⟩ | ⟨_, pos, _⟩ := place
    · exact Or.inr (Or.inr pos)
    · exact Or.inl pos

theorem skip_turn (readable : Readable state) (item : MsgItem) {count : UInt32}
    (small : count.toNat = 1 ∨ count.toNat = 2) (early : state.queue.curRdb.pos.toNat + 12 < maxDbFileSize) :
    Readable ({ state with item }.skip count) ∧ Moves state.queue (.inl ({ state with item }.skip count)) := by
  obtain ⟨range, live⟩ := readable
  have sum : (state.queue.curRdb.pos + count).toNat = state.queue.curRdb.pos.toNat + count.toNat :=
    pos_add_toNat (by simp only [maxDbFileSize_eq] at early; omega)
  refine ⟨⟨⟨?_, range.writePos, range.index, range.last⟩, live.read, live.write⟩, ?_, ?_⟩
  · simp only [GetState.skip, sum]
    omega
  · refine Prod.Lex.right _ ?_
    simp only [GetState.skip, sum]
    omega
  · refine Or.inl ⟨rfl, ?_⟩
    simp only [GetState.skip, sum]
    omega

theorem take_turn (readable : Readable state) {item : MsgItem}
    (inside : state.queue.curRdb.pos.toNat + 12 + item.len.toNat ≤ maxDbFileSize) :
    Returned (.ok (true, state.take item)) ∧ Moves state.queue (.inr (.ok (true, state.take item))) := by
  obtain ⟨range, _⟩ := readable
  have step : (item.len + 12).toNat = item.len.toNat + 12 :=
    pos_add_toNat (by simp only [maxDbFileSize_eq, UInt32.reduceToNat] at *; omega)
  have sum : (state.queue.curRdb.pos + (item.len + 12)).toNat =
      state.queue.curRdb.pos.toNat + (item.len.toNat + 12) := by
    rw [pos_add_toNat (by rw [step]; simp only [maxDbFileSize_eq] at inside; omega), step]
  obtain ⟨queueEq, itemEq⟩ : (state.take item).queue.curRdb.pos = state.queue.curRdb.pos + (item.len + 12) ∧
      (state.take item).item = item := by
    rw [GetState.take]
    dsimp only
    split <;> exact ⟨rfl, rfl⟩
  obtain ⟨write, index⟩ : (state.take item).queue.curWdb = state.queue.curWdb ∧
      (state.take item).queue.curRdb.curIndex = state.queue.curRdb.curIndex := by
    rw [GetState.take]
    dsimp only
    split <;> exact ⟨rfl, rfl⟩
  refine ⟨⟨true, _, rfl, ⟨?_, ?_, ?_, ?_⟩⟩, ?_⟩
  · rw [queueEq, sum]
    omega
  · rw [write]
    exact range.writePos
  · rw [write, index]
    exact range.index
  · rw [write]
    exact range.last
  · simp only [Moves, queueEq, itemEq, sum]

theorem getDataStep_turn (readable : Readable state) :
    Loop.After Readable Returned (getDataStep state) ∧ Moves state.queue (getDataStep state) := by
  have range := readable.1
  rw [getDataStep]
  by_cases ended : state.atEnd
  · rw [if_pos ended]
    refine ⟨⟨false, _, rfl, range.writePos, range.writePos, range.index, range.last⟩, Or.inr (Or.inl rfl)⟩
  rw [if_neg ended]
  cases map : state.queue.curRdb.mapMem with
  | none =>
    simp only [GetState.readMemory, map, mqSmDbParseMsg]
    exact getDataNextFile_turn readable
  | some address =>
    obtain ⟨memory, mapped⟩ := Option.isSome_iff_exists.mp (readable.2.read address map)
    simp only [GetState.readMemory, map, mapped]
    obtain ⟨same, taken⟩ := parse_verdict memory state.queue.curRdb.pos state.item
    cases parsed : mqSmDbParseMsg (some memory) state.queue.curRdb.pos state.item with
    | mk ret item =>
      rw [parsed] at same taken
      dsimp only at same
      rcases verdict_cases memory range.readPos with blocked | ⟨early, clear | ⟨bad, _⟩ | ⟨other, accepted, inside⟩⟩
      · rw [same.trans blocked]
        exact @getDataNextFile_turn { state with item } readable
      · rw [same.trans clear]
        exact skip_turn readable item (Or.inl rfl) early
      · rw [same.trans bad]
        exact skip_turn readable item (Or.inr rfl) early
      · rw [accepted] at same taken
        cases taken rfl
        exact take_turn readable inside

def turnsLeft (state : GetState) : Nat :=
  (remaining state.queue).1 * (maxDbFileSize + 1) + (remaining state.queue).2

theorem turnsLeft_lt_fuel (state : GetState) : turnsLeft state < getDataFuel state.queue := by
  simp only [turnsLeft, getDataFuel, remaining, maxDbFileSize_eq]
  omega

theorem Moves.turnsLeft {next : GetState} (moves : Moves state.queue (.inl next)) :
    turnsLeft next < turnsLeft state := by
  have bound : (remaining next.queue).2 ≤ maxDbFileSize := Nat.sub_le _ _
  obtain ⟨lower, _⟩ := moves
  simp only [Libucmq.turnsLeft]
  rcases Prod.lex_def.mp lower with fewer | ⟨same, fewer⟩
  · simp only [maxDbFileSize_eq] at bound ⊢
    omega
  · simp only [same]
    omega

theorem getDataStep_lowers (readable : Readable state) :
    Loop.After (fun next => Readable next ∧ turnsLeft next < turnsLeft state) Returned (getDataStep state) := by
  obtain ⟨kept, moves⟩ := getDataStep_turn readable
  cases turn : getDataStep state with
  | inl next =>
    rw [turn] at kept moves
    exact ⟨kept, moves.turnsLeft⟩
  | inr result =>
    rw [turn] at kept
    exact kept

/-- It returns whatever the files hold, and every turn moves on. -/
theorem getData_terminates {item : MsgItem} {queue : MqQueue} {os : Os} (range : InRange queue)
    (live : Live queue os) : (∀ count state, Loop.Steps getDataStep count { item, queue, os } state →
        InRange state.queue ∧ Moves state.queue (getDataStep state)) ∧
      ∃ found final, mqSmGetData item queue os = .ok (found, final) ∧ InRange final.queue := by
  have start : Readable { item, queue, os } := ⟨range, live⟩
  refine ⟨?_, ?_⟩
  · intro count state steps
    have readable := steps.invariant (fun _ readable => (getDataStep_turn readable).1) start
    exact ⟨readable.1, (getDataStep_turn readable).2⟩
  · obtain ⟨count, result, within, ends, found, final, rfl, kept⟩ :=
      Loop.endsIn_of_rank turnsLeft (fun _ => getDataStep_lowers) start (Nat.le_refl _)
    have enough : count < getDataFuel queue := Nat.lt_of_le_of_lt within (turnsLeft_lt_fuel _)
    refine ⟨found, final, ?_, kept⟩
    rw [mqSmGetData, Loop.run_of_endsIn ends enough, Option.getD_some]

def strayFile : DbFile where
  size := 67108864
  bytes := fun pos => if pos = 128 then 0xFE else if pos = 129 then 0xAC else 0x7F

def straySystem (index : UInt64) : Os where
  dir := { db := fun _ => some strayFile }
  maps := fun address => if address = 3 then some index else none
  nextHandle := 4

def strayQueue (index : UInt64) (readPos writePos : UInt32) : MqQueue where
  curRdb := { mapMem := some 3, pos := readPos, curIndex := index }
  curWdb := { mapMem := some 3, pos := writePos, curIndex := index }

theorem stray_live (index : UInt64) (readPos writePos : UInt32) :
    Live (strayQueue index readPos writePos) (straySystem index) := by
  refine ⟨?_, fun different => absurd rfl different⟩
  rintro _ ⟨⟩
  rfl

theorem getData_terminates_stray : InRange (strayQueue 1 128 200) ∧
    ∃ found final, mqSmGetData {} (strayQueue 1 128 200) (straySystem 1) = .ok (found, final) ∧
      InRange final.queue := by
  have range : InRange (strayQueue 1 128 200) := ⟨by decide, by decide, by decide, by decide⟩
  exact ⟨range, (getData_terminates range (stray_live 1 128 200)).2⟩

theorem getData_leaves_range : (∃ queue os final, queue.curRdb.pos.toNat ≤ maxDbFileSize ∧
        queue.curRdb.curIndex ≤ queue.curWdb.curIndex ∧ Live queue os ∧
        mqSmGetData {} queue os = .ok (false, final) ∧ maxDbFileSize < final.queue.curRdb.pos.toNat) ∧
      ∃ queue os next, queue.curRdb.pos.toNat ≤ maxDbFileSize ∧ queue.curWdb.pos.toNat ≤ maxDbFileSize ∧
        queue.curRdb.curIndex ≤ queue.curWdb.curIndex ∧ Live queue os ∧ getDataStep ⟨{}, queue, os⟩ = .inl next ∧
        ¬ Prod.Lex (· < ·) (· < ·) (remaining next.queue) (remaining queue) := by
  refine ⟨⟨strayQueue 1 67108864 67108865, straySystem 1, _, by decide, by decide, stray_live _ _ _,
    getData_of_endsIn (Loop.EndsIn.of_end rfl) (Nat.zero_le _), by decide⟩, ?_⟩
  obtain ⟨next, stepEq, index, write⟩ : ∃ next,
      getDataStep ⟨{}, strayQueue 18446744073709551615 128 200, straySystem 18446744073709551615⟩ = .inl next ∧
        next.queue.curRdb.curIndex = 0 ∧ next.queue.curWdb.curIndex = 18446744073709551615 :=
    ⟨_, rfl, rfl, rfl⟩
  refine ⟨_, _, next, by decide, by decide, by decide, stray_live _ _ _, stepEq, ?_⟩
  rw [Prod.lex_def]
  simp [remaining, index, write, strayQueue]

end Libucmq
