import Mathlib.Data.List.Basic

/-! The cached clock of `log.c`. -/

namespace Libucmq.Log

open List

structure TimeZone where
  hours : Int
  lower : -24 < hours
  upper : hours < 24

structure Timespec where
  sec : Nat
  nsec : Nat
deriving DecidableEq, Repr

structure TimeInfo where
  day : UInt16 := 0
  msec : UInt16 := 0
  hour : UInt8 := 0
  min : UInt8 := 0
  sec : UInt8 := 0
deriving DecidableEq, Repr

/-- The statics of `get_time`, `g_sec` and `g_info`, as the program starts. -/
structure Cache where
  sec : Nat := 0
  info : TimeInfo := {}
deriving DecidableEq, Repr

def zonedHour (zone : TimeZone) (sec : Nat) : Int × Int :=
  let hour : Int := (sec % 86400 / 3600 : Nat) + zone.hours
  let (hour, day) := if hour ≥ 24 then (hour - 24, 1) else (hour, 0)
  if hour < 0 then (hour + 24, -1) else (hour, day)

def getTime (zone : TimeZone) (cache : Cache) (cur : Timespec) : TimeInfo × Cache :=
  let ti := { cache.info with msec := UInt16.ofNat (cur.nsec / 1000000) }
  if cache.sec ≠ cur.sec then
    let (hour, day) := zonedHour zone cur.sec
    let ti :=
      if hour ≠ cache.info.hour.toNat then
        { ti with hour := UInt8.ofInt hour, day := UInt16.ofInt (day + (cur.sec / 86400 : Nat)) }
      else ti
    let t := cur.sec % 86400 % 3600
    let ti := { ti with min := UInt8.ofNat (t / 60), sec := UInt8.ofNat (t % 60) }
    (ti, { sec := cur.sec, info := ti })
  else (ti, cache)

def getTimes (zone : TimeZone) : Cache → List Timespec → List TimeInfo
  | _, [] => []
  | cache, cur :: rest => (getTime zone cache cur).1 :: getTimes zone (getTime zone cache cur).2 rest

structure Clock where
  day : UInt16
  hour : UInt8
  min : UInt8
  sec : UInt8
deriving DecidableEq, Repr

def TimeInfo.clock (info : TimeInfo) : Clock := ⟨info.day, info.hour, info.min, info.sec⟩

def localTime (zone : TimeZone) (sec : Nat) : Clock :=
  let seconds : Int := sec + 3600 * zone.hours
  { day := UInt16.ofInt (seconds / 86400)
    hour := UInt8.ofInt (seconds / 3600 % 24)
    min := UInt8.ofInt (seconds / 60 % 60)
    sec := UInt8.ofInt (seconds % 60) }

theorem zonedHour_eq (zone : TimeZone) (sec : Nat) : (zonedHour zone sec).1 = (sec + 3600 * zone.hours) / 3600 % 24 ∧
      (zonedHour zone sec).2 + (sec / 86400 : Nat) = (sec + 3600 * zone.hours) / 86400 := by
  have lower := zone.lower
  have upper := zone.upper
  simp only [zonedHour]
  split_ifs <;> constructor <;> simp only <;> omega

theorem localTime_min_sec (zone : TimeZone) (sec : Nat) :
    (localTime zone sec).min = UInt8.ofNat (sec % 86400 % 3600 / 60) ∧
      (localTime zone sec).sec = UInt8.ofNat (sec % 86400 % 3600 % 60) := by
  have min : (sec + 3600 * zone.hours) / 60 % 60 = (sec % 86400 % 3600 / 60 : Nat) := by omega
  have second : (sec + 3600 * zone.hours) % 60 = (sec % 86400 % 3600 % 60 : Nat) := by omega
  have cast : ∀ value : Nat, UInt8.ofInt value = UInt8.ofNat value := by
    intro value
    apply UInt8.toNat_inj.mp
    simp only [UInt8.ofInt, UInt8.toNat_ofNat']
    omega
  simp only [localTime, min, second, cast, and_self]

theorem localTime_hour (zone : TimeZone) (sec : Nat) :
    ((localTime zone sec).hour.toNat : Int) = (sec + 3600 * zone.hours) / 3600 % 24 := by
  simp only [localTime, UInt8.ofInt, UInt8.toNat_ofNat']
  omega

def kept (zone : TimeZone) (cache : Cache) (sec : Nat) : Clock :=
  { localTime zone sec with
    day := if (localTime zone sec).hour = cache.info.hour then cache.info.day else (localTime zone sec).day }

theorem getTime_new {cache : Cache} {cur : Timespec} (zone : TimeZone) (other : cache.sec ≠ cur.sec) :
    (getTime zone cache cur).1.clock = kept zone cache cur.sec ∧
      (getTime zone cache cur).2 = { sec := cur.sec, info := (getTime zone cache cur).1 } := by
  obtain ⟨hourEq, dayEq⟩ := zonedHour_eq zone cur.sec
  obtain ⟨minEq, secEq⟩ := localTime_min_sec zone cur.sec
  have hour := localTime_hour zone cur.sec
  have same : (zonedHour zone cur.sec).1 ≠ cache.info.hour.toNat ↔
      ¬ (localTime zone cur.sec).hour = cache.info.hour := by
    rw [hourEq, ← hour, ne_eq, Int.natCast_inj, UInt8.toNat_inj]
  have split : getTime zone cache cur =
      (let ti := { cache.info with msec := UInt16.ofNat (cur.nsec / 1000000) }
       let ti :=
         if (zonedHour zone cur.sec).1 ≠ cache.info.hour.toNat then
           { ti with
             hour := (localTime zone cur.sec).hour, day := (localTime zone cur.sec).day }
         else ti
       let ti := { ti with min := (localTime zone cur.sec).min, sec := (localTime zone cur.sec).sec }
       (ti, { sec := cur.sec, info := ti })) := by
    rw [getTime, if_pos other, minEq, secEq]
    simp only [localTime, ← dayEq, ← hourEq]
  refine ⟨?_, by rw [split]⟩
  rw [split, kept]
  by_cases keep : (localTime zone cur.sec).hour = cache.info.hour
  · simp only [same, keep, not_true_eq_false, ↓reduceIte, TimeInfo.clock]
  · simp only [same, keep, not_false_eq_true, ↓reduceIte, TimeInfo.clock]

theorem getTime_again {cache : Cache} {cur : Timespec} (zone : TimeZone) (same : cache.sec = cur.sec) :
    (getTime zone cache cur).1.clock = cache.info.clock ∧ (getTime zone cache cur).2 = cache := by
  rw [getTime, if_neg (not_not.mpr same)]
  exact ⟨rfl, rfl⟩

def Follows (zone : TimeZone) (before now : Nat) : Prop :=
  (localTime zone now).hour = (localTime zone before).hour → (localTime zone now).day = (localTime zone before).day

theorem kept_eq_iff (zone : TimeZone) (cache : Cache) (sec : Nat) : kept zone cache sec = localTime zone sec ↔
      ((localTime zone sec).hour = cache.info.hour → (localTime zone sec).day = cache.info.day) := by
  rw [kept]
  generalize localTime zone sec = time
  by_cases same : time.hour = cache.info.hour
  · rw [if_pos same]
    constructor
    · intro equal _
      rw [← equal]
    · intro day
      rw [← day same]
  · simp [same]

theorem getTimes_iff (zone : TimeZone) (cache : Cache) (right : cache.info.clock = localTime zone cache.sec)
    (readings : List Timespec) :
    (getTimes zone cache readings).map TimeInfo.clock = readings.map (fun cur => localTime zone cur.sec) ↔
      (cache.sec :: readings.map Timespec.sec).IsChain (Follows zone) := by
  induction readings generalizing cache with
  | nil => simp [getTimes]
  | cons cur rest ih =>
    rw [getTimes, map_cons, map_cons, map_cons, List.cons.injEq, isChain_cons_cons]
    by_cases same : cache.sec = cur.sec
    · obtain ⟨answer, next⟩ := getTime_again zone same
      have follows : Follows zone cache.sec cur.sec := fun _ => by rw [same]
      rw [answer, next, right, ih cache right, same, and_iff_right rfl, and_iff_right (same ▸ follows)]
    · obtain ⟨answer, next⟩ := getTime_new zone same
      have hour : cache.info.hour = (localTime zone cache.sec).hour := congrArg Clock.hour right
      have day : cache.info.day = (localTime zone cache.sec).day := congrArg Clock.day right
      have follows : (getTime zone cache cur).1.clock = localTime zone cur.sec ↔ Follows zone cache.sec cur.sec := by
        rw [answer, kept_eq_iff, hour, day, Follows]
      rw [follows]
      refine and_congr_right fun followed => ?_
      rw [next]
      exact ih { sec := cur.sec, info := (getTime zone cache cur).1 } (follows.mpr followed)

/-- A new cache says hour zero of day zero, and time zero at second zero. -/
def FirstRight (zone : TimeZone) (sec : Nat) : Prop :=
  if sec = 0 then localTime zone 0 = ({} : TimeInfo).clock
  else (localTime zone sec).hour = 0 → (localTime zone sec).day = 0

/-- Right exactly when no reading repeats the hour on another day. -/
theorem getTimes_right_iff (zone : TimeZone) (readings : List Timespec) :
    (getTimes zone {} readings).map TimeInfo.clock = readings.map (fun cur => localTime zone cur.sec) ↔
      (∀ first ∈ readings.head?, FirstRight zone first.sec) ∧ (readings.map Timespec.sec).IsChain (Follows zone) := by
  cases readings with
  | nil => simp [getTimes]
  | cons cur rest =>
    rw [getTimes, map_cons, map_cons, List.cons.injEq, List.head?_cons]
    simp only [Option.mem_some_iff, forall_eq']
    have first : (getTime zone {} cur).1.clock = localTime zone cur.sec ↔ FirstRight zone cur.sec := by
      rw [FirstRight]
      by_cases zero : cur.sec = 0
      · rw [if_pos zero, (getTime_again zone (show ({} : Cache).sec = cur.sec from zero.symm)).1, zero, eq_comm]
      · rw [if_neg zero, (getTime_new zone (show ({} : Cache).sec ≠ cur.sec from Ne.symm zero)).1, kept_eq_iff]
    rw [first]
    refine and_congr_right fun right => ?_
    have cached : (getTime zone {} cur).2.sec = cur.sec ∧
        (getTime zone {} cur).2.info.clock = localTime zone cur.sec := by
      by_cases zero : cur.sec = 0
      · rw [(getTime_again zone (show ({} : Cache).sec = cur.sec from zero.symm)).2]
        rw [FirstRight, if_pos zero] at right
        exact ⟨zero.symm, by rw [zero, right]⟩
      · rw [(getTime_new zone (show ({} : Cache).sec ≠ cur.sec from Ne.symm zero)).2]
        exact ⟨rfl, first.mpr right⟩
    rw [getTimes_iff zone _ (by rw [cached.1, cached.2]), cached.1, map_cons]

theorem getTimes_day_wrong :
    ((getTimes ⟨0, by decide, by decide⟩ {} [⟨36000, 0⟩, ⟨122400, 0⟩]).map TimeInfo.clock =
        [⟨0, 10, 0, 0⟩, ⟨0, 10, 0, 0⟩] ∧ localTime ⟨0, by decide, by decide⟩ 122400 = ⟨1, 10, 0, 0⟩) ∧
      (getTimes ⟨0, by decide, by decide⟩ {} [⟨86400, 0⟩]).map TimeInfo.clock = [⟨0, 0, 0, 0⟩] ∧
        localTime ⟨0, by decide, by decide⟩ 86400 = ⟨1, 0, 0, 0⟩ := by
  decide

end Libucmq.Log
