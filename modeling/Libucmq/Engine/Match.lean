import Mathlib.Data.List.Induction
import Mathlib.Data.Nat.Bitwise
import Libucmq.Library.CString
import Libucmq.Library.Outcome

/-! The bit maps of `match.c`. A `long` is its eight bytes. -/

namespace Libucmq.Match

open List CString Outcome

inductive Fault
  | read
  | write
deriving DecidableEq, Repr

/-- The globals, which `app_lua_mapinit` sets only while they are zero. -/
structure Globals where
  mapIndex : Nat := 0
  mapLeast : Nat := 0
  mapExcess : Nat := 0
  mapSize : Nat := 0
deriving DecidableEq, Repr

def appLuaMapinit (globals : Globals) (len : Int) : Globals :=
  if len ≤ 0 then globals
  else
    let mapIndex := if globals.mapIndex = 0 then len.toNat / 64 else globals.mapIndex
    let mapLeast := if globals.mapLeast = 0 then len.toNat % 64 else globals.mapLeast
    let mapExcess := if globals.mapExcess = 0 then mapIndex * 8 else globals.mapExcess
    let mapSize := if globals.mapSize = 0 then (mapIndex + if 1 ≤ mapLeast then 1 else 0) * 8 else globals.mapSize
    { mapIndex, mapLeast, mapExcess, mapSize }

def store (dst : List UInt8) (index : Nat) (byte : UInt8) : Except Fault (List UInt8) :=
  if index < dst.length then .ok (dst.set index byte) else .error .write

def shifted (char : UInt8) (count : Nat) : UInt8 := (char - 48) <<< UInt8.ofNat count

def packByte (src : List UInt8) (start : Nat) : Except Fault UInt8 :=
  (List.range 8).foldlM (fun byte k => do .ok (byte ||| shifted (← charAt Fault.read src (start + k)) k)) 0

def excessTurn (src dst : List UInt8) (i : Nat) : Except Fault (List UInt8) := do
  store dst i (← packByte src (8 * i))

def leastTurn (globals : Globals) (src dst : List UInt8) (i : Nat) : Except Fault (List UInt8) := do
  let char ← charAt Fault.read src (8 * globals.mapExcess + i)
  let step := i / 8
  store dst (globals.mapExcess + step) (dst.getD (globals.mapExcess + step) 0 ||| shifted char (i % 8))

def compress (globals : Globals) (src : List UInt8) : Except Fault (List UInt8) := do
  let dst ← (List.range globals.mapExcess).foldlM (excessTurn src) (List.replicate globals.mapSize 0)
  (List.range globals.mapLeast).foldlM (leastTurn globals src) dst

def appLuaConvert (globals : Globals) (src : List UInt8) : Except Fault (List UInt8) := compress globals src

def appLuaReverse (globals : Globals) (src : List UInt8) : Except Fault (List UInt8) := do
  let dst ← compress globals src
  let idx := globals.mapSize / 8
  .ok ((dst.take (8 * idx)).map (~~~ ·) ++ dst.drop (8 * idx))

def appLuaIfmatch (dst src : List UInt8) : Bool :=
  (List.range (min dst.length src.length / 8)).all fun i =>
    (List.range 8).all fun k => dst.getD (8 * i + k) 0 &&& src.getD (8 * i + k) 0 = 0

def Binary (src : List UInt8) : Prop := ∀ char ∈ src, char = 48 ∨ char = 49

def bit (map : List UInt8) (position : Nat) : Bool := (map.getD (position / 8) 0).toNat.testBit (position % 8)

structure Packs (globals : Globals) (src map : List UInt8) : Prop where
  length : map.length = globals.mapSize
  room : src.length ≤ 8 * map.length
  bits : ∀ position, bit map position = decide (src[position]? = some 49)

variable {globals : Globals} {src dst : List UInt8} {len : Nat}

theorem shifted_testBit {char : UInt8} (digit : char = 48 ∨ char = 49) {count : Nat} (bound : count < 8) (j : Nat) :
    (shifted char count).toNat.testBit j = decide (j = count ∧ char = 49) := by
  have power : ∀ count < 8, (shifted 49 count).toNat = 2 ^ count := by decide
  have zero : ∀ count < 8, (shifted 48 count).toNat = 0 := by decide
  rcases digit with rfl | rfl
  · simp [zero count bound]
  · simp [power count bound, Nat.testBit_two_pow, eq_comm]

theorem or_testBit (old new : UInt8) (j : Nat) :
    (old ||| new).toNat.testBit j = (old.toNat.testBit j || new.toNat.testBit j) := by
  rw [UInt8.toNat_or, Nat.testBit_or]

theorem shifted_zero {count j : Nat} (bound : count < 8) (below : j ≤ count) :
    (shifted 0 count).toNat.testBit j = false := by
  have all : ∀ count < 8, ∀ j ≤ count, (shifted 0 count).toNat.testBit j = false := by decide
  exact all count bound j below

/-- The bits at and below the place of a character, where the one behind the string is the zero byte. -/
theorem charAt_bits (binary : Binary src) {index : Nat} (inside : index ≤ src.length) :
    ∃ char, charAt Fault.read src index = .ok char ∧ ∀ count < 8, ∀ j, (j ≤ count ∨ index < src.length) →
      (shifted char count).toNat.testBit j = decide (j = count ∧ src[index]? = some 49) := by
  rcases Nat.lt_or_eq_of_le inside with proper | rfl
  · refine ⟨src[index], by simp [charAt, proper], fun count bound j _ => ?_⟩
    rw [shifted_testBit (binary _ (getElem_mem proper)) bound, List.getElem?_eq_getElem proper]
    simp
  · refine ⟨0, by simp [charAt], fun count bound j below => ?_⟩
    rw [shifted_zero bound (by omega)]
    simp

theorem packByte_ok (binary : Binary src) {start : Nat} (inside : start + 8 ≤ src.length + 1) :
    ∃ byte, packByte src start = .ok byte ∧ ∀ j, (start + j < src.length ∨ start + 8 ≤ src.length) →
      byte.toNat.testBit j = decide (j < 8 ∧ src[start + j]? = some 49) := by
  refine foldlM_range_ok (fun k (byte : UInt8) => ∀ j, (start + j < src.length ∨ start + k ≤ src.length) →
    byte.toNat.testBit j = decide (j < k ∧ src[start + j]? = some 49)) (by simp) ?_
  intro k byte bound holds
  obtain ⟨char, read, bits⟩ := charAt_bits binary (show start + k ≤ src.length by omega)
  refine ⟨_, by rw [read]; rfl, fun j place => ?_⟩
  rw [or_testBit, holds j (by omega)]
  by_cases above : k < j ∧ start + k = src.length
  · omega
  · rw [bits k bound j (by omega)]
    by_cases same : j = k
    · subst same
      simp
    · simp [same, show j < k + 1 ↔ j < k by omega]

theorem bit_set {index position : Nat} (inside : index < dst.length) (byte : UInt8) :
    bit (dst.set index byte) position =
      if position / 8 = index then byte.toNat.testBit (position % 8) else bit dst position := by
  by_cases same : position / 8 = index
  · subst same
    simp [bit, inside]
  · simp [bit, same, Ne.symm same]

/-- The positions of the string hold their bits up to `count`, and the others none while no zero byte was read. -/
def Filled (globals : Globals) (src : List UInt8) (count : Nat) (dst : List UInt8) : Prop :=
  dst.length = globals.mapSize ∧ ∀ position, (position < src.length ∨ count ≤ src.length) →
    bit dst position = decide (position < count ∧ src[position]? = some 49)

theorem excessTurn_ok (binary : Binary src) {i : Nat} (inside : 8 * i + 8 ≤ src.length + 1)
    (fits : i < globals.mapSize) (filled : Filled globals src (8 * i) dst) :
    ∃ next, excessTurn src dst i = .ok next ∧ Filled globals src (8 * (i + 1)) next := by
  obtain ⟨length, holds⟩ := filled
  obtain ⟨byte, read, bits⟩ := packByte_ok binary inside
  refine ⟨dst.set i byte, ?_, by simpa using length, fun position place => ?_⟩
  · rw [excessTurn, read]
    exact if_pos (by omega)
  · rw [bit_set (by omega)]
    split
    · next here =>
        rw [bits _ (by omega)]
        simp [show 8 * i + position % 8 = position by omega, show position % 8 < 8 by omega,
          show position < 8 * (i + 1) by omega]
    · next away =>
        rw [holds position (by omega)]
        simp [show position < 8 * (i + 1) ↔ position < 8 * i by omega]

theorem leastTurn_ok (binary : Binary src) {i : Nat} (inside : 8 * globals.mapExcess + i ≤ src.length)
    (fits : globals.mapExcess + i / 8 < globals.mapSize)
    (filled : Filled globals src (8 * globals.mapExcess + i) dst) :
    ∃ next, leastTurn globals src dst i = .ok next ∧ Filled globals src (8 * globals.mapExcess + (i + 1)) next := by
  obtain ⟨length, holds⟩ := filled
  obtain ⟨char, read, bits⟩ := charAt_bits binary inside
  refine ⟨_, by rw [leastTurn, read]; exact if_pos (length ▸ fits), by simpa using length, fun position located => ?_⟩
  rw [bit_set (length ▸ fits)]
  have earlier (other : position ≠ 8 * globals.mapExcess + i) :
      position < 8 * globals.mapExcess + (i + 1) ↔ position < 8 * globals.mapExcess + i := by omega
  have old := holds position (by omega)
  split
  · next place =>
      rw [bit, place] at old
      rw [or_testBit, bits _ (by omega) _ (by omega), old]
      by_cases same : position = 8 * globals.mapExcess + i
      · subst same
        simp [show (8 * globals.mapExcess + i) % 8 = i % 8 by omega]
      · simp [show ¬ position % 8 = i % 8 by omega, earlier same]
  · next away => simp [old, earlier (by omega)]

/-- The positions that `compress` packs, `8 * mapExcess` and then `mapLeast`. -/
def Globals.packed (globals : Globals) : Nat := 8 * globals.mapExcess + globals.mapLeast

theorem compress_filled (binary : Binary src) (read : globals.packed ≤ src.length + 1)
    (room : globals.mapExcess + (globals.mapLeast + 7) / 8 ≤ globals.mapSize) :
    ∃ map, compress globals src = .ok map ∧ Filled globals src globals.packed map := by
  rw [Globals.packed] at *
  have blank : Filled globals src (8 * 0) (List.replicate globals.mapSize 0) := by
    refine ⟨length_replicate, fun position _ => ?_⟩
    simp only [bit, getD_eq_getElem?_getD, List.getElem?_replicate]
    split <;> simp
  obtain ⟨middle, firstEq, filled⟩ := foldlM_range_ok (fun i dst => Filled globals src (8 * i) dst) blank
    fun i dst (bound : i < globals.mapExcess) filled =>
      excessTurn_ok binary (show 8 * i + 8 ≤ src.length + 1 by omega) (by omega) filled
  obtain ⟨map, lastEq, filled⟩ := foldlM_range_ok
    (fun i dst => Filled globals src (8 * globals.mapExcess + i) dst) filled
    fun i dst (bound : i < globals.mapLeast) filled => leastTurn_ok binary (by omega) (by omega) filled
  refine ⟨map, ?_, filled⟩
  rw [compress, firstEq]
  exact lastEq

theorem compress_ok (binary : Binary src) (whole : src.length = globals.packed)
    (room : globals.mapExcess + (globals.mapLeast + 7) / 8 ≤ globals.mapSize) :
    ∃ map, compress globals src = .ok map ∧ Packs globals src map := by
  obtain ⟨map, done, length, holds⟩ := compress_filled binary (by omega) room
  refine ⟨map, done, length, ?_, fun position => ?_⟩
  · rw [Globals.packed] at whole
    omega
  · rw [holds position (by omega), ← whole]
    by_cases inside : position < src.length
    · simp [inside]
    · simp [inside]

theorem charAt_inside {index : Nat} {char : UInt8} (read : charAt Fault.read src index = .ok char) : index ≤ src.length := by
  rw [charAt] at read
  split at read
  · next found => exact Nat.le_of_lt (List.getElem?_eq_some_iff.mp found).1
  · split at read
    · omega
    · cases read

theorem store_inside {index : Nat} {byte : UInt8} {next : List UInt8} (stored : store dst index byte = .ok next) :
    index < dst.length ∧ next.length = dst.length := by
  rw [store] at stored
  split at stored
  · cases stored
    exact ⟨‹_›, length_set⟩
  · cases stored

theorem packByte_inside {start : Nat} {byte : UInt8} (packed : packByte src start = .ok byte) :
    start + 7 ≤ src.length := by
  obtain ⟨before, after, -, turn⟩ :=
    foldlM_ok_turns (fun _ => True) trivial (fun _ _ _ _ _ => trivial) packed 7 (by simp)
  obtain ⟨char, read, -⟩ := bind_ok_iff.mp turn
  exact charAt_inside read

theorem excessTurn_inside {i : Nat} {next : List UInt8} (turn : excessTurn src dst i = .ok next) :
    8 * i + 7 ≤ src.length ∧ i < dst.length ∧ next.length = dst.length := by
  obtain ⟨byte, packed, stored⟩ := bind_ok_iff.mp turn
  exact ⟨packByte_inside packed, store_inside stored⟩

theorem leastTurn_inside {i : Nat} {next : List UInt8} (turn : leastTurn globals src dst i = .ok next) :
    8 * globals.mapExcess + i ≤ src.length ∧ globals.mapExcess + i / 8 < dst.length ∧ next.length = dst.length := by
  obtain ⟨char, read, stored⟩ := bind_ok_iff.mp turn
  exact ⟨charAt_inside read, store_inside stored⟩

/-- What `compress` reads and writes when it comes to its end. -/
theorem compress_inside {map : List UInt8} (done : compress globals src = .ok map) :
    globals.packed ≤ src.length + 1 ∧ globals.mapExcess + (globals.mapLeast + 7) / 8 ≤ globals.mapSize := by
  obtain ⟨middle, first, last⟩ := bind_ok_iff.mp done
  have blank : (List.replicate globals.mapSize (0 : UInt8)).length = globals.mapSize := length_replicate
  have size := foldlM_ok_kept (fun dst : List UInt8 => dst.length = globals.mapSize) blank
    (fun dst i next size turn => (excessTurn_inside turn).2.2.trans size) first
  have full : globals.mapExcess = 0 ∨
      8 * globals.mapExcess ≤ src.length + 1 ∧ globals.mapExcess ≤ globals.mapSize := by
    rcases Nat.eq_zero_or_pos globals.mapExcess with zero | positive
    · exact .inl zero
    · obtain ⟨dst, next, length, turn⟩ := foldlM_ok_turns (fun dst : List UInt8 => dst.length = globals.mapSize) blank
        (fun dst i next size turn => (excessTurn_inside turn).2.2.trans size) first
        (globals.mapExcess - 1) (by simp; omega)
      obtain ⟨read, write, -⟩ := excessTurn_inside turn
      omega
  have rest : globals.mapLeast = 0 ∨ 8 * globals.mapExcess + (globals.mapLeast - 1) ≤ src.length ∧
      globals.mapExcess + (globals.mapLeast - 1) / 8 < globals.mapSize := by
    rcases Nat.eq_zero_or_pos globals.mapLeast with zero | positive
    · exact .inl zero
    · obtain ⟨dst, next, length, turn⟩ := foldlM_ok_turns (fun dst : List UInt8 => dst.length = globals.mapSize) size
        (fun dst i next size turn => (leastTurn_inside turn).2.2.trans size) last
        (globals.mapLeast - 1) (by simp; omega)
      obtain ⟨read, write, -⟩ := leastTurn_inside turn
      exact .inr ⟨read, length ▸ write⟩
  rw [Globals.packed]
  omega

/-- The globals are those of one call with this length. -/
theorem appLuaMapinit_eq (positive : 0 < len) :
    appLuaMapinit {} len = ⟨len / 64, len % 64, len / 64 * 8, (len / 64 + if 1 ≤ len % 64 then 1 else 0) * 8⟩ := by
  rw [appLuaMapinit, if_neg (by omega)]
  simp

theorem appLuaMapinit_compress (positive : 0 < len) (binary : Binary src) (length : src.length = len) :
    ∃ map, compress (appLuaMapinit {} len) src = .ok map ∧ Packs (appLuaMapinit {} len) src map ∧
      (appLuaMapinit {} len).mapSize % 8 = 0 := by
  have layout := appLuaMapinit_eq positive
  obtain ⟨map, done, packs⟩ := @compress_ok (appLuaMapinit {} len) src binary
    (by rw [layout, Globals.packed]; simp only; omega) (by
    rw [layout]
    simp only
    split <;> omega)
  exact ⟨map, done, packs, by rw [layout]; simp⟩

theorem and_eq_zero_iff (left right : UInt8) :
    left &&& right = 0 ↔ ∀ j < 8, ¬ (left.toNat.testBit j = true ∧ right.toNat.testBit j = true) := by
  rw [← UInt8.toNat_inj, UInt8.toNat_and]
  constructor
  · intro zero j bound both
    have clear := congrArg (Nat.testBit · j) zero
    simp [both.1, both.2] at clear
  · intro clear
    refine Nat.eq_of_testBit_eq fun j => ?_
    by_cases bound : j < 8
    · have := clear j bound
      simp only [Nat.testBit_and, UInt8.toNat_zero, Nat.zero_testBit]
      grind
    · have small : left.toNat < 2 ^ j :=
        Nat.lt_of_lt_of_le left.toNat_lt (Nat.pow_le_pow_right (by decide) (Nat.le_of_not_lt bound))
      simp [Nat.testBit_lt_two_pow small]

theorem appLuaIfmatch_iff {left right : List UInt8} (same : left.length = right.length) (whole : left.length % 8 = 0) :
    appLuaIfmatch left right = true ↔
      ∀ position < 8 * left.length, ¬ (bit left position = true ∧ bit right position = true) := by
  simp only [appLuaIfmatch, same, Nat.min_self, all_eq_true, mem_range, decide_eq_true_eq, and_eq_zero_iff]
  constructor
  · intro clear position bound
    have here := clear (position / 64) (by omega) (position / 8 % 8) (by omega) (position % 8) (by omega)
    rwa [show 8 * (position / 64) + position / 8 % 8 = position / 8 by omega] at here
  · intro clear i iBound k kBound j jBound
    have here := clear (64 * i + 8 * k + j) (by omega)
    rwa [bit, bit, show (64 * i + 8 * k + j) / 8 = 8 * i + k by omega,
      show (64 * i + 8 * k + j) % 8 = j by omega] at here

theorem not_testBit (byte : UInt8) {j : Nat} (bound : j < 8) : (~~~ byte).toNat.testBit j = !byte.toNat.testBit j := by
  have all : ∀ byte : BitVec 8, ∀ j < 8, (~~~ byte).toNat.testBit j = !byte.toNat.testBit j := by
    intro byte j bound
    rw [BitVec.testBit_toNat, BitVec.testBit_toNat, BitVec.getLsbD_not]
    simp [bound]
  exact all byte.toBitVec j bound

/-- Two maps match exactly when the first set is included in the second. -/
theorem ifmatch_inclusion (len : Nat) (positive : 0 < len) (a b : List UInt8) (aBinary : Binary a) (bBinary : Binary b)
    (aLength : a.length = len) (bLength : b.length = len) :
    ∃ converted reversed, appLuaConvert (appLuaMapinit {} len) a = .ok converted ∧
      appLuaReverse (appLuaMapinit {} len) b = .ok reversed ∧
      (appLuaIfmatch converted reversed = true ↔ ∀ position < len, a[position]? = some 49 →
          b[position]? = some 49) := by
  obtain ⟨converted, aEq, aPacks, whole⟩ := appLuaMapinit_compress positive aBinary aLength
  obtain ⟨map, bEq, bPacks, -⟩ := appLuaMapinit_compress positive bBinary bLength
  have words : 8 * ((appLuaMapinit {} len).mapSize / 8) = map.length := by
    have := bPacks.length
    omega
  refine ⟨converted, map.map (~~~ ·), aEq, ?_, ?_⟩
  · simp only [appLuaReverse, bEq, ok_bind, words, take_length, drop_length, append_nil]
  · have sizes : converted.length = map.length := aPacks.length.trans bPacks.length.symm
    rw [appLuaIfmatch_iff (by simpa using sizes) (by rw [aPacks.length]; exact whole)]
    have reversed (position : Nat) (bound : position < 8 * converted.length) :
        bit (map.map (~~~ ·)) position = !decide (b[position]? = some 49) := by
      rw [← bPacks.bits, bit, bit]
      have inside : position / 8 < map.length := by omega
      simp only [getD_eq_getElem?_getD, List.getElem?_map, List.getElem?_eq_getElem inside, Option.map_some,
        Option.getD_some, not_testBit _ (show position % 8 < 8 by omega)]
    constructor
    · intro clear position bound set
      have room := aPacks.room
      have here := clear position (by omega)
      rw [aPacks.bits, reversed position (by omega)] at here
      simpa [set] using here
    · intro included position bound both
      rw [aPacks.bits, reversed position bound] at both
      simp only [decide_eq_true_eq, Bool.not_eq_true', decide_eq_false_iff_not] at both
      have inside : position < a.length := (List.getElem?_eq_some_iff.mp both.1).1
      exact both.2 (included position (by omega) both.1)

theorem ifmatch_inclusion_three : ∃ converted reversed,
    appLuaConvert (appLuaMapinit {} 3) [48, 49, 48] = .ok converted ∧
      appLuaReverse (appLuaMapinit {} 3) [48, 49, 49] = .ok reversed ∧
      appLuaIfmatch converted reversed = true := by
  have first : Binary [48, 49, 48] := by simp [Binary]
  have second : Binary [48, 49, 49] := by simp [Binary]
  obtain ⟨converted, reversed, convert, reverse, included⟩ :=
    ifmatch_inclusion 3 (by decide) _ _ first second rfl rfl
  exact ⟨converted, reversed, convert, reverse, included.mpr (by decide)⟩

def lengths (calls : List Int) : List Nat := (calls.filter (0 < ·)).map Int.toNat

def firstNonzero : List Nat → Nat
  | [] => 0
  | value :: values => if value = 0 then firstNonzero values else value

/-- The positions that the first words and the first odd bits among the calls make up. -/
def covered (calls : List Int) : Nat :=
  64 * firstNonzero ((lengths calls).map (· / 64)) + firstNonzero ((lengths calls).map (· % 64))

/-- The positions for which the first call allots room. -/
def allotted (calls : List Int) : Nat := 64 * (((lengths calls).headD 0 + 63) / 64)

theorem firstNonzero_concat (values : List Nat) (value : Nat) :
    firstNonzero (values ++ [value]) = if firstNonzero values = 0 then value else firstNonzero values := by
  induction values with
  | nil => simp [firstNonzero, eq_comm]
  | cons first values ih =>
      simp only [cons_append, firstNonzero, ih]
      split_ifs <;> simp_all

theorem firstNonzero_lt {bound : Nat} (positive : 0 < bound) {values : List Nat}
    (below : ∀ value ∈ values, value < bound) : firstNonzero values < bound := by
  induction values with
  | nil => exact positive
  | cons first values ih =>
      obtain ⟨here, later⟩ := forall_mem_cons.mp below
      rw [firstNonzero]
      split_ifs
      · exact ih later
      · exact here

theorem lengths_concat (calls : List Int) {call : Int} (positive : 0 < call) :
    lengths (calls ++ [call]) = lengths calls ++ [call.toNat] := by
  simp [lengths, positive]

/-- The globals in terms of the lengths of the calls. -/
theorem foldl_appLuaMapinit (calls : List Int) :
    let quotient := firstNonzero ((lengths calls).map (· / 64))
    calls.foldl appLuaMapinit {} = ⟨quotient, firstNonzero ((lengths calls).map (· % 64)), quotient * 8,
      ((lengths calls).headD 0 + 63) / 64 * 8⟩ := by
  induction calls using List.reverseRecOn with
  | nil => rfl
  | append_singleton calls call ih =>
      rw [foldl_append, ih, foldl_cons, foldl_nil, appLuaMapinit]
      by_cases negative : call ≤ 0
      · have unchanged : lengths (calls ++ [call]) = lengths calls := by simp [lengths, negative]
        rw [if_pos negative, unchanged]
      · have positive : 0 < call := by omega
        rw [if_neg negative, lengths_concat calls positive, map_append, map_append, map_singleton, map_singleton,
          firstNonzero_concat, firstNonzero_concat]
        cases earlier : lengths calls with
        | nil =>
            simp [firstNonzero]
            grind
        | cons first more =>
            have present : 0 < first := by
              have member : first ∈ lengths calls := by simp [earlier]
              simp only [lengths, mem_map, mem_filter, decide_eq_true_eq] at member
              omega
            simp only [headD_cons, cons_append, Globals.mk.injEq, true_and]
            grind

/-- Every string of the last length is packed inside the map exactly if the words and bits that the first
calls left cover it, at most up to its terminator, within the room of the first call. -/
theorem compress_packs_iff (calls : List Int) (len : Nat) (positive : 0 < len) :
    (∀ src, Binary src → src.length = len → ∃ map,
      compress ((calls ++ [(len : Int)]).foldl appLuaMapinit {}) src = .ok map ∧
      map.length = ((calls ++ [(len : Int)]).foldl appLuaMapinit {}).mapSize ∧
      ∀ position < len, bit map position = decide (src[position]? = some 49)) ↔
    len ≤ covered (calls ++ [(len : Int)]) ∧
      covered (calls ++ [(len : Int)]) ≤ len + 1 ∧
      covered (calls ++ [(len : Int)]) ≤ allotted (calls ++ [(len : Int)]) := by
  have layout := foldl_appLuaMapinit (calls ++ [(len : Int)])
  generalize (calls ++ [(len : Int)]).foldl appLuaMapinit {} = globals at layout ⊢
  have packed : globals.packed = covered (calls ++ [(len : Int)]) := by
    rw [Globals.packed, layout, covered]
    simp only
    omega
  have room : globals.mapExcess + (globals.mapLeast + 7) / 8 ≤ globals.mapSize ↔
      covered (calls ++ [(len : Int)]) ≤ allotted (calls ++ [(len : Int)]) := by
    have small : firstNonzero ((lengths (calls ++ [(len : Int)])).map (· % 64)) < 64 := by
      refine firstNonzero_lt (by decide) fun value member => ?_
      obtain ⟨length, -, rfl⟩ := mem_map.mp member
      exact Nat.mod_lt _ (by decide)
    rw [layout, covered, allotted]
    simp only
    omega
  rw [← packed, ← room] at *
  constructor
  · intro right
    have ones : Binary (List.replicate len 49) := fun char member => .inr (eq_of_mem_replicate member)
    obtain ⟨map, done, -, bits⟩ := right _ ones length_replicate
    obtain ⟨read, fits⟩ := compress_inside done
    rw [length_replicate] at read
    obtain ⟨same, again, -, filled⟩ := compress_filled ones (by rwa [length_replicate]) fits
    obtain rfl : same = map := by simpa [done] using again.symm
    refine ⟨?_, read, fits⟩
    by_contra short
    -- the position behind the packed ones is left clear
    have clear := bits globals.packed (by omega)
    rw [filled globals.packed (.inl (by rw [length_replicate]; omega)), getElem?_replicate,
      if_pos (by omega)] at clear
    simp at clear
  · rintro ⟨covers, read, fits⟩ src binary rfl
    obtain ⟨map, done, length, filled⟩ := compress_filled binary read fits
    refine ⟨map, done, length, fun position inside => ?_⟩
    rw [filled position (.inl inside)]
    simp [show position < globals.packed by omega]

theorem compress_packs_twice : ∃ map, compress ([3, 2].foldl appLuaMapinit {}) [49, 49] = .ok map ∧
    map.length = 8 ∧ ∀ position < 2, bit map position = decide ([(49 : UInt8), 49][position]? = some 49) :=
  (compress_packs_iff [3] 2 (by decide)).mpr (by decide) [49, 49] (by simp [Binary]) rfl

theorem compress_packs_outgrown : compress ([64, 65].foldl appLuaMapinit {}) (List.replicate 65 49) = .error .write ∧
      ([64, 128].foldl appLuaMapinit {}).mapSize = 8 ∧
      (compress ([64, 128].foldl appLuaMapinit {}) (List.replicate 128 49)).map List.length = .ok 8 := by
  decide +kernel

end Libucmq.Match
