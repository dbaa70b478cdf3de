import Mathlib.Data.List.Induction
import Libucmq.Store.TagRead

/-! Tag files with torn lines. -/

namespace Libucmq

open CString List Decimal

variable {run : List UInt8}

theorem digits_clear_line (digits : Digits run) : ∀ char ∈ run, char ≠ 0 ∧ char ≠ 10 := by
  intro char member
  have range := digits char member
  constructor <;> rintro rfl <;> simp at range

theorem tokens_run (digits : Digits run) (nonempty : run ≠ []) : tokens 10 run = [run] := by
  have read := @tokensFrom_run 10 run [] [] (digits_clear_line digits)
  rw [append_nil, nil_append] at read
  rw [tokens, read, tokensFrom, if_neg nonempty]

theorem tokens_run_line (digits : Digits run) (nonempty : run ≠ []) (rest : List UInt8) :
    tokens 10 (run ++ 10 :: rest) = run :: tokens 10 rest := by
  rw [tokens, tokensFrom_run _ _ (digits_clear_line digits), nil_append, tokensFrom]
  simp [nonempty, tokens]

theorem digits_replicate (count : Nat) : Digits (List.replicate count 48) := by
  intro char member
  rw [eq_of_mem_replicate member]
  decide

theorem digits_drop (digits : Digits run) (count : Nat) : Digits (run.drop count) :=
  fun char member => digits char (mem_of_mem_drop member)

theorem digits_take (digits : Digits run) (count : Nat) : Digits (run.take count) :=
  fun char member => digits char (mem_of_mem_take member)

namespace TagKind

def digits : TagKind → MqQueue → List UInt8
  | .rtag, queue => fixedDigits 20 queue.getNum.toNat ++ fixedDigits 10 queue.curRdb.pos.toNat
  | .wtag, queue =>
    fixedDigits 20 queue.putNum.toNat ++ fixedDigits 10 queue.curWdb.pos.toNat ++
      fixedDigits 10 queue.maxque.toNat

theorem line_eq (kind : TagKind) (queue : MqQueue) : kind.line queue = kind.digits queue ++ [10] := by
  cases kind with
  | rtag =>
    rw [line, rtagItem, padded_of_fits (by omega) (uint64_fits _),
      padded_of_fits (by omega) (uint32_fits _), digits]
  | wtag =>
    rw [line, wtagItem, padded_of_fits (by omega) (uint64_fits _),
      padded_of_fits (by omega) (uint32_fits _), padded_of_fits (by omega) (uint32_fits _), digits]

theorem digits_length (kind : TagKind) (queue : MqQueue) : (kind.digits queue).length = kind.itemLen := by
  cases kind <;> simp [digits, itemLen, rtagItemLen, wtagItemLen]

theorem digits_digits (kind : TagKind) (queue : MqQueue) : Digits (kind.digits queue) := by
  have number : ∀ width value, Digits (fixedDigits width value) := fun _ _ _ =>
    fixedDigits_digit
  cases kind with
  | rtag => exact digits_append_iff.mpr ⟨number _ _, number _ _⟩
  | wtag => exact digits_append_iff.mpr ⟨digits_append_iff.mpr ⟨number _ _, number _ _⟩, number _ _⟩

theorem itemLen_pos (kind : TagKind) : 0 < kind.itemLen := by cases kind <;> decide

variable {kind : TagKind} {queue : MqQueue} {run : List UInt8}

theorem parse_pass (digits : Digits run) (short : run.length < kind.itemLen) (rest : List UInt8) :
    kind.parse queue (tokens 10 (run ++ 10 :: rest)) = kind.parse queue (tokens 10 rest) := by
  by_cases empty : run = []
  · rw [empty, nil_append, tokens, tokensFrom]
    rfl
  · rw [tokens_run_line digits empty, parse_short kind queue _ short]

theorem parse_end (digits : Digits run) (short : run.length < kind.itemLen) :
    kind.parse queue (tokens 10 run) = (false, queue) := by
  have nil : kind.parse queue [] = (false, queue) := by cases kind <;> rfl
  by_cases empty : run = []
  · rw [empty]
    exact nil
  · rw [tokens_run digits empty, parse_short kind queue _ short, nil]

theorem parse_hit (digits : Digits run) (long : kind.itemLen ≤ run.length) (within : seenPos run ≤ maxDbFileSize)
    (rest : List UInt8) : kind.parse queue (tokens 10 (run ++ 10 :: rest)) = (true, kind.filled queue run) := by
  have nonempty : run ≠ [] := by
    rintro rfl
    exact absurd long (Nat.not_le_of_lt kind.itemLen_pos)
  rw [tokens_run_line digits nonempty, parse_line kind queue _ long (digits_take digits _), if_pos within]

theorem parse_hit_end (digits : Digits run) (long : kind.itemLen ≤ run.length)
    (within : seenPos run ≤ maxDbFileSize) : kind.parse queue (tokens 10 run) = (true, kind.filled queue run) := by
  have nonempty : run ≠ [] := by
    rintro rfl
    exact absurd long (Nat.not_le_of_lt kind.itemLen_pos)
  rw [tokens_run digits nonempty, parse_line kind queue _ long (digits_take digits _), if_pos within]

theorem parse_complete {last : MqQueue} (inside : (kind.position last).toNat ≤ 67108864) (rest : List UInt8) :
    ∃ parsed, kind.parse queue (tokens 10 (kind.line last ++ rest)) = (true, parsed) ∧ kind.Restores parsed last := by
  obtain ⟨parsed, alone, restored⟩ := kind.parse_written queue inside
  have long : kind.itemLen ≤ (kind.digits last).length := by rw [digits_length]
  have nonempty : kind.digits last ≠ [] := by
    intro empty
    rw [empty] at long
    exact absurd long (Nat.not_le_of_lt kind.itemLen_pos)
  refine ⟨parsed, ?_, restored⟩
  rw [line_eq, tokens_run_line (kind.digits_digits last) nonempty,
    parse_line kind queue _ long (digits_take (kind.digits_digits last) _)] at alone
  rw [line_eq, append_assoc, singleton_append, tokens_run_line (kind.digits_digits last) nonempty,
    parse_line kind queue _ long (digits_take (kind.digits_digits last) _)]
  by_cases within : seenPos (kind.digits last) ≤ maxDbFileSize
  · rw [if_pos within] at alone ⊢
    exact alone
  · rw [if_neg within, show tokens 10 [] = [] from rfl] at alone
    cases kind <;> cases alone

theorem window_tail {front back : List UInt8} {line : Nat} (early : line ≤ 2)
    (length : back.length = line * (kind.itemLen + 1)) : kind.window (front ++ back) line = back := by
  have size : (front ++ back).length - line * (kind.itemLen + 1) = front.length := by
    rw [length_append, length, Nat.add_sub_cancel]
  have short := Nat.mul_le_mul_right (kind.itemLen + 1) early
  rw [window, size, drop_left, take_of_length_le (by rw [length]; exact short)]

theorem reaches_tail {front back : List UInt8} {line : Nat} (length : back.length = line * (kind.itemLen + 1)) :
    kind.Reaches (front ++ back) line ↔ 0 ≤ toCInt front.length := by
  have size : (front ++ back).length - line * (kind.itemLen + 1) = front.length := by
    rw [length_append, length, Nat.add_sub_cancel]
  rw [Reaches, size, length_append, length]
  exact and_iff_right (Nat.le_add_left _ _)

structure Append where
  state : MqQueue
  cut : Nat

def text (kind : TagKind) (appends : List Append) : List UInt8 :=
  appends.flatMap fun append => (kind.line append.state).take append.cut

def tornRun (size : Nat) (cuts : List Nat) : Nat := (cuts.reverse.takeWhile (· ≠ size)).sum

theorem text_append (kind : TagKind) (front back : List Append) :
    kind.text (front ++ back) = kind.text front ++ kind.text back := by
  simp [text]

theorem text_single (kind : TagKind) (append : Append) :
    kind.text [append] = (kind.line append.state).take append.cut := by
  simp [text]

variable {appends : List Append}

theorem text_length (cuts : ∀ append ∈ appends, append.cut ≤ kind.itemLen + 1) :
    (kind.text appends).length = (appends.map Append.cut).sum := by
  induction appends with
  | nil => rfl
  | cons append appends ih =>
    obtain ⟨first, rest⟩ := forall_mem_cons.mp cuts
    rw [text, flatMap_cons, length_append, length_take, line_length, Nat.min_eq_left first,
      map_cons, sum_cons, ← ih rest, text]

theorem line_torn (kind : TagKind) (queue : MqQueue) {cut : Nat} (torn : cut ≤ kind.itemLen) :
    (kind.line queue).take cut = (kind.digits queue).take cut := by
  rw [line_eq, take_append_of_le_length (by rw [digits_length]; exact torn)]

theorem text_digits (torn : ∀ append ∈ appends, append.cut < kind.itemLen + 1) : Digits (kind.text appends) := by
  intro char member
  obtain ⟨append, listed, found⟩ := mem_flatMap.mp member
  rw [line_torn kind _ (Nat.le_of_lt_succ (torn append listed))] at found
  exact digits_take (kind.digits_digits _) _ char found

theorem tornRun_concat (size : Nat) (cuts : List Nat) (cut : Nat) :
    tornRun size (cuts ++ [cut]) = if cut = size then 0 else cut + tornRun size cuts := by
  rw [tornRun, reverse_concat, takeWhile_cons]
  by_cases whole : cut = size <;> simp [whole, tornRun]

theorem text_complete (cuts : ∀ append ∈ appends, append.cut ≤ kind.itemLen + 1)
    (clean : tornRun (kind.itemLen + 1) (appends.map Append.cut) = 0) (present : 0 < (appends.map Append.cut).sum) :
    ∃ front state, kind.text appends = front ++ kind.line state := by
  induction appends using List.reverseRecOn with
  | nil => simp at present
  | append_singleton appends last ih =>
    rw [map_append, map_singleton, tornRun_concat] at clean
    rw [text_append, text_single]
    by_cases whole : last.cut = kind.itemLen + 1
    · refine ⟨kind.text appends, last.state, ?_⟩
      rw [whole, take_of_length_le (by rw [line_length])]
    · rw [if_neg whole, Nat.add_eq_zero_iff] at clean
      obtain ⟨front, state, same⟩ := ih (fun append member => cuts append (by simp [member])) clean.2
        (by simpa [clean.1] using present)
      exact ⟨front, state, by rw [clean.1, take_zero, append_nil, same]⟩

theorem line_drop (kind : TagKind) (queue : MqQueue) {cut : Nat} (early : cut ≤ kind.itemLen) :
    (kind.line queue).drop cut = (kind.digits queue).drop cut ++ [10] := by
  rw [line_eq, drop_append_of_le_length (by rw [digits_length]; exact early)]

theorem scan_torn {os : Os} {tail front : List UInt8} {last : MqQueue} (fuel : Nat) (reliable : os.Reliable)
    (digits : Digits tail) (nonempty : 0 < tail.length) (short : tail.length < kind.itemLen)
    (small : 0 ≤ toCInt (front.length + tail.length)) :
    kind.scan (front ++ kind.line last ++ tail) (fuel + 1) 1 queue os =
      kind.scan (front ++ kind.line last ++ tail) fuel 2 queue os.tick := by
  have split : front ++ kind.line last ++ tail =
      (front ++ (kind.line last).take tail.length) ++ ((kind.line last).drop tail.length ++ tail) := by
    simp only [append_assoc]
    rw [← append_assoc ((kind.line last).take _), take_append_drop]
  have length : ((kind.line last).drop tail.length ++ tail).length = 1 * (kind.itemLen + 1) := by
    rw [length_append, length_drop, line_length]
    omega
  refine scan_reject fuel reliable (le_refl 1) ?_ ?_
  · rw [split, reaches_tail length, length_append, length_take, line_length,
      Nat.min_eq_left (by omega)]
    exact small
  · rw [split, window_tail (by omega) length, line_drop kind last (by omega), append_assoc,
      singleton_append, parse_pass (digits_drop (kind.digits_digits last) _) (by
        rw [length_drop, digits_length]; omega), parse_end digits short]

theorem scan_behind {os : Os} {tail front : List UInt8} {last state : MqQueue} (fuel : Nat) (reliable : os.Reliable)
    (nonempty : 0 < tail.length) (short : tail.length < kind.itemLen) (inside : (kind.position last).toNat ≤ 67108864)
    (small : 0 ≤ toCInt (front.length + tail.length)) :
    ∃ parsed, kind.scan (front ++ kind.line state ++ kind.line last ++ tail) (fuel + 1) 2 queue os =
        (.found 2, parsed, os.tick) ∧ kind.Restores parsed last := by
  have split : front ++ kind.line state ++ kind.line last ++ tail =
      (front ++ (kind.line state).take tail.length) ++
        ((kind.line state).drop tail.length ++ (kind.line last ++ tail)) := by
    simp only [append_assoc]
    rw [← append_assoc ((kind.line state).take _), take_append_drop]
  have length : ((kind.line state).drop tail.length ++ (kind.line last ++ tail)).length =
      2 * (kind.itemLen + 1) := by
    rw [length_append, length_append, length_drop, line_length, line_length]
    omega
  obtain ⟨parsed, accepted, restored⟩ := @parse_complete kind queue last inside tail
  refine ⟨parsed, scan_accept fuel reliable (by omega) ?_ ?_, restored⟩
  · rw [split, reaches_tail length, length_append, length_take, line_length,
      Nat.min_eq_left (by omega)]
    exact small
  · rw [split, window_tail (le_refl 2) length, line_drop kind state (by omega), append_assoc,
      singleton_append, parse_pass (digits_drop (kind.digits_digits state) _) (by
        rw [length_drop, digits_length]; omega), accepted]

/-- The last complete line; with `torn` bytes, a position off the rest. -/
def Recovered (torn : Nat) : TagKind → MqQueue → MqQueue → Prop
  | .rtag, read, last => read.getNum = last.getNum ∧ read.curRdb.pos = last.curRdb.pos
  | .wtag, read, last =>
    read.putNum = last.putNum ∧ read.maxque = last.maxque ∧
      read.curWdb.pos = if torn = 0 then last.curWdb.pos else maxDbFilePos

variable {read last : MqQueue}

theorem Recovered.count {torn : Nat} (recovered : Recovered torn kind read last) :
    kind.count read = kind.count last := by
  cases kind <;> exact recovered.1

theorem Restores.recovered (restored : kind.Restores read last) : Recovered 0 kind read last := by
  cases kind with
  | rtag => exact restored
  | wtag => exact ⟨restored.1, restored.2.2, restored.2.1⟩

theorem Restores.marked {torn : Nat} (restored : kind.Restores read last) (present : torn ≠ 0) :
    Recovered torn kind (TagKind.marked 2 read) last := by
  cases kind with
  | rtag => exact restored
  | wtag => exact ⟨restored.1, restored.2.2, by rw [if_neg present]; rfl⟩

/-- No torn bytes, or less than a line behind two complete ones. -/
def Recoverable (kind : TagKind) (before after : List Nat) : Prop :=
  (after.sum = 0 ∧ 0 ≤ toCInt before.sum) ∨
  (0 < after.sum ∧ after.sum < kind.itemLen ∧ tornRun (kind.itemLen + 1) before = 0 ∧ 0 < before.sum ∧
    0 ≤ toCInt (before.sum + after.sum) ∧ 0 ≤ toCInt (before.sum + after.sum - (kind.itemLen + 1)))

theorem readItem_recovers {before after : List Append} {last : MqQueue} {os : Os} (reliable : os.Reliable)
    (content : os.tagContent (kind.fd queue) = kind.text before ++ kind.line last ++ kind.text after)
    (beforeCuts : ∀ append ∈ before, append.cut ≤ kind.itemLen + 1)
    (afterCuts : ∀ append ∈ after, append.cut < kind.itemLen + 1) (inside : (kind.position last).toNat ≤ 67108864)
    (layout : kind.Recoverable (before.map Append.cut) (after.map Append.cut)) :
    ∃ read final, kind.readItem queue os = (true, read, final) ∧
      Recovered (after.map Append.cut).sum kind read last := by
  have beforeLength := text_length beforeCuts
  have afterLength := text_length fun append member => Nat.le_of_lt (afterCuts append member)
  rcases layout with ⟨whole, small⟩ | ⟨present, short, clean, earlier, small, smaller⟩
  · have nothing : kind.text after = [] := eq_nil_of_length_eq_zero (by rw [afterLength, whole])
    rw [nothing, append_nil] at content
    obtain ⟨read, run, restored⟩ := readItem_last reliable _ content inside (by rw [beforeLength]; exact small)
    exact ⟨read, _, run, by rw [whole]; exact restored.recovered⟩
  · obtain ⟨front, state, same⟩ := text_complete beforeCuts clean earlier
    have frontLength : front.length + (kind.itemLen + 1) = (before.map Append.cut).sum := by
      rw [← beforeLength, same, length_append, line_length]
    rw [readItem_eq, content]
    -- The first turn sees two short runs; the second takes the last complete line.
    rw [← afterLength] at present short small smaller ⊢
    rw [← beforeLength] at small
    rw [scan_torn _ reliable (text_digits afterCuts) present short small, same]
    obtain ⟨fuel, size⟩ : ∃ fuel, (front ++ kind.line state ++ kind.line last ++ kind.text after).length =
        fuel + 1 := ⟨_, (Nat.succ_pred_eq_of_pos (by simp only [length_append]; omega)).symm⟩
    obtain ⟨parsed, run, restored⟩ := @scan_behind kind queue os.tick (kind.text after) front last state fuel
      reliable present short inside (by
        rw [show front.length + (kind.text after).length =
          (before.map Append.cut).sum + (kind.text after).length - (kind.itemLen + 1) by omega]
        exact smaller)
    rw [size, run]
    exact ⟨_, _, rfl, restored.marked (by omega)⟩

def counting (count : UInt64) : MqQueue := { getNum := count, putNum := count }

def blanks (cuts : List Nat) : List Append := cuts.map fun cut => ⟨{}, cut⟩

theorem digits_blank (kind : TagKind) : kind.digits {} = List.replicate kind.itemLen 48 := by
  cases kind <;> decide

theorem digits_largest (kind : TagKind) :
    kind.digits (counting 10000000000000000000) = 49 :: List.replicate (kind.itemLen - 1) 48 := by
  cases kind <;> decide

theorem digits_one (kind : TagKind) :
    kind.digits (counting 1) = List.replicate 19 48 ++ 49 :: List.replicate (kind.itemLen - 20) 48 := by
  cases kind <;> decide

theorem blanks_cut (cuts : List Nat) : (blanks cuts).map Append.cut = cuts := by
  rw [blanks, map_map]
  exact map_id cuts

theorem blanks_torn {cuts : List Nat} (torn : ∀ cut ∈ cuts, cut < kind.itemLen + 1) :
    kind.text (blanks cuts) = List.replicate cuts.sum 48 := by
  induction cuts with
  | nil => rfl
  | cons cut cuts ih =>
    obtain ⟨first, rest⟩ := forall_mem_cons.mp torn
    rw [blanks, map_cons, ← singleton_append, text_append, text_single,
      line_torn kind _ (Nat.le_of_lt_succ first), digits_blank, take_replicate,
      Nat.min_eq_left (Nat.le_of_lt_succ first), ← blanks, ih rest, sum_cons, replicate_add]

theorem blanks_split {cuts : List Nat} (bound : ∀ cut ∈ cuts, cut ≤ kind.itemLen + 1) :
    ∃ front, kind.text (blanks cuts) = front ++ List.replicate (tornRun (kind.itemLen + 1) cuts) 48 ∧
      (front = [] ∨ ∃ earlier, front = earlier ++ kind.line {}) := by
  induction cuts using List.reverseRecOn with
  | nil => exact ⟨[], rfl, Or.inl rfl⟩
  | append_singleton cuts cut ih =>
    have last : blanks (cuts ++ [cut]) = blanks cuts ++ [⟨{}, cut⟩] := by simp [blanks]
    rw [last, text_append, text_single, tornRun_concat]
    by_cases whole : cut = kind.itemLen + 1
    · rw [if_pos whole]
      refine ⟨kind.text (blanks cuts) ++ kind.line {}, ?_, Or.inr ⟨_, rfl⟩⟩
      rw [replicate_zero, append_nil, take_of_length_le (by rw [line_length, whole])]
    · have torn : cut ≤ kind.itemLen := by
        have := bound cut (by simp)
        omega
      obtain ⟨front, same, shape⟩ := ih fun other member => bound other (by simp [member])
      refine ⟨front, ?_, shape⟩
      rw [if_neg whole, same, line_torn kind _ torn, digits_blank, take_replicate, Nat.min_eq_left torn,
        Nat.add_comm cut, replicate_add, append_assoc]

theorem misread (kind : TagKind) {zeros : Nat} (present : 0 < zeros) :
    ∃ count, seenPos (List.replicate zeros 48 ++ kind.digits (counting count)) = 0 ∧
      UInt64.ofNat (valueFrom 0 (countText (List.replicate zeros 48 ++ kind.digits (counting count)))) ≠
        count := by
  by_cases few : zeros ≤ 19
  · -- The largest digit moves down inside the count field.
    refine ⟨10000000000000000000, ?_, ?_⟩
    · rw [seenPos, posText, digits_largest, drop_append, length_replicate,
        show 20 - zeros = (19 - zeros) + 1 by omega, drop_succ_cons, drop_replicate, drop_replicate,
        show zeros - 20 = 0 by omega, replicate_zero, nil_append, take_replicate,
        valueFrom_replicate]
    · have value : valueFrom 0 (countText (List.replicate zeros 48 ++
          kind.digits (counting 10000000000000000000))) < 10 ^ 19 := by
        rw [countText, take_append, length_replicate, take_replicate,
          Nat.min_eq_right (by omega), valueFrom_zeros]
        refine Nat.lt_of_lt_of_le (valueFrom_lt fun char member =>
          (digits_take (kind.digits_digits _) _ char member).2) ?_
        rw [Nat.zero_add, Nat.one_mul, length_take]
        exact Nat.pow_le_pow_right (by omega) (by omega)
      intro same
      have number := congrArg UInt64.toNat same
      rw [UInt64.toNat_ofNat', Nat.mod_eq_of_lt (by omega)] at number
      simp only [UInt64.reduceToNat] at number
      omega
  · -- The count field holds zeros only.
    have shape : List.replicate zeros 48 ++ kind.digits (counting 1) =
        List.replicate (zeros + 19) 48 ++ 49 :: List.replicate (kind.itemLen - 20) 48 := by
      rw [digits_one, replicate_add, append_assoc]
    refine ⟨1, ?_, ?_⟩
    · rw [seenPos, posText, shape, drop_append_of_le_length (by rw [length_replicate]; omega),
        drop_replicate, take_append_of_le_length (by rw [length_replicate]; omega),
        take_replicate, valueFrom_replicate]
    · rw [countText, shape, take_append_of_le_length (by rw [length_replicate]; omega),
        take_replicate, valueFrom_replicate]
      decide

theorem parse_zeros {zeros : Nat} (long : kind.itemLen ≤ zeros) :
    ∃ parsed, kind.parse queue (tokens 10 (List.replicate zeros 48)) = (true, parsed) ∧ kind.count parsed = 0 := by
  have within : seenPos (List.replicate zeros 48) ≤ maxDbFileSize := by
    rw [seenPos, posText, drop_replicate, take_replicate, valueFrom_replicate]
    exact Nat.zero_le _
  refine ⟨_, parse_hit_end (digits_replicate zeros) (by rw [length_replicate]; exact long) within, ?_⟩
  rw [filled_count, countText, take_replicate, valueFrom_replicate]
  rfl

theorem scan_overlong {os : Os} {front : List UInt8} {last : MqQueue} {torn : Nat} (fuel : Nat)
    (reliable : os.Reliable) (long : kind.itemLen ≤ torn) (small : 0 ≤ toCInt (front.length + torn)) :
    ∃ parsed, kind.scan (front ++ kind.line last ++ List.replicate torn 48) (fuel + 1) 1 queue os =
      (.found 1, parsed, os.tick) ∧ kind.count parsed = 0 := by
  by_cases precise : torn = kind.itemLen
  · -- The window is the end of the last line and the torn line.
    subst precise
    have split : front ++ kind.line last ++ List.replicate kind.itemLen 48 =
        (front ++ kind.digits last) ++ ([10] ++ List.replicate kind.itemLen 48) := by
      rw [line_eq]
      simp only [append_assoc]
    have length : ([10] ++ List.replicate kind.itemLen 48 : List UInt8).length = 1 * (kind.itemLen + 1) := by
      rw [length_append, length_replicate, length_singleton]
      omega
    obtain ⟨parsed, accepted, zero⟩ := @parse_zeros kind queue _ (le_refl kind.itemLen)
    refine ⟨parsed, ?_, zero⟩
    rw [split]
    refine scan_accept fuel reliable (le_refl 1) ?_ ?_
    · rw [reaches_tail length, length_append, digits_length]
      exact small
    · rw [window_tail (by omega) length]
      exact accepted
  · have split : front ++ kind.line last ++ List.replicate torn 48 =
        (front ++ kind.line last ++ List.replicate (torn - (kind.itemLen + 1)) 48) ++
          List.replicate (kind.itemLen + 1) 48 := by
      rw [append_assoc _ (List.replicate _ 48), ← replicate_add, Nat.sub_add_cancel (by omega)]
    have length : (List.replicate (kind.itemLen + 1) 48 : List UInt8).length = 1 * (kind.itemLen + 1) := by
      rw [length_replicate, Nat.one_mul]
    obtain ⟨parsed, accepted, zero⟩ := @parse_zeros kind queue _ (Nat.le_succ kind.itemLen)
    refine ⟨parsed, ?_, zero⟩
    rw [split]
    refine scan_accept fuel reliable (le_refl 1) ?_ ?_
    · rw [reaches_tail length, length_append, length_append, length_replicate, line_length,
        show front.length + (kind.itemLen + 1) + (torn - (kind.itemLen + 1)) = front.length + torn by omega]
      exact small
    · rw [window_tail (by omega) length]
      exact accepted

theorem scan_shifted {os : Os} {count : UInt64} {torn zeros size : Nat} {front : List UInt8} (fuel : Nat)
    (reliable : os.Reliable) (present : 0 < torn) (short : torn < kind.itemLen) (split : front.length + zeros = size)
    (long : kind.itemLen + 1 ≤ size + torn) (shape : front = [] ∨ ∃ earlier, front = earlier ++ kind.line {})
    (small : 0 ≤ toCInt (size + torn - (kind.itemLen + 1)))
    (passes : seenPos (List.replicate (min zeros (kind.itemLen + 1 - torn)) 48 ++ kind.digits (counting count)) = 0) :
    ∃ parsed, kind.scan (front ++ List.replicate zeros 48 ++ kind.line (counting count) ++ List.replicate torn 48)
        (fuel + 1) 2 queue os = (.found 2, parsed, os.tick) ∧
      kind.count parsed = UInt64.ofNat (valueFrom 0 (countText
        (List.replicate (min zeros (kind.itemLen + 1 - torn)) 48 ++ kind.digits (counting count)))) := by
  have token : ∀ amount, Digits (List.replicate amount 48 ++ kind.digits (counting count)) := fun amount =>
    digits_append_iff.mpr ⟨digits_replicate amount, kind.digits_digits _⟩
  have whole : ∀ amount, kind.itemLen ≤ (List.replicate amount 48 ++ kind.digits (counting count)).length :=
    fun amount => by rw [length_append, digits_length]; exact Nat.le_add_left _ _
  have line : ∀ amount, List.replicate amount 48 ++ (kind.line (counting count) ++ List.replicate torn 48) =
      List.replicate amount 48 ++ kind.digits (counting count) ++ 10 :: List.replicate torn 48 := fun amount => by
    rw [line_eq, append_assoc, append_assoc, singleton_append]
  refine ⟨kind.filled queue (List.replicate (min zeros (kind.itemLen + 1 - torn)) 48 ++
    kind.digits (counting count)), ?_, kind.filled_count queue⟩
  by_cases many : kind.itemLen + 1 - torn ≤ zeros
  · rw [Nat.min_eq_right many] at passes ⊢
    have cut : front ++ List.replicate zeros 48 ++ kind.line (counting count) ++ List.replicate torn 48 =
        (front ++ List.replicate (zeros - (kind.itemLen + 1 - torn)) 48) ++
          (List.replicate (kind.itemLen + 1 - torn) 48 ++ (kind.line (counting count) ++ List.replicate torn 48)) := by
      have zerosEq : (List.replicate zeros 48 : List UInt8) =
          List.replicate (zeros - (kind.itemLen + 1 - torn)) 48 ++ List.replicate (kind.itemLen + 1 - torn) 48 := by
        rw [← replicate_add, Nat.sub_add_cancel many]
      rw [zerosEq]
      simp only [append_assoc]
    have length : (List.replicate (kind.itemLen + 1 - torn) 48 ++
        (kind.line (counting count) ++ List.replicate torn 48)).length = 2 * (kind.itemLen + 1) := by
      simp only [length_append, length_replicate, line_length]
      omega
    rw [cut]
    refine scan_accept fuel reliable (by omega) ?_ ?_
    · rw [reaches_tail length, length_append, length_replicate,
        show front.length + (zeros - (kind.itemLen + 1 - torn)) = size + torn - (kind.itemLen + 1) by omega]
      exact small
    · rw [window_tail (le_refl 2) length, line, parse_hit (token _) (whole _) (by rw [passes]; exact Nat.zero_le _)]
  · rw [Nat.min_eq_left (by omega)] at passes ⊢
    obtain ⟨earlier, rfl⟩ : ∃ earlier, front = earlier ++ kind.line {} := by
      rcases shape with rfl | found
      · simp only [length_nil] at split
        omega
      · exact found
    rw [length_append, line_length] at split
    have cut : earlier ++ kind.line {} ++ List.replicate zeros 48 ++ kind.line (counting count) ++
          List.replicate torn 48 =
        (earlier ++ (kind.line {}).take (torn + zeros)) ++ ((kind.line {}).drop (torn + zeros) ++
          (List.replicate zeros 48 ++ (kind.line (counting count) ++ List.replicate torn 48))) := by
      rw [← append_assoc (_ ++ _) ((kind.line {}).drop _), append_assoc earlier ((kind.line {}).take _),
        take_append_drop]
      simp only [append_assoc]
    have length : ((kind.line {}).drop (torn + zeros) ++ (List.replicate zeros 48 ++
        (kind.line (counting count) ++ List.replicate torn 48))).length = 2 * (kind.itemLen + 1) := by
      simp only [length_append, length_replicate, length_drop, line_length]
      omega
    rw [cut]
    refine scan_accept fuel reliable (by omega) ?_ ?_
    · rw [reaches_tail length, length_append, length_take, line_length, Nat.min_eq_left (by omega),
        show earlier.length + (torn + zeros) = size + torn - (kind.itemLen + 1) by omega]
      exact small
    · rw [window_tail (le_refl 2) length, line_drop kind _ (by omega), append_assoc, singleton_append,
        parse_pass (digits_drop (kind.digits_digits _) _) (by rw [length_drop, digits_length]; omega), line,
        parse_hit (token _) (whole _) (by rw [passes]; exact Nat.zero_le _)]

def telling (kind : TagKind) (before after : List Nat) (count : UInt64) : List UInt8 :=
  kind.text (blanks before) ++ kind.line (counting count) ++ kind.text (blanks after)

theorem scan_unrecoverable {before after : List Nat} (beforeCuts : ∀ cut ∈ before, cut ≤ kind.itemLen + 1)
    (afterCuts : ∀ cut ∈ after, cut < kind.itemLen + 1) (layout : ¬ kind.Recoverable before after) :
    ∃ count own, ∀ fuel (os : Os), os.Reliable → ∃ result next final,
      kind.scan (kind.telling before after count) (fuel + 2) 1 (reader 3 own) os = (result, next, final) ∧
        result ≠ .readError ∧ kind.count next ≠ count := by
  obtain ⟨front, split, shape⟩ := blanks_split beforeCuts
  have size : (kind.text (blanks before)).length = before.sum := by
    rw [text_length, blanks_cut]
    intro append member
    obtain ⟨cut, listed, rfl⟩ := mem_map.mp member
    exact beforeCuts cut listed
  have other : ∀ own : UInt64, kind.count (reader 3 (own + 1)) ≠ own := fun own => by
    rw [reader_count]
    exact next_ne own
  have length : ∀ count, (kind.telling before after count).length = before.sum + (kind.itemLen + 1) + after.sum := by
    intro count
    rw [telling, blanks_torn afterCuts, length_append, length_append, size, line_length,
      length_replicate]
  by_cases first : 0 ≤ toCInt (before.sum + after.sum)
  · have present : 0 < after.sum := by
      by_contra none
      have zero : after.sum = 0 := by omega
      exact layout (Or.inl ⟨zero, by rw [zero] at first; exact first⟩)
    by_cases long : kind.itemLen ≤ after.sum
    · refine ⟨1, 0, fun fuel os reliable => ?_⟩
      obtain ⟨parsed, run, zero⟩ := @scan_overlong kind (reader 3 0) os (kind.text (blanks before)) (counting 1)
        after.sum (fuel + 1) reliable long (by rw [size]; exact first)
      rw [telling, blanks_torn afterCuts]
      exact ⟨_, parsed, _, run, by simp, by rw [zero]; decide⟩
    have short : after.sum < kind.itemLen := by omega
    have passed : ∀ count own fuel (os : Os), os.Reliable →
        kind.scan (kind.telling before after count) (fuel + 2) 1 (reader 3 own) os =
          kind.scan (kind.telling before after count) (fuel + 1) 2 (reader 3 own) os.tick := by
      intro count own fuel os reliable
      rw [telling, blanks_torn afterCuts]
      exact scan_torn (fuel + 1) reliable (digits_replicate _) (by rw [length_replicate]; exact present)
        (by rw [length_replicate]; exact short) (by rw [size, length_replicate]; exact first)
    by_cases second : kind.itemLen + 1 ≤ before.sum + after.sum ∧
        0 ≤ toCInt (before.sum + after.sum - (kind.itemLen + 1))
    · have torn : 0 < tornRun (kind.itemLen + 1) before := by
        by_contra none
        exact layout (Or.inr ⟨present, short, by omega, by omega, first, second.2⟩)
      obtain ⟨count, passes, misses⟩ := kind.misread
        (show 0 < min (tornRun (kind.itemLen + 1) before) (kind.itemLen + 1 - after.sum) by omega)
      refine ⟨count, 0, fun fuel os reliable => ?_⟩
      rw [passed count 0 fuel os reliable, telling, blanks_torn afterCuts, split]
      rw [split, length_append, length_replicate] at size
      obtain ⟨parsed, run, counted⟩ := @scan_shifted kind (reader 3 0) os.tick count after.sum _ before.sum front
        fuel reliable present short size second.1 shape second.2 passes
      exact ⟨_, parsed, _, run, by simp, by rw [counted]; exact misses⟩
    · -- The second turn does not get to its line.
      refine ⟨0, 0 + 1, fun fuel os reliable => ?_⟩
      rw [passed _ _ fuel os reliable]
      refine ⟨_, _, _, scan_stop fuel ?_, by simp, other 0⟩
      rw [Reaches, length, show before.sum + (kind.itemLen + 1) + after.sum - 2 * (kind.itemLen + 1) =
        before.sum + after.sum - (kind.itemLen + 1) by omega]
      rintro ⟨bound, positive⟩
      exact second ⟨by omega, positive⟩
  · -- The scan does not start.
    refine ⟨0, 0 + 1, fun fuel os reliable => ⟨_, _, _, scan_stop _ ?_, by simp, other 0⟩⟩
    rw [Reaches, length, show before.sum + (kind.itemLen + 1) + after.sum - 1 * (kind.itemLen + 1) =
      before.sum + after.sum by omega]
    exact fun reaches => first reaches.2

end TagKind

/-- Read back to the last line exactly for a recoverable layout. -/
theorem torn_recovery (kind : TagKind) (before after : List Nat)
    (beforeCuts : ∀ cut ∈ before, cut ≤ kind.itemLen + 1) (afterCuts : ∀ cut ∈ after, cut < kind.itemLen + 1) :
    (∀ (older newer : List TagKind.Append) (last queue : MqQueue) (os : Os),
      older.map TagKind.Append.cut = before → newer.map TagKind.Append.cut = after →
      (kind.position last).toNat ≤ maxDbFileSize → os.Reliable →
      os.tagContent (kind.fd queue) = kind.text older ++ kind.line last ++ kind.text newer →
      ∃ read final, kind.readItem queue os = (true, read, final) ∧ TagKind.Recovered after.sum kind read last) ↔
    kind.Recoverable before after := by
  constructor
  · intro recovers
    by_contra layout
    obtain ⟨count, own, misses⟩ := TagKind.scan_unrecoverable beforeCuts afterCuts layout
    have content := TagKind.onlyTag_content kind (kind.telling before after count) own
    obtain ⟨fuel, length⟩ : ∃ fuel, (kind.telling before after count).length + 1 = fuel + 2 := by
      refine ⟨(kind.telling before after count).length - 1, ?_⟩
      have positive : 0 < (kind.telling before after count).length := by
        rw [TagKind.telling, length_append, length_append, TagKind.line_length]
        omega
      omega
    obtain ⟨result, next, final, run, ended, other⟩ := misses fuel (TagKind.onlyTag kind _) (fun _ => rfl)
    rw [← length, ← content] at run
    obtain ⟨read, reads, same⟩ := TagKind.readItem_ended run ended
    obtain ⟨again, _, runs, recovered⟩ := recovers (TagKind.blanks before) (TagKind.blanks after)
      (TagKind.counting count) (TagKind.reader 3 own) _ (TagKind.blanks_cut before) (TagKind.blanks_cut after)
      (by cases kind <;> exact Nat.zero_le _) (fun _ => rfl) content
    cases reads.symm.trans runs
    have telling : kind.count (TagKind.counting count) = count := by cases kind <;> rfl
    exact other (same.symm.trans (recovered.count.trans telling))
  · rintro layout older newer last queue os rfl rfl inside reliable content
    exact TagKind.readItem_recovers reliable content
      (fun append member => beforeCuts _ (mem_map_of_mem member))
      (fun append member => afterCuts _ (mem_map_of_mem member)) inside layout

theorem torn_recovery_wtag : ∃ read final, mqSmWtagReadItem (TagKind.reader 3 0) (TagKind.onlyTag .wtag
        (wtagItem 6 141 9 ++ wtagItem 7 154 9 ++ (wtagItem 8 167 9).take 25)) = (true, read, final) ∧
      read.putNum = 7 ∧ read.maxque = 9 ∧ read.curWdb.pos = maxDbFilePos :=
  (torn_recovery .wtag [41] [25] (by decide) (by decide)).mpr
    (Or.inr ⟨by decide, by decide, by decide, by decide, by decide, by decide⟩)
    [⟨{ putNum := 6, curWdb := { pos := 141 }, maxque := 9 }, 41⟩]
    [⟨{ putNum := 8, curWdb := { pos := 167 }, maxque := 9 }, 25⟩]
    { putNum := 7, curWdb := { pos := 154 }, maxque := 9 } (TagKind.reader 3 0)
    (TagKind.onlyTag .wtag (wtagItem 6 141 9 ++ wtagItem 7 154 9 ++ (wtagItem 8 167 9).take 25))
    rfl rfl (by decide) (fun _ => rfl) (by decide)

theorem torn_recovery_fails : (mqSmRtagReadItem (TagKind.reader 3 0)
      (TagKind.onlyTag .rtag (rtagItem 7 128 ++ (rtagItem 8 141).take 10))).2.1.getNum = 0 ∧
    (mqSmRtagReadItem (TagKind.reader 3 0) (TagKind.onlyTag .rtag
      (rtagItem 28 128 ++ (rtagItem 29 141).take 1 ++ rtagItem 30 154 ++ (rtagItem 31 167).take 1))).2.1.getNum = 3 ∧
    (mqSmRtagReadItem (TagKind.reader 3 0) (TagKind.onlyTag .rtag
      (rtagItem 28 128 ++ (rtagItem 29 141).take 1 ++ rtagItem 30 154 ++ (rtagItem 31 167).take 1))).2.1.curRdb.pos =
        15 := by
  decide

end Libucmq
