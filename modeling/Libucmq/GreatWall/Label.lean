import Libucmq.Library.Outcome
import Libucmq.Library.CString

/-! The labels of greatWall, from `swift_vms_call` to `sniff_vms_call`. -/

namespace Libucmq.GreatWall

open List Decimal CString Outcome

open CString (tokens tokensFrom isDigit leadingValue)

inductive Fault
  | assertion
  | overflow
deriving DecidableEq, Repr

inductive Genus
  | realTime
  | nonRealTime
  | other
deriving DecidableEq, Repr

def maxSniffLabelLength : Nat := 64
def maxSniffFlowsLength : Nat := 6144 - maxSniffLabelLength
def maxLinkIndex : Nat := 32
def overlookDelayLimit : Int := 3

structure RouteMsg where
  label : List UInt8
  flows : List UInt8

structure DamsCfg where
  count : Nat
  fresh : Nat → Bool
  delay : Nat → Bool

structure Visits where
  visited : List Nat
  sent : List Nat
deriving DecidableEq, Repr

def swiftVmsCall (key value : List UInt8) : Except Fault RouteMsg :=
  if key.length < maxSniffLabelLength then
    let copied := key.take (min key.length (maxSniffLabelLength - 1))
    .ok ⟨copied ++ List.replicate (maxSniffLabelLength - copied.length) 0,
      value.take (min value.length maxSniffFlowsLength)⟩
  else .error .assertion

def isSpace (x : UInt8) : Bool := x = 32 || x = 9 || x = 10 || x = 12 || x = 8 || x = 13

def accumulate : Nat → List UInt8 → Except Fault Nat
  | total, [] => .ok total
  | total, c :: rest =>
    if isDigit c then
      let next := 10 * total + (c.toNat - 48)
      if next ≤ 2147483647 then accumulate next rest else .error .overflow
    else .ok total

/-- `x_atoi` from the first byte that is no blank on. -/
def signedAtoi : List UInt8 → Except Fault Int
  | [] => .ok 0
  | c :: rest =>
    if c = 45 ∨ c = 43 then
      if rest = [] then .ok 0
      else do
        let total ← accumulate 0 rest
        .ok (if c = 45 then -total else total)
    else do
      let total ← accumulate 0 (c :: rest)
      .ok total

def xAtoi (text : List UInt8) : Except Fault Int := signedAtoi (text.dropWhile isSpace)

/-- The loop of `sniff_vms_call`, with the text from `p` to the end of the label. -/
def visitFrom (count : Nat) (p : List UInt8) : Except Fault (List Nat) :=
  if p.dropWhile (· = 124) = [] then .ok []
  else do
    let i ← xAtoi (p.dropWhile (· = 124))
    if 0 ≤ i ∧ i < count ∧ i < maxLinkIndex then
      match _found : (p.dropWhile (· = 124)).dropWhile (· ≠ 124) with
      | [] => .ok [i.toNat]
      | _ :: after => do
        let later ← visitFrom count after
        .ok (i.toNat :: later)
    else .error .assertion
termination_by p.length
decreasing_by
  have first := (dropWhile_sublist (l := p) (· = 124)).length_le
  have second := (dropWhile_sublist (l := p.dropWhile (· = 124)) (· ≠ 124)).length_le
  simp only [_found, length_cons] at second
  omega

def sniffVmsCall (cfg : DamsCfg) (genus : Genus) (delay : Int) (msg : RouteMsg) : Except Fault (Int × Visits) :=
  let text := (msg.label.takeWhile (· ≠ 0)).take maxSniffLabelLength
  match genus with
  | .realTime =>
    if overlookDelayLimit ≤ delay then .ok (0, ⟨[], []⟩)
    else do
      let visited ← visitFrom cfg.count text
      .ok (0, ⟨visited, visited.filter cfg.fresh⟩)
  | .nonRealTime => do
    let visited ← visitFrom cfg.count text
    .ok (0, ⟨visited, visited.filter cfg.delay⟩)
  | .other => .ok (-1, ⟨[], []⟩)

def signed (rest : List UInt8) : Int :=
  if rest.head? = some 45 then -leadingValue rest.tail
  else if rest.head? = some 43 then leadingValue rest.tail
  else leadingValue rest

def number (segment : List UInt8) : Int := signed (segment.dropWhile isSpace)

def numbers (text : List UInt8) : List Int := (tokens 124 text).map number

theorem accumulate_eq (total : Nat) (bound : total ≤ 2147483647) (text : List UInt8) :
    accumulate total text = if valueFrom total (text.takeWhile isDigit) ≤ 2147483647
      then .ok (valueFrom total (text.takeWhile isDigit)) else .error .overflow := by
  induction text generalizing total with
  | nil => simp [accumulate, valueFrom, bound]
  | cons c rest ih =>
    by_cases digit : isDigit c = true
    · have grows := Decimal.le_valueFrom (10 * total + (c.toNat - 48)) (rest.takeWhile isDigit)
      have unfolded : valueFrom total ((c :: rest).takeWhile isDigit) =
          valueFrom (10 * total + (c.toNat - 48)) (rest.takeWhile isDigit) := by
        simp [digit, valueFrom, Nat.mul_comm]
      rw [accumulate, if_pos digit, unfolded]
      by_cases small : 10 * total + (c.toNat - 48) ≤ 2147483647
      · simp only [if_pos small, ih _ small]
      · simp only [if_neg small]
        rw [if_neg (by omega)]
    · simp [accumulate, digit, valueFrom, bound]

theorem signedAtoi_eq (rest : List UInt8) :
    signedAtoi rest = if (signed rest).natAbs ≤ 2147483647 then .ok (signed rest) else .error .overflow := by
  have whole (rest : List UInt8) (sign : Nat → Int) : (accumulate 0 rest >>= fun total => .ok (sign total)) =
      if leadingValue rest ≤ 2147483647 then .ok (sign (leadingValue rest)) else .error .overflow := by
    rw [accumulate_eq 0 (by omega), ← leadingValue]
    split <;> rfl
  have zero : leadingValue [] = 0 := rfl
  cases rest with
  | nil => simp [signedAtoi, signed, zero]
  | cons c rest =>
    by_cases minus : c = 45
    · subst minus
      by_cases empty : rest = []
      · simp [signedAtoi, signed, empty, zero]
      · simp [signedAtoi, signed, empty, whole rest (fun total => -(total : Int))]
    · by_cases plus : c = 43
      · subst plus
        by_cases empty : rest = []
        · simp [signedAtoi, signed, empty, zero]
        · simp [signedAtoi, signed, empty, whole rest (fun total => (total : Int))]
      · simp [signedAtoi, signed, minus, plus, whole (c :: rest) (fun total => (total : Int))]

theorem number_stop (segment after : List UInt8) : number (segment ++ 124 :: after) = number segment := by
  have stops : CString.Stops 124 := by decide
  simp only [number, signed, CString.dropWhile_append_stop (show isSpace 124 = false by decide)]
  cases segment.dropWhile isSpace with
  | nil =>
    have absent := leadingValue_stop stops [] after
    simp_all
  | cons c rest =>
    have whole := leadingValue_stop stops (c :: rest) after
    simp_all [leadingValue_stop stops]

theorem tokens_skip (p : List UInt8) : tokens 124 p = tokens 124 (p.dropWhile (· = 124)) := by
  induction p with
  | nil => rfl
  | cons char p ih =>
    by_cases pipe : char = 124
    · subst pipe
      rw [dropWhile_cons_of_pos (by decide), ← ih]
      rfl
    · rw [dropWhile_cons_of_neg (by simpa using pipe)]

theorem dropWhile_pipe {text after : List UInt8} {char : UInt8} (found : text.dropWhile (· ≠ 124) = char :: after) :
    char = 124 := by
  have stop := List.head?_dropWhile_not (· ≠ (124 : UInt8)) text
  rw [found] at stop
  simpa using stop

theorem tokens_cut {rest : List UInt8} (nonempty : rest ≠ []) (front : rest.head? ≠ some 124) (clear : 0 ∉ rest) :
    tokens 124 rest = rest.takeWhile (· ≠ 124) :: tokens 124 (rest.dropWhile (· ≠ 124)).tail := by
  have parts := takeWhile_append_dropWhile (p := (· ≠ (124 : UInt8))) (l := rest)
  have run : ∀ char ∈ rest.takeWhile (· ≠ 124), char ≠ 0 ∧ char ≠ 124 := by
    intro char member
    refine ⟨?_, by simpa using mem_takeWhile_imp member⟩
    rintro rfl
    exact clear ((takeWhile_sublist _).mem member)
  have segment : rest.takeWhile (· ≠ 124) ≠ [] := by
    cases rest with
    | nil => exact absurd rfl nonempty
    | cons char rest =>
      rw [takeWhile_cons_of_pos (by simpa using front)]
      exact cons_ne_nil _ _
  have split := @CString.tokensFrom_run 124 _ [] (rest.dropWhile (· ≠ 124)) run
  rw [parts, nil_append] at split
  rw [tokens, split]
  cases found : rest.dropWhile (· ≠ 124) with
  | nil =>
    rw [tokensFrom, if_neg segment]
    rfl
  | cons char after =>
    have pipe := dropWhile_pipe found
    rw [tokensFrom, if_neg (by rw [pipe]; decide), if_pos pipe, if_neg segment]
    rfl

theorem numbers_eq {p : List UInt8} (clear : 0 ∉ p) :
    numbers p = if p.dropWhile (· = 124) = [] then []
      else number (p.dropWhile (· = 124)) :: numbers ((p.dropWhile (· = 124)).dropWhile (· ≠ 124)).tail := by
  rw [numbers, tokens_skip]
  by_cases empty : p.dropWhile (· = 124) = []
  · rw [if_pos empty, empty]
    rfl
  · have front : (p.dropWhile (· = 124)).head? ≠ some 124 := by
      intro pipe
      have stop := List.head?_dropWhile_not (· = (124 : UInt8)) p
      rw [pipe] at stop
      simp at stop
    have inside : 0 ∉ p.dropWhile (· = 124) := fun member => clear ((dropWhile_sublist _).mem member)
    rw [if_neg empty, tokens_cut empty front inside, map_cons, numbers]
    congr 1
    have parts := takeWhile_append_dropWhile (p := (· ≠ (124 : UInt8))) (l := p.dropWhile (· = 124))
    conv_rhs => rw [← parts]
    cases found : (p.dropWhile (· = 124)).dropWhile (· ≠ 124) with
    | nil => rw [append_nil]
    | cons char after =>
      obtain rfl := dropWhile_pipe found
      rw [number_stop]

def Linked (count : Nat) (number : Int) : Prop := 0 ≤ number ∧ number < count ∧ number < maxLinkIndex

instance (count : Nat) (number : Int) : Decidable (Linked count number) := inferInstanceAs (Decidable (_ ∧ _ ∧ _))

theorem visitFrom_ok_iff {count : Nat} {p : List UInt8} (clear : 0 ∉ p) {visited : List Nat} :
    visitFrom count p = .ok visited ↔
      (∀ number ∈ numbers p, Linked count number) ∧ visited = (numbers p).map Int.toNat := by
  induction size : p.length using Nat.strong_induction_on generalizing p visited with
  | _ size ih =>
    rw [visitFrom, numbers_eq clear]
    by_cases empty : p.dropWhile (· = 124) = []
    · simp [empty, eq_comm]
    · rw [if_neg empty, if_neg empty, xAtoi, signedAtoi_eq, ← number]
      by_cases linked : Linked count (number (p.dropWhile (· = 124)))
      · have cond := linked
        simp only [Linked] at cond
        have small : (number (p.dropWhile (· = 124))).natAbs ≤ 2147483647 := by
          have := cond.2.2
          simp only [maxLinkIndex] at this
          omega
        rw [if_pos small, ok_bind, if_pos cond]
        have shorter : ((p.dropWhile (· = 124)).dropWhile (· ≠ 124)).Sublist p :=
          (dropWhile_sublist _).trans (dropWhile_sublist _)
        split
        · next found =>
            have absent : numbers [] = [] := rfl
            simp only [found, tail_nil, absent, forall_mem_singleton, linked, true_and, Except.ok.injEq,
              map_cons, map_nil, eq_comm]
        · next char after found =>
            rw [found] at shorter
            have bound := shorter.length_le
            rw [length_cons] at bound
            have later := fun visited => @ih after.length (by omega) after
              (fun member => clear (shorter.mem (mem_cons_of_mem _ member))) visited rfl
            simp only [bind_ok_iff, later, found, tail_cons, forall_mem_cons, linked, true_and]
            grind
      · have stops : ¬ ∀ value ∈ number (p.dropWhile (· = 124)) ::
            numbers ((p.dropWhile (· = 124)).dropWhile (· ≠ 124)).tail, Linked count value :=
          fun all => linked (all _ mem_cons_self)
        simp only [stops, false_and, iff_false]
        split
        · simp only [Linked] at linked
          rw [ok_bind, if_neg linked]
          simp
        · simp [bind, Except.bind]

/-- The task that `swift_vms_call` makes of a request, in `sniff_vms_call`. -/
def deliver (cfg : DamsCfg) (genus : Genus) (delay : Int) (key value : List UInt8) : Except Fault (Int × Visits) := do
  let msg ← swiftVmsCall key value
  sniffVmsCall cfg genus delay msg

def tableOf (cfg : DamsCfg) : Genus → Nat → Bool
  | .realTime => cfg.fresh
  | _ => cfg.delay

theorem swiftVmsCall_label {key value : List UInt8} (short : key.length < maxSniffLabelLength) :
    ∃ msg, swiftVmsCall key value = .ok msg ∧
      (msg.label.takeWhile (· ≠ 0)).take maxSniffLabelLength = key.takeWhile (· ≠ 0) := by
  refine ⟨_, if_pos short, ?_⟩
  simp only [maxSniffLabelLength] at short ⊢
  have copied : key.take (min key.length (64 - 1)) = key := take_of_length_le (by omega)
  obtain ⟨count, pad⟩ : ∃ count, List.replicate (64 - key.length) (0 : UInt8) = 0 :: List.replicate count 0 :=
    ⟨64 - key.length - 1, by rw [← replicate_succ]; congr 1; omega⟩
  simp only [copied, pad]
  rw [takeWhile_append_stop (by decide)]
  have := (takeWhile_sublist (l := key) (· ≠ 0)).length_le
  exact take_of_length_le (by omega)

theorem parsed_visits_iff {cfg : DamsCfg} {genus : Genus} {delay : Int} {key value : List UInt8}
    (parsed : genus = .nonRealTime ∨ genus = .realTime ∧ delay < overlookDelayLimit) :
    (∃ visited, deliver cfg genus delay key value = .ok (0, ⟨visited, visited.filter (tableOf cfg genus)⟩) ∧
      visited.map Int.ofNat = numbers (key.takeWhile (· ≠ 0))) ↔
    key.length < maxSniffLabelLength ∧ ∀ number ∈ numbers (key.takeWhile (· ≠ 0)), Linked cfg.count number := by
  have clear : 0 ∉ key.takeWhile (· ≠ 0) := fun member => by simpa using mem_takeWhile_imp member
  by_cases short : key.length < maxSniffLabelLength
  · obtain ⟨msg, made, text⟩ := @swiftVmsCall_label key value short
    have run : deliver cfg genus delay key value =
        (visitFrom cfg.count (key.takeWhile (· ≠ 0)) >>= fun visited =>
          .ok (0, ⟨visited, visited.filter (tableOf cfg genus)⟩)) := by
      rcases parsed with rfl | ⟨rfl, early⟩
      · simp only [deliver, made, ok_bind, sniffVmsCall, text, tableOf]
      · simp only [deliver, made, ok_bind, sniffVmsCall, text, tableOf, if_neg (Int.not_le.mpr early)]
    rw [run]
    simp only [short, true_and, bind_ok_iff, visitFrom_ok_iff clear]
    constructor
    · rintro ⟨_, ⟨_, ⟨linked, -⟩, -⟩, -⟩
      exact linked
    · intro linked
      refine ⟨_, ⟨_, ⟨linked, rfl⟩, rfl⟩, ?_⟩
      rw [map_map]
      conv_rhs => rw [← map_id (numbers _)]
      exact map_congr_left fun number member => Int.toNat_of_nonneg (linked number member).1
  · simp [deliver, swiftVmsCall, short, bind, Except.bind]

/-- A label that is parsed is visited to its end exactly if it is short and its numbers are linked; one that is overlooked
is still refused by its length. -/
theorem deliver_visits_iff (cfg : DamsCfg) (genus : Genus) (delay : Int) (key value : List UInt8) :
    (genus = .nonRealTime ∨ genus = .realTime ∧ delay < overlookDelayLimit →
      ((∃ visited, deliver cfg genus delay key value = .ok (0, ⟨visited, visited.filter (tableOf cfg genus)⟩) ∧
        visited.map Int.ofNat = numbers (key.takeWhile (· ≠ 0))) ↔
      key.length < maxSniffLabelLength ∧ ∀ number ∈ numbers (key.takeWhile (· ≠ 0)), Linked cfg.count number)) ∧
    (¬ (genus = .nonRealTime ∨ genus = .realTime ∧ delay < overlookDelayLimit) →
      ((∃ result, deliver cfg genus delay key value = .ok result) ↔ key.length < maxSniffLabelLength)) := by
  refine ⟨fun parsed => ?_, fun overlooked => ?_⟩
  · exact parsed_visits_iff parsed
  · by_cases short : key.length < maxSniffLabelLength
    · refine iff_of_true ?_ short
      obtain ⟨msg, made, -⟩ := @swiftVmsCall_label key value short
      simp only [deliver, made, ok_bind]
      cases genus with
      | nonRealTime => exact absurd (.inl rfl) overlooked
      | realTime =>
          have late : overlookDelayLimit ≤ delay := Int.not_lt.mp fun early => overlooked (.inr ⟨rfl, early⟩)
          exact ⟨_, if_pos late⟩
      | other => exact ⟨_, rfl⟩
    · simp [deliver, swiftVmsCall, short, bind, Except.bind]

def sampleCfg : DamsCfg := ⟨2, fun _ => true, fun _ => true⟩

theorem deliver_visits_two : ∃ visited,
    deliver sampleCfg .nonRealTime 0 [48, 124, 49] [] =
      .ok (0, ⟨visited, visited.filter (tableOf sampleCfg .nonRealTime)⟩) ∧
      visited.map Int.ofNat = numbers ([48, 124, 49].takeWhile (· ≠ 0)) :=
  ((deliver_visits_iff sampleCfg .nonRealTime 0 [48, 124, 49] []).1 (.inl rfl)).mpr ⟨by decide, by decide⟩

theorem deliver_visits_aborts : deliver sampleCfg .nonRealTime 0 (List.replicate 64 48) [] = .error .assertion ∧
      deliver sampleCfg .nonRealTime 0 [50] [] = .error .assertion := by
  refine ⟨rfl, ?_⟩
  have label : visitFrom 2 [50] = .error .assertion := by
    rw [visitFrom]
    rfl
  exact congrArg (· >>= fun visited => Except.ok ((0 : Int), Visits.mk visited (visited.filter sampleCfg.delay))) label

end Libucmq.GreatWall
