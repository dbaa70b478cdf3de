import Libucmq.Library.Machine
import Libucmq.Supex.Task

/-! The task queue of a parter thread: a ring and a store behind it. -/

namespace Libucmq.Supex

open List Machine

variable {τ : Type}

structure SniffTask (τ : Type) where
  task : τ
  shift : UInt32

inductive Mark
  | queue | ucmq
deriving DecidableEq, Repr

/-- The store is a FIFO queue that never fails; `temp` does not outlive a call. -/
structure Parter (τ : Type) where
  tlist : SupexTaskList (SniffTask τ)
  store : List (SniffTask τ) := []
  thave : Int := 0
  markReport : Mark := .queue
  shiftReport : UInt32 := 0
  markLookup : Mark := .queue
  shiftLookup : UInt32 := 0
  stepLookup : Nat := 0
  swap : SupexTaskList (SniffTask τ)

/-- A ring of `max` slots; `MAX_SNIFF_TEMP_QUEUE_NUMBER` is 2. -/
def freshParter (zero : SniffTask τ) (max : Nat) (positive : 0 < max) : Parter τ where
  tlist := supexTaskInit zero max positive
  swap := supexTaskInit zero 2 Nat.two_pos

def intWrap (value : Int) : Int := value.bmod 4294967296

def nextShift (parter : Parter τ) (mark : Mark) : UInt32 :=
  if parter.markReport = mark then parter.shiftReport else parter.shiftReport + 1

def sniffTaskReport (parter : Parter τ) (task : τ) : Parter τ :=
  match supexTaskPush parter.tlist ⟨task, nextShift parter .queue⟩ with
  | (true, tlist) =>
    { parter with
      tlist := tlist
      markReport := .queue
      shiftReport := nextShift parter .queue
      thave := intWrap (parter.thave + 1) }
  | (false, _) =>
    { parter with
      store := parter.store ++ [⟨task, nextShift parter .ucmq⟩]
      markReport := .ucmq
      shiftReport := nextShift parter .ucmq
      thave := intWrap (parter.thave + 1) }

inductive Found (τ : Type)
  | nothing
  | own (task : τ)
  | shared (task : τ)

def mqStoreGet (parter : Parter τ) : Option (SniffTask τ) × Parter τ :=
  (parter.store.head?, { parter with store := parter.store.tail })

def pullMedium (parter : Parter τ) : Option (SniffTask τ) × Parter τ :=
  match parter.markLookup with
  | .queue => ((supexTaskPull parter.tlist).1, { parter with tlist := (supexTaskPull parter.tlist).2 })
  | .ucmq => mqStoreGet parter

def Mark.other : Mark → Mark
  | .queue => .ucmq
  | .ucmq => .queue

def countedOut (parter : Parter τ) : Option (SniffTask τ) → Found τ × Parter τ
  | some task => (.own task.task, { parter with thave := intWrap (parter.thave - 1) })
  | none => (.nothing, parter)

def refill (swap : SupexTaskList (SniffTask τ)) : Option (SniffTask τ) → SupexTaskList (SniffTask τ)
  | some task => (supexTaskPush swap task).2
  | none => swap

def changeOver (parter : Parter τ) (early : Option (SniffTask τ)) : Found τ × Parter τ :=
  let (swapped, swap) := supexTaskPull parter.swap
  let (found, parter) := countedOut parter swapped
  (found, { parter with
    swap := refill swap early
    shiftLookup := parter.shiftLookup + 1
    markLookup := parter.markLookup.other })

def lookupNew (parter : Parter τ) : Found τ × Parter τ :=
  match pullMedium parter with
  | (some task, pulled) =>
    if task.shift = parter.shiftLookup then countedOut pulled (some task) else changeOver pulled (some task)
  | (none, pulled) => changeOver pulled none

def sniffTaskLookup (parter : Parter τ) (given : Option τ) : Found τ × Parter τ :=
  if parter.thave ≤ 0 ∧ parter.stepLookup = 2 then
    (match given with
      | some task => .shared task
      | none => .nothing, parter)
  else
    match parter.stepLookup with
    | 0 =>
      match supexTaskPull parter.tlist with
      | (some task, tlist) =>
        (.own task.task, { parter with tlist := tlist, thave := intWrap (parter.thave - 1), stepLookup := 1 })
      | (none, _) => (.nothing, parter)
    | 1 =>
      match mqStoreGet parter with
      | (some task, got) =>
        if task.shift = 1 then
          (.own task.task, { got with swap := (supexTaskPush got.swap task).2, stepLookup := 2 })
        else (.own task.task, got)
      | (none, got) => (.nothing, { got with stepLookup := 2 })
    | 2 => lookupNew parter
    | _ => (.nothing, parter)

inductive SniffCall (τ : Type)
  | report (task : τ)
  | lookup (given : Option τ)

def sniffStep (parter : Parter τ) : SniffCall τ → Except Empty (Parter τ × Found τ)
  | .report task => .ok (sniffTaskReport parter task, .nothing)
  | .lookup given => .ok ((sniffTaskLookup parter given).2, (sniffTaskLookup parter given).1)

def reported : List (SniffCall τ) → List τ :=
  List.filterMap fun call => match call with
    | .report task => some task
    | .lookup _ => none

def returned : List (Found τ) → List τ :=
  List.filterMap fun found => match found with
    | .own task => some task
    | _ => none

def Shifts (last : Nat) : Nat → List (Nat × τ) → Prop
  | first, [] => first = last
  | first, entry :: rest => (entry.1 = first ∨ entry.1 = first + 1) ∧ Shifts last entry.1 rest

def alike (shift : Nat) (waiting : List (Nat × τ)) : List (Nat × τ) :=
  waiting.filter fun entry => entry.1 % 2 = shift % 2

def markOf (shift : Nat) : Mark := if shift % 2 = 0 then .queue else .ucmq

def nodeOf (entry : Nat × τ) : SniffTask τ := ⟨entry.2, UInt32.ofNat entry.1⟩

section

variable {last first : Nat} {waiting rest : List (Nat × τ)} {entry : Nat × τ}

theorem Shifts.concat (shifts : Shifts last first waiting) (next : entry.1 = last ∨ entry.1 = last + 1) :
    Shifts entry.1 first (waiting ++ [entry]) := by
  induction waiting generalizing first with
  | nil =>
    obtain rfl : first = last := shifts
    exact ⟨next, rfl⟩
  | cons head waiting ih => exact ⟨shifts.1, ih shifts.2⟩

theorem alike_cons (shift : Nat) : alike shift (entry :: waiting) =
    if entry.1 % 2 = shift % 2 then entry :: alike shift waiting else alike shift waiting := by
  simp [alike, filter_cons]

theorem alike_concat (shift : Nat) : alike shift (waiting ++ [entry]) =
    alike shift waiting ++ if entry.1 % 2 = shift % 2 then [entry] else [] := by
  simp [alike, filter_append, filter_cons]

theorem alike_add_two (shift : Nat) (waiting : List (Nat × τ)) : alike (shift + 2) waiting = alike shift waiting := by
  simp [alike]

section

variable (shifts : Shifts last first waiting)

include shifts

theorem Shifts.next_shift (found : alike (first + 1) waiting = entry :: rest) : entry.1 = first + 1 := by
  induction waiting generalizing first with
  | nil => simp [alike] at found
  | cons head waiting ih =>
    rw [alike_cons] at found
    rcases shifts.1 with same | next
    · rw [if_neg (by omega)] at found
      have later := shifts.2
      rw [same] at later
      exact ih later found
    · rw [if_pos (by omega), List.cons.injEq] at found
      rw [← found.1, next]

theorem Shifts.first_alike (found : alike first waiting = entry :: rest) :
    (entry.1 = first ∧ ∃ later, waiting = entry :: later) ∨
      entry.1 = first + 2 ∧ ∃ head later, waiting = head :: later ∧ head.1 = first + 1 := by
  cases waiting with
  | nil => simp [alike] at found
  | cons head waiting =>
    rw [alike_cons] at found
    rcases shifts.1 with same | next
    · rw [if_pos (by rw [same]), List.cons.injEq] at found
      obtain ⟨rfl, -⟩ := found
      exact .inl ⟨same, waiting, rfl⟩
    · rw [if_neg (by omega), ← alike_add_two] at found
      have later := shifts.2
      rw [next] at later
      exact .inr ⟨later.next_shift found, head, waiting, rfl, next⟩

theorem Shifts.none_alike (nothing : alike first waiting = []) (nonempty : waiting ≠ []) :
    ∃ head later, waiting = head :: later ∧ head.1 = first + 1 := by
  cases waiting with
  | nil => exact absurd rfl nonempty
  | cons head waiting =>
    refine ⟨head, waiting, rfl, shifts.1.resolve_left fun same => ?_⟩
    rw [alike_cons, if_pos (by rw [same])] at nothing
    simp at nothing

end

end

def Parter.stored (parter : Parter τ) : Mark → List (SniffTask τ)
  | .queue => parter.tlist.contents
  | .ucmq => parter.store

/-- The tasks waiting are where the lookups expect them; `out` is pulled. -/
structure Holds (parter : Parter τ) (out : List (SniffTask τ)) (first last : Nat) (waiting : List (Nat × τ)) :
    Prop where
  shifts : Shifts last first waiting
  here : out ++ parter.stored (markOf first) = (alike first waiting).map nodeOf
  there : parter.swap.contents ++ parter.stored (markOf (first + 1)) = (alike (first + 1) waiting).map nodeOf
  markLookup : parter.markLookup = markOf first
  shiftLookup : parter.shiftLookup = UInt32.ofNat first
  markReport : parter.markReport = markOf last
  shiftReport : parter.shiftReport = UInt32.ofNat last
  swapMax : parter.swap.max = 2
  thave : parter.thave = intWrap waiting.length

@[simp] theorem intWrap_add (value change : Int) : intWrap (intWrap value + change) = intWrap (value + change) := by
  simp [intWrap]

@[simp] theorem intWrap_sub (value change : Int) : intWrap (intWrap value - change) = intWrap (value - change) := by
  simp [intWrap]

theorem markOf_eq_iff (left right : Nat) : markOf left = markOf right ↔ left % 2 = right % 2 := by
  simp only [markOf]
  split <;> split <;> simp <;> omega

@[simp] theorem markOf_succ (shift : Nat) : markOf (shift + 1) = (markOf shift).other := by
  simp only [markOf]
  split <;> split <;> first | rfl | omega

@[simp] theorem Mark.other_other (mark : Mark) : mark.other.other = mark := by cases mark <;> rfl

variable {parter : Parter τ}

theorem nextShift_eq {last : Nat} (markReport : parter.markReport = markOf last)
    (shiftReport : parter.shiftReport = UInt32.ofNat last) (mark : Mark) :
    ∃ shift, (shift = last ∨ shift = last + 1) ∧ markOf shift = mark ∧ nextShift parter mark = UInt32.ofNat shift := by
  by_cases same : markOf last = mark
  · exact ⟨last, .inl rfl, same, by rw [nextShift, markReport, if_pos same, shiftReport]⟩
  · refine ⟨last + 1, .inr rfl, ?_, ?_⟩
    · rw [markOf_succ]
      cases mark <;> cases markEq : markOf last <;> simp_all [Mark.other]
    · rw [nextShift, markReport, if_neg same, shiftReport]
      simp [UInt32.ofNat_add]

theorem sniffTaskReport_spec {last : Nat} (markReport : parter.markReport = markOf last)
    (shiftReport : parter.shiftReport = UInt32.ofNat last) (task : τ) :
    ∃ shift tlist store, (shift = last ∨ shift = last + 1) ∧ tlist.max = parter.tlist.max ∧
      sniffTaskReport parter task = { parter with
        tlist := tlist
        store := store
        markReport := markOf shift
        shiftReport := UInt32.ofNat shift
        thave := intWrap (parter.thave + 1) } ∧
      (∀ mark, (sniffTaskReport parter task).stored mark =
        parter.stored mark ++ if mark = markOf shift then [nodeOf (shift, task)] else []) ∧
      (parter.tlist.contents.length + 1 < parter.tlist.max → markOf shift = .queue) := by
  by_cases room : parter.tlist.contents.length + 1 < parter.tlist.max
  · obtain ⟨shift, near, mark, shiftEq⟩ := nextShift_eq markReport shiftReport .queue
    obtain ⟨tlist, pushEq, contents, size⟩ := SupexTaskList.push_room room (SniffTask.mk task (nextShift parter .queue))
    have result : sniffTaskReport parter task = { parter with
        tlist := tlist
        markReport := markOf shift
        shiftReport := UInt32.ofNat shift
        thave := intWrap (parter.thave + 1) } := by
      rw [sniffTaskReport, pushEq, mark, ← shiftEq]
    refine ⟨shift, tlist, parter.store, near, size, result, fun other => ?_, fun _ => mark⟩
    rw [result, mark]
    cases other with
    | queue => simp [Parter.stored, contents, nodeOf, shiftEq]
    | ucmq => simp [Parter.stored]
  · obtain ⟨shift, near, mark, shiftEq⟩ := nextShift_eq markReport shiftReport .ucmq
    have result : sniffTaskReport parter task = { parter with
        store := parter.store ++ [⟨task, nextShift parter .ucmq⟩]
        markReport := markOf shift
        shiftReport := UInt32.ofNat shift
        thave := intWrap (parter.thave + 1) } := by
      rw [sniffTaskReport, SupexTaskList.push_full room, mark, ← shiftEq]
    refine ⟨shift, parter.tlist, _, near, rfl, result, fun other => ?_, fun free => absurd free room⟩
    rw [result, mark]
    cases other with
    | queue => simp [Parter.stored]
    | ucmq => simp [Parter.stored, nodeOf, shiftEq]

section

variable {parter : Parter τ} {out : List (SniffTask τ)} {first last : Nat} {waiting : List (Nat × τ)}

theorem Holds.report (holds : Holds parter [] first last waiting) (task : τ) :
    ∃ shift, Holds (sniffTaskReport parter task) [] first shift (waiting ++ [(shift, task)]) ∧
      (sniffTaskReport parter task).tlist.max = parter.tlist.max ∧ (sniffTaskReport parter task).swap = parter.swap ∧
      (sniffTaskReport parter task).stepLookup = parter.stepLookup ∧ (shift = last ∨ shift = last + 1) ∧
      (parter.tlist.contents.length + 1 < parter.tlist.max → shift % 2 = 0) := by
  obtain ⟨shift, tlist, store, near, size, result, stored, even⟩ :=
    sniffTaskReport_spec holds.markReport holds.shiftReport task
  have added (mark : Nat) : (if markOf mark = markOf shift then [nodeOf (shift, task)] else []) =
      (if shift % 2 = mark % 2 then [(shift, task)] else []).map nodeOf := by
    by_cases same : shift % 2 = mark % 2
    · rw [if_pos same, if_pos ((markOf_eq_iff mark shift).mpr same.symm)]
      rfl
    · rw [if_neg same, if_neg fun equal => same ((markOf_eq_iff mark shift).mp equal).symm]
      rfl
  refine ⟨shift, ?_, by rw [result]; exact size, by rw [result], by rw [result], near, fun room => ?_⟩
  · constructor
    · exact @Shifts.concat _ _ _ _ (shift, task) holds.shifts near
    · rw [stored, alike_concat, map_append, ← holds.here, added, append_assoc]
    · rw [stored, alike_concat, map_append, ← holds.there, added, ← append_assoc, result]
    · rw [result]
      exact holds.markLookup
    · rw [result]
      exact holds.shiftLookup
    · rw [result]
    · rw [result]
    · rw [result]
      exact holds.swapMax
    · rw [result]
      simp [holds.thave]
  · by_contra odd
    have mark := even room
    simp [markOf, odd] at mark

theorem pullMedium_queue (mark : parter.markLookup = .queue) :
    pullMedium parter = ((supexTaskPull parter.tlist).1, { parter with tlist := (supexTaskPull parter.tlist).2 }) := by
  unfold pullMedium
  split
  · rfl
  · simp_all

theorem pullMedium_ucmq (mark : parter.markLookup = .ucmq) : pullMedium parter = mqStoreGet parter := by
  unfold pullMedium
  split
  · simp_all
  · rfl

theorem pullMedium_head (parter : Parter τ) : (pullMedium parter).1 = (parter.stored parter.markLookup).head? := by
  cases mark : parter.markLookup with
  | queue =>
    rw [pullMedium_queue mark, Parter.stored]
    cases contents : parter.tlist.contents with
    | nil => rw [SupexTaskList.pull_empty contents]; rfl
    | cons task rest =>
      obtain ⟨next, pullEq, -⟩ := SupexTaskList.pull_first contents
      rw [pullEq]
      rfl
  | ucmq =>
    rw [pullMedium_ucmq mark]
    rfl

theorem pullMedium_holds (holds : Holds parter [] first last waiting) :
    Holds (pullMedium parter).2 (pullMedium parter).1.toList first last waiting := by
  have here := holds.here
  have there := holds.there
  have markEq := holds.markLookup
  rw [nil_append] at here
  rw [markOf_succ] at there
  cases mark : markOf first with
  | queue =>
    rw [mark] at here there markEq
    simp only [Parter.stored, Mark.other] at here there
    cases contents : parter.tlist.contents with
    | nil =>
      have pulled : pullMedium parter = (none, parter) := by
        rw [pullMedium_queue markEq, SupexTaskList.pull_empty contents]
      rw [pulled]
      exact holds
    | cons task rest =>
      obtain ⟨tlist, pullEq, later, -⟩ := SupexTaskList.pull_first contents
      have pulled : pullMedium parter = (some task, { parter with tlist := tlist }) := by
        rw [pullMedium_queue markEq, pullEq]
      rw [pulled]
      refine { holds with here := ?_, there := ?_ }
      · simp only [mark, Parter.stored, later]
        rw [← here, contents]
        rfl
      · simp only [markOf_succ, mark, Parter.stored, Mark.other]
        exact there
  | ucmq =>
    rw [mark] at here there markEq
    simp only [Parter.stored, Mark.other] at here there
    rw [pullMedium_ucmq markEq, mqStoreGet]
    refine { holds with here := ?_, there := ?_ }
    · simp only [mark, Parter.stored]
      rw [← here]
      cases parter.store <;> rfl
    · simp only [markOf_succ, mark, Parter.stored, Mark.other]
      exact there

def Takes (found : Found τ) (before after : List (Nat × τ)) : Prop :=
  before.map Prod.snd = returned [found] ++ after.map Prod.snd

theorem Holds.counted {task : SniffTask τ} (holds : Holds parter [task] first last waiting)
    (same : task.shift = parter.shiftLookup) : ∃ after, Holds (countedOut parter (some task)).2 [] first last after ∧
      Takes (countedOut parter (some task)).1 waiting after := by
  obtain ⟨entry, rest, found, rfl, later⟩ := map_eq_cons_iff.mp holds.here.symm
  rcases holds.shifts.first_alike found with ⟨now, after, rfl⟩ | ⟨ahead, -⟩
  · have shifts := holds.shifts.2
    rw [now] at shifts
    rw [alike_cons, if_pos (by rw [now]), List.cons.injEq] at found
    have there := holds.there
    rw [alike_cons, if_neg (by omega)] at there
    refine ⟨after, ⟨shifts, ?_, there, holds.markLookup, holds.shiftLookup, holds.markReport, holds.shiftReport,
      holds.swapMax, ?_⟩, rfl⟩
    · rw [found.2, later]
      rfl
    · simp [countedOut, holds.thave]
  · rw [holds.shiftLookup, nodeOf, ahead, ← UInt32.toNat_inj] at same
    simp only [UInt32.toNat_ofNat'] at same
    omega

theorem refill_contents {swap : SupexTaskList (SniffTask τ)} (empty : swap.contents = []) (size : swap.max = 2)
    (early : Option (SniffTask τ)) : (refill swap early).contents = early.toList ∧ (refill swap early).max = 2 := by
  cases early with
  | none => exact ⟨empty, size⟩
  | some task =>
    obtain ⟨next, pushEq, contents, same⟩ :=
      @SupexTaskList.push_room _ swap (by rw [empty, size]; exact Nat.one_lt_two) task
    rw [refill, pushEq]
    exact ⟨by rw [contents, empty]; rfl, same.trans size⟩

theorem swap_alone (holds : Holds parter out first last waiting) {task : SniffTask τ} {rest : List (SniffTask τ)}
    (contents : parter.swap.contents = task :: rest) : rest = [] := by
  have bound := parter.swap.contents_length_lt
  rw [holds.swapMax, contents, length_cons] at bound
  exact length_eq_zero_iff.mp (by omega)

theorem Holds.changeOver {early : Option (SniffTask τ)} {head : Nat × τ} {later : List (Nat × τ)}
    (holds : Holds parter early.toList first last (head :: later)) (next : head.1 = first + 1) :
    ∃ after, Holds (changeOver parter early).2 [] (first + 1) last after ∧
      Takes (changeOver parter early).1 (head :: later) after := by
  have here := holds.here
  have there := holds.there
  rw [alike_cons, if_neg (by omega), ← alike_add_two] at here
  rw [alike_cons, if_pos (by rw [next]), map_cons] at there
  have shiftLookup : parter.shiftLookup + 1 = UInt32.ofNat (first + 1) := by
    rw [holds.shiftLookup]
    simp [UInt32.ofNat_add]
  have markLookup : parter.markLookup.other = markOf (first + 1) := by rw [markOf_succ, holds.markLookup]
  cases contents : parter.swap.contents with
  | nil =>
    obtain ⟨filled, size⟩ := refill_contents contents holds.swapMax early
    rw [contents, nil_append] at there
    have result : Supex.changeOver parter early = (.nothing, { parter with
        swap := refill parter.swap early
        shiftLookup := parter.shiftLookup + 1
        markLookup := parter.markLookup.other }) := by
      rw [Supex.changeOver, SupexTaskList.pull_empty contents]
      rfl
    rw [result]
    refine ⟨head :: later, ⟨⟨.inl next, holds.shifts.2⟩, ?_, ?_, markLookup, shiftLookup, holds.markReport,
      holds.shiftReport, size, holds.thave⟩, rfl⟩
    · rw [alike_cons, if_pos (by rw [next]), map_cons, ← there]
      rfl
    · rw [alike_cons, if_neg (by omega), ← here, filled]
      simp only [markOf_succ, Mark.other_other]
      rfl
  | cons task rest =>
    obtain rfl := swap_alone holds contents
    obtain ⟨swap, pullEq, empty, same⟩ := SupexTaskList.pull_first contents
    obtain ⟨filled, size⟩ := refill_contents empty (same.trans holds.swapMax) early
    rw [contents, singleton_append, List.cons.injEq] at there
    obtain ⟨rfl, there⟩ := there
    have result : Supex.changeOver parter early = (.own head.2, { parter with
        thave := intWrap (parter.thave - 1)
        swap := refill swap early
        shiftLookup := parter.shiftLookup + 1
        markLookup := parter.markLookup.other }) := by
      rw [Supex.changeOver, pullEq]
      rfl
    rw [result]
    have shifts := holds.shifts.2
    rw [next] at shifts
    refine ⟨later, ⟨shifts, ?_, ?_, markLookup, shiftLookup, holds.markReport, holds.shiftReport, size, ?_⟩,
      rfl⟩
    · rw [← there]
      rfl
    · rw [← here, filled]
      simp only [markOf_succ, Mark.other_other]
      rfl
    · simp [holds.thave]

theorem Holds.lookupNew (holds : Holds parter [] first last waiting) (nonempty : waiting ≠ []) :
    ∃ next after, Holds (lookupNew parter).2 [] next last after ∧ Takes (lookupNew parter).1 waiting after := by
  have pulled := pullMedium_holds holds
  have head := pullMedium_head parter
  have here := holds.here
  rw [nil_append, ← holds.markLookup] at here
  rw [here] at head
  rw [Supex.lookupNew]
  generalize pullMedium parter = result at *
  obtain ⟨task, taken⟩ := result
  cases task with
  | none =>
    have nothing : alike first waiting = [] := by simpa using head.symm
    obtain ⟨head, later, rfl, next⟩ := holds.shifts.none_alike nothing nonempty
    exact ⟨first + 1, pulled.changeOver next⟩
  | some task =>
    by_cases same : task.shift = parter.shiftLookup
    · simp only [if_pos same]
      exact ⟨first, pulled.counted (by rw [same, holds.shiftLookup, pulled.shiftLookup])⟩
    · simp only [if_neg same]
      obtain ⟨entry, rest, found, rfl, -⟩ := map_eq_cons_iff.mp pulled.here.symm
      rcases holds.shifts.first_alike found with ⟨now, -⟩ | ⟨-, head, later, rfl, next⟩
      · exact absurd (by rw [nodeOf, now, holds.shiftLookup]) same
      · exact ⟨first + 1, pulled.changeOver next⟩

end

theorem pullMedium_frame (parter : Parter τ) :
    (pullMedium parter).2.stepLookup = parter.stepLookup ∧ (pullMedium parter).2.thave = parter.thave := by
  unfold pullMedium
  split <;> exact ⟨rfl, rfl⟩

theorem countedOut_thave {value : Int} (thave : parter.thave = intWrap value) (got : Option (SniffTask τ)) :
    (countedOut parter got).2.thave = intWrap (value - (returned [(countedOut parter got).1]).length) := by
  cases got with
  | none => simp [countedOut, returned, thave]
  | some task => simp [countedOut, returned, thave]

theorem countedOut_step (parter : Parter τ) (got : Option (SniffTask τ)) :
    (countedOut parter got).2.stepLookup = parter.stepLookup := by cases got <;> rfl

theorem lookupNew_frame {value : Int} (thave : parter.thave = intWrap value) :
    (lookupNew parter).2.stepLookup = parter.stepLookup ∧
      (lookupNew parter).2.thave = intWrap (value - (returned [(lookupNew parter).1]).length) := by
  obtain ⟨step, same⟩ := pullMedium_frame parter
  rw [lookupNew]
  generalize pullMedium parter = result at *
  obtain ⟨task, pulled⟩ := result
  have thave := same.trans thave
  have changed (early : Option (SniffTask τ)) : (changeOver pulled early).2.stepLookup = pulled.stepLookup ∧
      (changeOver pulled early).2.thave = intWrap (value - (returned [(changeOver pulled early).1]).length) :=
    ⟨countedOut_step pulled _, countedOut_thave thave _⟩
  cases task with
  | none => exact ⟨(changed none).1.trans step, (changed none).2⟩
  | some task =>
    simp only
    split
    · exact ⟨step, countedOut_thave thave (some task)⟩
    · exact ⟨(changed (some task)).1.trans step, (changed (some task)).2⟩

structure Sound (parter : Parter τ) (last : Nat) (waiting : List (Nat × τ)) : Prop where
  holds : ∃ first, Holds parter [] first last waiting ∧ (parter.stepLookup ≤ 1 → first = 0)
  swap : parter.stepLookup ≤ 1 → parter.swap.contents = []
  step : parter.stepLookup ≤ 2
  ring : parter.stepLookup = 0 → 2 ≤ parter.tlist.max
  first : parter.stepLookup = 0 → ∀ entry ∈ waiting.head?, entry.1 = 0

section

variable {parter : Parter τ} {last : Nat} {waiting : List (Nat × τ)}

theorem sound_fresh (zero : SniffTask τ) (capacity : Nat) :
    Sound (freshParter zero (capacity + 2) (Nat.succ_pos _)) 0 [] := by
  refine ⟨⟨0, ?_, fun _ => rfl⟩, fun _ => by simp [freshParter], Nat.zero_le _, fun _ => Nat.le_add_left _ _, by simp⟩
  constructor
  · exact (rfl : 0 = 0)
  · simp [freshParter, alike, Parter.stored, markOf]
  · simp [freshParter, alike, Parter.stored, markOf]
  · rfl
  · rfl
  · rfl
  · rfl
  · rfl
  · simp [freshParter, intWrap]

theorem Sound.report (sound : Sound parter last waiting) (task : τ) :
    ∃ shift, Sound (sniffTaskReport parter task) shift (waiting ++ [(shift, task)]) := by
  obtain ⟨first, holds, early⟩ := sound.holds
  obtain ⟨shift, after, size, swap, step, near, even⟩ := holds.report task
  refine ⟨shift, ⟨⟨first, after, fun start => early (step ▸ start)⟩,
    fun start => by rw [swap]; exact sound.swap (step ▸ start), step ▸ sound.step,
    fun start => size ▸ sound.ring (step ▸ start), fun start entry member => ?_⟩⟩
  rw [step] at start
  cases waiting with
  | cons head waiting => exact sound.first start entry (by simpa using member)
  | nil =>
    obtain rfl : (shift, task) = entry := by simpa using member
    have zero := early (by omega)
    have ended : first = last := holds.shifts
    have room := sound.ring start
    have empty : parter.tlist.contents = [] := by
      have here := holds.here
      simpa [zero, alike, Parter.stored, markOf] using here
    have parity := even (by rw [empty, length_nil]; omega)
    simp only
    omega

theorem Holds.setStep {first : Nat} (holds : Holds parter [] first last waiting) (step : Nat) :
    Holds { parter with stepLookup := step } [] first last waiting :=
  ⟨holds.shifts, holds.here, holds.there, holds.markLookup, holds.shiftLookup, holds.markReport, holds.shiftReport,
    holds.swapMax, holds.thave⟩

theorem lookup_idle (idle : parter.thave ≤ 0) (step : parter.stepLookup = 2) (given : Option τ) :
    (sniffTaskLookup parter given).2 = parter ∧ returned [(sniffTaskLookup parter given).1] = [] := by
  unfold sniffTaskLookup
  rw [if_pos ⟨idle, step⟩]
  cases given <;> exact ⟨rfl, rfl⟩

theorem lookup_init (step : parter.stepLookup = 0) (given : Option τ) :
    sniffTaskLookup parter given = match supexTaskPull parter.tlist with
      | (some task, tlist) =>
        (.own task.task, { parter with tlist := tlist, thave := intWrap (parter.thave - 1), stepLookup := 1 })
      | (none, _) => (.nothing, parter) := by
  cases parter
  obtain rfl := step
  exact if_neg (by simp)

theorem lookup_old (step : parter.stepLookup = 1) (given : Option τ) :
    sniffTaskLookup parter given = match mqStoreGet parter with
      | (some task, got) =>
        if task.shift = 1 then
          (.own task.task, { got with swap := (supexTaskPush got.swap task).2, stepLookup := 2 })
        else (.own task.task, got)
      | (none, got) => (.nothing, { got with stepLookup := 2 }) := by
  cases parter
  obtain rfl := step
  exact if_neg (by simp)

theorem lookup_new (busy : ¬ parter.thave ≤ 0) (step : parter.stepLookup = 2) (given : Option τ) :
    sniffTaskLookup parter given = lookupNew parter := by
  cases parter
  obtain rfl := step
  exact if_neg fun idle => busy idle.1

theorem Sound.lookup_init (sound : Sound parter last waiting) (given : Option τ) (start : parter.stepLookup = 0) :
    ∃ after, Sound (sniffTaskLookup parter given).2 last after ∧
      Takes (sniffTaskLookup parter given).1 waiting after := by
  obtain ⟨first, holds, early⟩ := sound.holds
  obtain rfl := early (by omega)
  have here : parter.tlist.contents = (alike 0 waiting).map nodeOf := by
    have medium := holds.here
    simpa [Parter.stored, markOf] using medium
  rw [Supex.lookup_init start]
  cases waiting with
  | nil =>
    rw [SupexTaskList.pull_empty here]
    exact ⟨[], sound, rfl⟩
  | cons entry later =>
    have zero := sound.first start entry rfl
    rw [alike_cons, if_pos (by rw [zero]), map_cons] at here
    obtain ⟨tlist, pullEq, -⟩ := SupexTaskList.pull_first here
    have pulled := pullMedium_holds holds
    rw [pullMedium_queue holds.markLookup, pullEq] at pulled
    obtain ⟨after, counted, takes⟩ := pulled.counted (by rw [nodeOf, zero, holds.shiftLookup])
    rw [pullEq]
    exact ⟨after, ⟨⟨0, counted.setStep 1, fun _ => rfl⟩, fun _ => sound.swap (by omega), (by decide : 1 ≤ 2),
      fun zero => absurd zero Nat.one_ne_zero, fun zero => absurd zero Nat.one_ne_zero⟩, takes⟩

theorem Sound.lookup (sound : Sound parter last waiting) (given : Option τ)
    (clear : parter.stepLookup = 1 → parter.store = []) :
    ∃ after, Sound (sniffTaskLookup parter given).2 last after ∧
      Takes (sniffTaskLookup parter given).1 waiting after := by
  obtain ⟨first, holds, early⟩ := sound.holds
  have bound := sound.step
  obtain start | start | start : parter.stepLookup = 0 ∨ parter.stepLookup = 1 ∨ parter.stepLookup = 2 := by omega
  · exact sound.lookup_init given start
  · have empty := clear start
    have result : mqStoreGet parter = (none, parter) := by
      simp only [mqStoreGet, empty, List.head?_nil, tail_nil]
      rw [← empty]
    rw [lookup_old start, result]
    exact ⟨waiting, ⟨⟨first, holds.setStep 2, fun low => absurd low (by simp)⟩, fun _ => sound.swap (by omega),
      Nat.le_refl 2,
      fun zero => absurd zero (by simp), fun zero => absurd zero (by simp)⟩, rfl⟩
  · by_cases idle : parter.thave ≤ 0
    · obtain ⟨same, nothing⟩ := lookup_idle idle start given
      rw [same]
      exact ⟨waiting, sound, by rw [Takes, nothing]; rfl⟩
    · have nonempty : waiting ≠ [] := by
        rintro rfl
        exact idle (by simp [holds.thave, intWrap])
      obtain ⟨next, after, kept, takes⟩ := holds.lookupNew nonempty
      have step := (lookupNew_frame holds.thave).1
      rw [start] at step
      rw [lookup_new idle start]
      exact ⟨after, ⟨⟨next, kept, by omega⟩, by omega, by omega, by omega, by omega⟩, takes⟩

def Overcounted (parter : Parter τ) (outstanding : Int) : Prop :=
  parter.stepLookup = 2 ∧ parter.thave = intWrap (outstanding + 1)

theorem Sound.lookup_early (sound : Sound parter last waiting) (given : Option τ) (start : parter.stepLookup = 1)
    (filled : parter.store ≠ []) : Overcounted (sniffTaskLookup parter given).2
      (waiting.length - (returned [(sniffTaskLookup parter given).1]).length) := by
  obtain ⟨first, holds, early⟩ := sound.holds
  obtain rfl := early (by omega)
  obtain ⟨task, rest, stored⟩ := exists_cons_of_ne_nil filled
  have shift : task.shift = 1 := by
    have there := holds.there
    rw [sound.swap (by omega), nil_append, show parter.stored (markOf (0 + 1)) = parter.store from rfl, stored] at there
    obtain ⟨entry, later, found, rfl, -⟩ := map_eq_cons_iff.mp there.symm
    rw [nodeOf, holds.shifts.next_shift found]
    rfl
  have result : mqStoreGet parter = (some task, { parter with store := rest }) := by
    rw [mqStoreGet, stored]
    rfl
  rw [lookup_old start, result]
  simp only [if_pos shift]
  refine ⟨rfl, ?_⟩
  simp [returned, holds.thave]

theorem Overcounted.report {outstanding : Int} (excess : Overcounted parter outstanding) (task : τ) :
    Overcounted (sniffTaskReport parter task) (outstanding + 1) := by
  have step : (sniffTaskReport parter task).stepLookup = parter.stepLookup := by
    unfold sniffTaskReport
    split <;> rfl
  have thave : (sniffTaskReport parter task).thave = intWrap (parter.thave + 1) := by
    unfold sniffTaskReport
    split <;> rfl
  refine ⟨step.trans excess.1, ?_⟩
  rw [thave, excess.2, intWrap_add]

theorem Overcounted.lookup {outstanding : Int} (excess : Overcounted parter outstanding) (given : Option τ) :
    Overcounted (sniffTaskLookup parter given).2
      (outstanding - (returned [(sniffTaskLookup parter given).1]).length) := by
  by_cases idle : parter.thave ≤ 0
  · obtain ⟨same, nothing⟩ := lookup_idle idle excess.1 given
    rw [same, nothing]
    simpa using excess
  · obtain ⟨step, thave⟩ := lookupNew_frame excess.2
    rw [lookup_new idle excess.1]
    refine ⟨step.trans excess.1, ?_⟩
    rw [thave]
    congr 1
    omega

end

def StoreClear (parter : Parter τ) : SniffCall τ → Prop
  | .report _ => True
  | .lookup _ => parter.stepLookup = 1 → parter.store = []

@[simp] theorem reported_report (task : τ) (calls : List (SniffCall τ)) :
    reported (.report task :: calls) = task :: reported calls := rfl

@[simp] theorem reported_lookup (given : Option τ) (calls : List (SniffCall τ)) :
    reported (.lookup given :: calls) = reported calls := rfl

@[simp] theorem returned_nothing (answers : List (Found τ)) : returned (.nothing :: answers) = returned answers := rfl

theorem returned_cons (found : Found τ) (answers : List (Found τ)) :
    returned (found :: answers) = returned [found] ++ returned answers := by
  cases found <;> rfl

theorem Overcounted.of_eq {outstanding other : Int} (excess : Overcounted parter outstanding)
    (same : outstanding = other) : Overcounted parter other := same ▸ excess

theorem run_overcounted {outstanding : Int} (excess : Overcounted parter outstanding)
    (calls : List (SniffCall τ)) : ∃ final answers, run sniffStep parter calls = .ok (final, answers) ∧
      Overcounted final (outstanding + (reported calls).length - (returned answers).length) := by
  induction calls generalizing parter outstanding with
  | nil => exact ⟨parter, [], rfl, excess.of_eq (by simp [reported, returned])⟩
  | cons call calls ih =>
    cases call with
    | report task =>
      obtain ⟨final, answers, runEq, kept⟩ := ih (excess.report task)
      refine ⟨final, _, run_cons rfl runEq, kept.of_eq ?_⟩
      simp only [reported_report, returned_nothing, length_cons]
      omega
    | lookup given =>
      obtain ⟨final, answers, runEq, kept⟩ := ih (excess.lookup given)
      refine ⟨final, _, run_cons rfl runEq, kept.of_eq ?_⟩
      rw [returned_cons _ answers, length_append, reported_lookup]
      omega

theorem run_sound {last : Nat} {waiting : List (Nat × τ)} (sound : Sound parter last waiting)
    (calls : List (SniffCall τ)) : ∃ final answers, run sniffStep parter calls = .ok (final, answers) ∧
      (Guarded sniffStep StoreClear parter calls ∧ (∃ ended after, Sound final ended after ∧
          waiting.map Prod.snd ++ reported calls = returned answers ++ after.map Prod.snd) ∨
        ¬ Guarded sniffStep StoreClear parter calls ∧
          Overcounted final (waiting.length + (reported calls).length - (returned answers).length)) := by
  induction calls generalizing parter last waiting with
  | nil => exact ⟨parter, [], rfl, .inl ⟨trivial, last, waiting, sound, by simp [reported, returned]⟩⟩
  | cons call calls ih =>
    cases call with
    | report task =>
      obtain ⟨shift, kept⟩ := sound.report task
      obtain ⟨final, answers, runEq, rest⟩ := ih kept
      refine ⟨final, .nothing :: answers, run_cons rfl runEq, ?_⟩
      rw [guarded_cons_iff (show sniffStep parter (.report task) = _ from rfl)]
      rcases rest with ⟨guarded, ended, after, final, order⟩ | ⟨broken, excess⟩
      · refine .inl ⟨⟨trivial, guarded⟩, ended, after, final, ?_⟩
        simpa using order
      · refine .inr ⟨fun guarded => broken guarded.2, excess.of_eq ?_⟩
        simp only [reported_report, returned_nothing, length_cons, length_append, length_nil]
        omega
    | lookup given =>
      rw [guarded_cons_iff (show sniffStep parter (.lookup given) = _ from rfl)]
      by_cases clear : StoreClear parter (.lookup given)
      · obtain ⟨between, kept, takes⟩ := sound.lookup given clear
        obtain ⟨final, answers, runEq, rest⟩ := ih kept
        refine ⟨final, _, run_cons rfl runEq, ?_⟩
        rw [Takes] at takes
        rw [returned_cons _ answers, reported_lookup]
        rcases rest with ⟨guarded, ended, after, final, order⟩ | ⟨broken, excess⟩
        · refine .inl ⟨⟨clear, guarded⟩, ended, after, final, ?_⟩
          rw [takes, append_assoc, order, append_assoc]
        · refine .inr ⟨fun guarded => broken guarded.2, excess.of_eq ?_⟩
          have length := congrArg List.length takes
          simp only [length_map, length_append] at length ⊢
          omega
      · obtain ⟨start, filled⟩ := Classical.not_imp.mp clear
        obtain ⟨final, answers, runEq, excess⟩ := run_overcounted (sound.lookup_early given start filled) calls
        refine ⟨final, _, run_cons rfl runEq, .inr ⟨fun guarded => clear guarded.1, excess.of_eq ?_⟩⟩
        rw [returned_cons _ answers, length_append, reported_lookup]
        omega

/-- Returned in order, each at most once, and `thave` are still to come. -/
structure InOrder (calls : List (SniffCall τ)) (answers : List (Found τ)) (final : Parter τ) : Prop where
  order : returned answers <+: reported calls
  thave : final.thave = ((reported calls).length : Int) - (returned answers).length

theorem intWrap_eq_iff (value : Nat) : intWrap value = value ↔ value < 2147483648 := by
  rw [intWrap, Int.bmod_def]
  split <;> omega

theorem intWrap_succ_ne (value : Int) : intWrap (value + 1) ≠ value := by
  rw [intWrap, Int.bmod_def]
  split <;> omega

end Libucmq.Supex
