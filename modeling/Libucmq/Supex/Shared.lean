import Libucmq.Library.Machine
import Libucmq.Library.Ring

/-! The rings of `supex.c` and `utils.c` shared by any number of threads, access by access. -/

namespace Libucmq.Shared

open List Function Machine

open Ring (Op Answer fifo contents)

inductive Side
  | write
  | read
deriving DecidableEq, Repr

inductive Pc (α : Type)
  | idle
  | spin (op : Op α)
  | locked (op : Op α)
  | copy (task : α) (next : Nat)
  | copying (task : α) (next : Nat)
  | publish (task : α) (next : Nat)
  | fetch
  | advance (task : α)
  | count (op : Op α) (answer : Answer α)
  | leave (op : Op α) (answer : Answer α)

/-- The `tsz` bytes of a task. -/
abbrev Task (tsz : Nat) : Type := Fin tsz → UInt8

structure State (κ : Type) (tsz : Nat) where
  memory : Nat → UInt8
  head : Nat := 0
  tail : Nat := 0
  isz : UInt32 := 0
  osz : UInt32 := 0
  lock : Side → Bool := fun _ => false
  pc : κ → Pc (Task tsz) := fun _ => .idle

/-- `op` is the call begun, `torn` what a begun `memcpy` leaves in its slot. -/
structure Event (κ α : Type) where
  thread : κ
  op : Op α
  torn : α

inductive Effect (α : Type)
  | silent
  | calls (op : Op α)
  | takes (op : Op α) (answer : Answer α)
  | returns (answer : Answer α)

inductive Fault
  | assertion

/-- An `unsigned int` product, as `tail * tsz` is in C. -/
def offset (tsz index : Nat) : Nat := index * tsz % 4294967296

def slotAt {tsz : Nat} (memory : Nat → UInt8) (base : Nat) : Task tsz := fun i => memory (base + i)

def copyTo {tsz : Nat} (memory : Nat → UInt8) (base : Nat) (task : Task tsz) (pos : Nat) : UInt8 :=
  if inside : base ≤ pos ∧ pos - base < tsz then task ⟨pos - base, inside.2⟩ else memory pos

def State.slots {κ : Type} {tsz : Nat} (state : State κ tsz) (index : Nat) : Task tsz :=
  slotAt state.memory (index * tsz)

theorem slotAt_copyTo {tsz : Nat} (memory : Nat → UInt8) (index : Nat) (task : Task tsz) :
    (fun other => slotAt (copyTo memory (index * tsz) task) (other * tsz)) =
      update (fun other => slotAt memory (other * tsz)) index task := by
  funext other i
  by_cases same : other = index
  · subst same
    simp [slotAt, copyTo]
  · rw [update_of_ne same]
    refine dif_neg fun inside => ?_
    -- the bytes of two slots are apart
    rcases Nat.lt_or_gt_of_ne same with below | above
    · have := Nat.mul_le_mul_right tsz (Nat.succ_le_of_lt below)
      rw [Nat.succ_mul] at this
      omega
    · have := Nat.mul_le_mul_right tsz (Nat.succ_le_of_lt above)
      rw [Nat.succ_mul] at this
      omega

variable {α κ : Type} {max tsz : Nat} {state next : State κ tsz} {event : Event κ (Task tsz)} {pc : Pc (Task tsz)}

def sideOf : Op α → Side
  | .push _ => .write
  | .pull => .read

def Pc.side : Pc α → Option Side
  | .idle | .spin _ => none
  | .locked op | .count op _ | .leave op _ => some (sideOf op)
  | .copy .. | .copying .. | .publish .. => some .write
  | .fetch | .advance _ => some .read

def Facts (max : Nat) (state : State κ tsz) : Pc (Task tsz) → Prop
  | .copy _ next | .copying _ next => next = (state.tail + 1) % max ∧ state.head ≠ next
  | .publish task next => next = (state.tail + 1) % max ∧ state.head ≠ next ∧ state.slots state.tail = task
  | .fetch => state.head ≠ state.tail
  | .advance task => state.head ≠ state.tail ∧ state.slots state.head = task
  | _ => True

structure Sound (max : Nat) (state : State κ tsz) : Prop where
  head : state.head < max
  tail : state.tail < max
  held : ∀ thread side, (state.pc thread).side = some side → state.lock side = true
  one : ∀ thread other side, (state.pc thread).side = some side → (state.pc other).side = some side → thread = other
  facts : ∀ thread, Facts max state (state.pc thread)

theorem Facts.beside_write (facts : Facts max state pc) (side : pc.side ≠ some .write) (head : next.head = state.head)
    (keeps : state.head ≠ state.tail →
      state.head ≠ next.tail ∧ next.slots state.head = state.slots state.head) : Facts max next pc := by
  cases pc with
  | copy | copying | publish => exact absurd rfl side
  | fetch =>
    show next.head ≠ next.tail
    rw [head]
    exact (keeps facts).1
  | advance task =>
    show next.head ≠ next.tail ∧ next.slots next.head = task
    rw [head, (keeps facts.1).2]
    exact ⟨(keeps facts.1).1, facts.2⟩
  | _ => trivial

theorem Facts.beside_read (facts : Facts max state pc) (side : pc.side ≠ some .read) (tail : next.tail = state.tail)
    (slots : next.slots = state.slots)
    (keeps : state.head ≠ (state.tail + 1) % max → next.head ≠ (state.tail + 1) % max) : Facts max next pc := by
  cases pc with
  | fetch | advance => exact absurd rfl side
  | copy task place | copying task place =>
    obtain ⟨rfl, room⟩ := facts
    exact ⟨by rw [tail], keeps room⟩
  | publish task place =>
    obtain ⟨rfl, room, filled⟩ := facts
    exact ⟨by rw [tail], keeps room, by rw [slots, tail, filled]⟩
  | _ => trivial

def Takes (max : Nat) (state next : State κ tsz) : Effect (Task tsz) → Prop
  | .takes op answer => fifo (max - 1) (contents max state.slots state.head state.tail) op =
      (contents max next.slots next.head next.tail, answer)
  | _ => contents max next.slots next.head next.tail = contents max state.slots state.head state.tail

def marks : Effect α → List (Effect α)
  | .silent => []
  | effect => [effect]

def wholeCall (call : Op α × Answer α) : List (Effect α) := [.calls call.1, .takes call.1 call.2, .returns call.2]

def Pc.stage : Pc α → List (Effect α)
  | .idle => []
  | .spin op | .locked op => [.calls op]
  | .copy task _ | .copying task _ | .publish task _ => [.calls (.push task)]
  | .fetch | .advance _ => [.calls .pull]
  | .count op answer | .leave op answer => [.calls op, .takes op answer]

theorem offset_eq (wide : (max - 1) * tsz < 4294967296) {index : Nat} (inside : index < max) :
    offset tsz index = index * tsz :=
  Nat.mod_eq_of_lt (Nat.lt_of_le_of_lt (Nat.mul_le_mul_right tsz (by omega)) wide)

theorem contents_fill (sound : Sound max state) (room : state.head ≠ (state.tail + 1) % max) (task : Task tsz) :
    contents max (update state.slots state.tail task) state.head state.tail =
      contents max state.slots state.head state.tail := by
  have both := @Ring.contents_push _ _ _ _ (update state.slots state.tail task) sound.head sound.tail room task
  rw [update_idem, Ring.contents_push sound.head sound.tail room] at both
  exact (append_cancel_right both).symm

theorem Sound.advances (sound : Sound max state) (nonempty : state.head ≠ state.tail) :
    (state.head + 1) % max ≠ (state.tail + 1) % max := by
  have head := sound.head
  have tail := sound.tail
  rw [Ring.next_eq head, Ring.next_eq tail]
  split_ifs <;> omega

variable [DecidableEq κ]

def State.goes (state : State κ tsz) (thread : κ) (pc : Pc (Task tsz)) : State κ tsz :=
  { state with pc := update state.pc thread pc }

/-- `supex_task_push`, `supex_task_pull`, and `free_queue_*` alike. -/
def step (max : Nat) (state : State κ tsz) (event : Event κ (Task tsz)) :
    Except Fault (State κ tsz × Effect (Task tsz)) :=
  let goes := state.goes event.thread
  match state.pc event.thread with
  | .idle => .ok (goes (.spin event.op), .calls event.op)
  | .spin op =>
    if state.lock (sideOf op) then .ok (goes (.spin op), .silent)
    else .ok ({ goes (.locked op) with lock := update state.lock (sideOf op) true }, .silent)
  | .locked (.push task) =>
    let next := (state.tail + 1) % max
    if state.head ≠ next then .ok (goes (.copy task next), .silent)
    else .ok (goes (.leave (.push task) (.pushed false)), .takes (.push task) (.pushed false))
  | .copy task next =>
    .ok ({ goes (.copying task next) with memory := copyTo state.memory (offset tsz state.tail) event.torn }, .silent)
  | .copying task next =>
    .ok ({ goes (.publish task next) with memory := copyTo state.memory (offset tsz state.tail) task }, .silent)
  | .publish task next =>
    .ok ({ goes (.count (.push task) (.pushed true)) with tail := next }, .takes (.push task) (.pushed true))
  | .locked .pull =>
    if state.head ≠ state.tail then .ok (goes .fetch, .silent)
    else .ok (goes (.leave .pull (.pulled none)), .takes .pull (.pulled none))
  | .fetch => .ok (goes (.advance (slotAt state.memory (offset tsz state.head))), .silent)
  | .advance task =>
    .ok ({ goes (.count .pull (.pulled (some task))) with head := (state.head + 1) % max },
      .takes .pull (.pulled (some task)))
  | .count (.push task) answer => .ok ({ goes (.leave (.push task) answer) with isz := state.isz + 1 }, .silent)
  | .count .pull answer => .ok ({ goes (.leave .pull answer) with osz := state.osz + 1 }, .silent)
  | .leave op answer =>
    if state.lock (sideOf op) then
      .ok ({ goes .idle with lock := update state.lock (sideOf op) false }, .returns answer)
    else .error .assertion

section

variable (sound : Sound max state)

include sound

theorem Sound.moved {thread : κ} (pcs : next.pc = update state.pc thread pc)
    (head : next.head < max) (tail : next.tail < max)
    (held : ∀ side, pc.side = some side → next.lock side = true ∧
      ((state.pc thread).side = some side ∨ state.lock side = false))
    (kept : ∀ other, other ≠ thread → Facts max next (state.pc other) ∧
      ∀ side, (state.pc other).side = some side → next.lock side = true) (own : Facts max next pc) :
    Sound max next := by
  have apart : ∀ other side, other ≠ thread → pc.side = some side → (state.pc other).side ≠ some side := by
    intro other side different mine theirs
    obtain before | free := (held side mine).2
    · exact different (sound.one other thread side theirs before)
    · simp [sound.held other side theirs] at free
  refine ⟨head, tail, fun other side => ?_, fun first second side => ?_, fun other => ?_⟩
  · rw [pcs]
    by_cases same : other = thread
    · subst same
      rw [update_self]
      exact fun mine => (held side mine).1
    · rw [update_of_ne same]
      exact (kept other same).2 side
  · rw [pcs]
    by_cases same : first = thread <;> by_cases also : second = thread
    · exact fun _ _ => same.trans also.symm
    · rw [same, update_self, update_of_ne also]
      exact fun mine theirs => absurd theirs (apart second side also mine)
    · rw [also, update_self, update_of_ne same]
      exact fun theirs mine => absurd theirs (apart first side same mine)
    · rw [update_of_ne same, update_of_ne also]
      exact sound.one first second side
  · rw [pcs]
    by_cases same : other = thread
    · subst same
      rwa [update_self]
    · rw [update_of_ne same]
      exact (kept other same).1

theorem Sound.stays {thread : κ} (pcs : next.pc = update state.pc thread pc) (lock : next.lock = state.lock)
    (head : next.head < max) (tail : next.tail < max) (side : pc.side = none ∨ pc.side = (state.pc thread).side)
    (others : ∀ other, other ≠ thread → Facts max next (state.pc other)) (own : Facts max next pc) :
    Sound max next := by
  refine sound.moved pcs head tail (fun place mine => ?_) (fun other different => ⟨others other different, ?_⟩) own
  · obtain absent | same := side
    · simp [absent] at mine
    · rw [same] at mine
      exact ⟨lock ▸ sound.held thread place mine, .inl mine⟩
  · rw [lock]
    exact sound.held other

theorem Sound.goes {thread : κ}
    (side : pc.side = none ∨ pc.side = (state.pc thread).side) (own : Facts max state pc) :
    Sound max (state.goes thread pc) :=
  sound.stays rfl rfl sound.head sound.tail side (fun other _ => sound.facts other) own

theorem Sound.step (wide : (max - 1) * tsz < 4294967296) (event : Event κ (Task tsz)) :
    ∃ next effect pc, Shared.step max state event = .ok (next, effect) ∧ Sound max next ∧
      next.pc = update state.pc event.thread pc ∧ Takes max state next effect ∧
      ∃ calls : List (Op (Task tsz) × Answer (Task tsz)),
        (state.pc event.thread).stage ++ marks effect = calls.flatMap wholeCall ++ pc.stage := by
  have facts := sound.facts event.thread
  have others := fun other (_ : other ≠ event.thread) => sound.facts other
  have alone : ∀ side, (state.pc event.thread).side = some side → ∀ other, other ≠ event.thread →
      (state.pc other).side ≠ some side :=
    fun side mine other different theirs => different (sound.one other event.thread side theirs mine)
  have fill : ∀ task : Task tsz, state.head ≠ (state.tail + 1) % max →
      (fun index => slotAt (copyTo state.memory (offset tsz state.tail) task) (index * tsz)) =
          update state.slots state.tail task ∧
        contents max (fun index => slotAt (copyTo state.memory (offset tsz state.tail) task) (index * tsz))
          state.head state.tail = contents max state.slots state.head state.tail := by
    intro task room
    rw [offset_eq wide sound.tail, slotAt_copyTo]
    exact ⟨rfl, contents_fill sound room task⟩
  simp only [Shared.step]
  cases here : state.pc event.thread with
  | idle =>
    exact ⟨_, _, _, rfl, sound.goes (.inl rfl) trivial, rfl, rfl, [], rfl⟩
  | spin op =>
    dsimp only
    split
    · exact ⟨_, _, _, rfl, sound.goes (.inl rfl) trivial, rfl, rfl, [], rfl⟩
    · rename_i free
      refine ⟨_, _, .locked op, rfl, sound.moved rfl sound.head sound.tail ?_ ?_ trivial, rfl, rfl, [], rfl⟩
      · rintro side ⟨⟩
        exact ⟨update_self .., .inr (by simpa using free)⟩
      · refine fun other different => ⟨others other different, fun side theirs => ?_⟩
        by_cases same : side = sideOf op
        · exact same ▸ update_self ..
        · exact (update_of_ne same ..).trans (sound.held other side theirs)
  | locked op =>
    rw [here] at alone
    cases op with
    | push task =>
      dsimp only
      split
      · rename_i room
        exact ⟨_, _, _, rfl, sound.goes (.inr (by rw [here]; rfl)) ⟨rfl, room⟩, rfl, rfl, [], rfl⟩
      · rename_i full
        refine ⟨_, _, _, rfl, sound.goes (.inr (by rw [here]; rfl)) trivial, rfl, ?_, [], rfl⟩
        have count := (Ring.full_iff sound.head sound.tail).mp (not_not.mp full)
        exact if_neg (by rw [Ring.contents_length]; omega)
    | pull =>
      dsimp only
      split
      · rename_i nonempty
        exact ⟨_, _, _, rfl, sound.goes (.inr (by rw [here]; rfl)) nonempty, rfl, rfl, [], rfl⟩
      · rename_i absent
        refine ⟨_, _, _, rfl, sound.goes (.inr (by rw [here]; rfl)) trivial, rfl, ?_, [], rfl⟩
        have empty := (@Ring.contents_eq_nil_iff _ _ _ _ state.slots sound.head).mpr (not_not.mp absent)
        simp only [Takes, State.goes, empty, fifo]
        exact Prod.ext empty.symm rfl
  | copy task place =>
    rw [here] at alone facts
    obtain ⟨rfl, room⟩ := facts
    obtain ⟨slots, kept⟩ := fill event.torn room
    refine ⟨_, _, _, rfl, sound.stays rfl rfl sound.head sound.tail (.inr (by rw [here]; rfl)) ?_ ⟨rfl, room⟩,
      rfl, kept, [], rfl⟩
    exact fun other different => (sound.facts other).beside_write (alone _ rfl other different) rfl
      fun apart => ⟨apart, (congrFun slots _).trans (update_of_ne apart ..)⟩
  | copying task place =>
    rw [here] at alone facts
    obtain ⟨rfl, room⟩ := facts
    obtain ⟨slots, kept⟩ := fill task room
    refine ⟨_, _, _, rfl, sound.stays rfl rfl sound.head sound.tail (.inr (by rw [here]; rfl)) ?_
      ⟨rfl, room, (congrFun slots _).trans (update_self ..)⟩, rfl, kept, [], rfl⟩
    exact fun other different => (sound.facts other).beside_write (alone _ rfl other different) rfl
      fun apart => ⟨apart, (congrFun slots _).trans (update_of_ne apart ..)⟩
  | publish task place =>
    rw [here] at alone facts
    obtain ⟨rfl, room, filled⟩ := facts
    refine ⟨_, _, _, rfl, sound.stays rfl rfl sound.head (Nat.mod_lt _ (Nat.zero_lt_of_lt sound.tail))
      (.inr (by rw [here]; rfl)) ?_ trivial, rfl, ?_, [], rfl⟩
    · exact fun other different => (sound.facts other).beside_write (alone _ rfl other different) rfl
        fun _ => ⟨room, rfl⟩
    · have pushed := @Ring.contents_push _ _ _ _ state.slots sound.head sound.tail room task
      rw [← filled, update_eq_self, filled] at pushed
      have count := mt (Ring.full_iff sound.head sound.tail).mpr room
      have bound := Ring.count_lt sound.head sound.tail
      show fifo (max - 1) (contents max state.slots state.head state.tail) (.push task) =
        (contents max state.slots state.head ((state.tail + 1) % max), .pushed true)
      rw [pushed]
      exact if_pos (by rw [Ring.contents_length]; omega)
  | fetch =>
    rw [here] at facts
    refine ⟨_, _, _, rfl, sound.goes (.inr (by rw [here]; rfl)) ⟨facts, ?_⟩, rfl, rfl, [], rfl⟩
    rw [offset_eq wide sound.head]
    rfl
  | advance task =>
    rw [here] at alone facts
    obtain ⟨nonempty, rfl⟩ := facts
    refine ⟨_, _, _, rfl, sound.stays rfl rfl (Nat.mod_lt _ (Nat.zero_lt_of_lt sound.head)) sound.tail
      (.inr (by rw [here]; rfl)) ?_ trivial, rfl, ?_, [], rfl⟩
    · exact fun other different => (sound.facts other).beside_read (alone _ rfl other different) rfl rfl
        fun _ => sound.advances nonempty
    · simp only [Takes, State.goes, Ring.contents_pull sound.head sound.tail nonempty, fifo]
      rfl
  | count op answer =>
    cases op with
    | push task | pull =>
      exact ⟨_, _, _, rfl, sound.stays rfl rfl sound.head sound.tail (.inr (by rw [here]; rfl)) others trivial,
        rfl, rfl, [], rfl⟩
  | leave op answer =>
    rw [here] at alone
    dsimp only
    rw [if_pos (sound.held event.thread _ (by rw [here]; rfl))]
    refine ⟨_, _, .idle, rfl, sound.moved rfl sound.head sound.tail (fun side mine => by cases mine) ?_ trivial, rfl,
      rfl, [(op, answer)], rfl⟩
    refine fun other different => ⟨sound.facts other, fun side theirs => ?_⟩
    have apart : side ≠ sideOf op := fun same => alone _ rfl other different (same ▸ theirs)
    exact (update_of_ne apart ..).trans (sound.held other side theirs)

end

def taken (history : List (Event κ (Task tsz) × Effect (Task tsz))) : List (Op (Task tsz) × Answer (Task tsz)) :=
  history.filterMap fun entry =>
    match entry.2 with
    | .takes op answer => some (op, answer)
    | _ => none

def effectsOf (thread : κ) (history : List (Event κ (Task tsz) × Effect (Task tsz))) : List (Effect (Task tsz)) :=
  (history.filter fun entry => entry.1.thread = thread).flatMap fun entry => marks entry.2

/-- Each call takes effect once, after it was made and before it returns. -/
structure Linear (max : Nat) (history : List (Event κ (Task tsz) × Effect (Task tsz))) (state : State κ tsz) : Prop where
  sound : Sound max state
  queue : specRun (fifo (max - 1)) [] ((taken history).map Prod.fst) =
    (contents max state.slots state.head state.tail, (taken history).map Prod.snd)
  calls : ∀ thread, ∃ calls : List (Op (Task tsz) × Answer (Task tsz)),
    effectsOf thread history = calls.flatMap wholeCall ++ (state.pc thread).stage

theorem Linear.step {history : List (Event κ (Task tsz) × Effect (Task tsz))} (linear : Linear max history state)
    (wide : (max - 1) * tsz < 4294967296) (event : Event κ (Task tsz)) :
    ∃ next effect, Shared.step max state event = .ok (next, effect) ∧
      Linear max (history ++ [(event, effect)]) next := by
  obtain ⟨next, effect, pc, stepEq, sound, pcs, takes, more, stage⟩ := linear.sound.step wide event
  refine ⟨next, effect, stepEq, sound, ?_, fun thread => ?_⟩
  · have queue := linear.queue
    cases effect with
    | takes op answer =>
      have here : taken (history ++ [(event, .takes op answer)]) = taken history ++ [(op, answer)] := by simp [taken]
      rw [here, map_append, map_append, map_singleton, specRun_concat, queue, show fifo _ _ op = _ from takes]
      rfl
    | silent | calls | returns =>
      simp only [taken, filterMap_append, filterMap_cons, filterMap_nil, append_nil] at queue ⊢
      rw [queue]
      exact congrArg (·, _) takes.symm
  · obtain ⟨calls, effects⟩ := linear.calls thread
    rw [pcs]
    by_cases same : event.thread = thread
    · subst same
      refine ⟨calls ++ more, ?_⟩
      rw [update_self, flatMap_append, append_assoc, ← stage, ← append_assoc, ← effects]
      simp [effectsOf]
    · rw [update_of_ne (Ne.symm same)]
      exact ⟨calls, by simpa [effectsOf, same] using effects⟩

/-- In any interleaving every call takes effect at one moment, as a call of a queue of `max - 1` tasks. -/
theorem ring_linearizable (max tsz : UInt32) (positive : 0 < max.toNat) (wide : (max.toNat - 1) * tsz.toNat < 4294967296)
    (memory : Nat → UInt8) (events : List (Event κ (Task tsz.toNat))) :
    ∃ final effects, run (step max.toNat) { memory } events = .ok (final, effects) ∧
      Linear max.toNat (events.zip effects) final := by
  have start : Linear max.toNat [] ({ memory } : State κ tsz.toNat) := by
    refine ⟨⟨positive, positive, ?_, ?_, fun _ => trivial⟩, ?_, fun _ => ⟨[], rfl⟩⟩
    · rintro thread side ⟨⟩
    · rintro thread other side ⟨⟩
    · have empty := @Ring.contents_eq_nil_iff _ _ 0 0 (({ memory } : State κ tsz.toNat).slots) positive
      exact Prod.ext (empty.mpr rfl).symm rfl
  have steps := @run_history _ _ _ _ (step max.toNat) (fun _ _ => True) (Linear max.toNat) (fun _ => False)
    (fun history state event linear _ => .inl (linear.step wide event)) [] { memory } events start
    (guarded_of_forall fun _ _ => trivial)
  obtain ⟨final, effects, runEq, linear⟩ | ⟨stop, -, impossible⟩ := steps
  · exact ⟨final, effects, runEq, linear⟩
  · exact impossible.elim

def turns : List (Event Bool (Task 4)) :=
  (replicate 9 [⟨true, .push fun _ => 7, fun _ => 1⟩, ⟨false, .pull, fun _ => 0⟩]).flatten

theorem ring_linearizable_two :
    ∃ final effects, run (step 2) { memory := fun _ => 0 } turns = .ok (final, effects) ∧
      Linear 2 (turns.zip effects) final :=
  ring_linearizable 2 4 (by decide) (by decide) _ turns

end Libucmq.Shared
