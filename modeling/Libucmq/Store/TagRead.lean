import Libucmq.Store.TagText

/-! Reading a tag file from its end. -/

namespace Libucmq

open CString List

namespace TagKind

def line : TagKind → MqQueue → List UInt8
  | .rtag, queue => rtagItem queue.getNum queue.curRdb.pos
  | .wtag, queue => wtagItem queue.putNum queue.curWdb.pos queue.maxque

def Restores : TagKind → MqQueue → MqQueue → Prop
  | .rtag, read, last => read.getNum = last.getNum ∧ read.curRdb.pos = last.curRdb.pos
  | .wtag, read, last =>
    read.putNum = last.putNum ∧ read.curWdb.pos = last.curWdb.pos ∧ read.maxque = last.maxque

def marked (line : Nat) (queue : MqQueue) : MqQueue :=
  if 1 < line then { queue with curWdb := { queue.curWdb with pos := maxDbFilePos } } else queue

def fallback : TagKind → MqQueue → MqQueue
  | .rtag, queue => { queue with curRdb := { queue.curRdb with pos := 0 } }
  | .wtag, queue =>
    { queue with curWdb := { queue.curWdb with pos := maxDbFilePos }, maxque := defMaxQueue }

def Reaches (kind : TagKind) (content : List UInt8) (line : Nat) : Prop :=
  line * (kind.itemLen + 1) ≤ content.length ∧ 0 ≤ toCInt (content.length - line * (kind.itemLen + 1))

instance (kind : TagKind) (content : List UInt8) (line : Nat) : Decidable (kind.Reaches content line) :=
  inferInstanceAs (Decidable (_ ∧ _))

def window (kind : TagKind) (content : List UInt8) (line : Nat) : List UInt8 :=
  (content.drop (content.length - line * (kind.itemLen + 1))).take (2 * (kind.itemLen + 1))

def scan (kind : TagKind) (content : List UInt8) : Nat → Nat → MqQueue → Os → TagScan × MqQueue × Os :=
  tagReadLoop kind.itemLen kind.parse content

variable {kind : TagKind} {content : List UInt8} {queue : MqQueue} {os : Os}

theorem readItem_eq (kind : TagKind) (queue : MqQueue) (os : Os) : kind.readItem queue os =
      match kind.scan (os.tagContent (kind.fd queue)) ((os.tagContent (kind.fd queue)).length + 1) 1 queue os with
      | (.found line, queue, os) => (true, marked line queue, os)
      | (.noLine, queue, os) => (true, kind.fallback queue, os)
      | (.readError, queue, os) => (false, queue, os) := by
  cases kind <;> rfl

theorem scan_stop (fuel : Nat) {line : Nat} (short : ¬ kind.Reaches content line) :
    kind.scan content (fuel + 1) line queue os = (.noLine, queue, os) := by
  rw [scan, tagReadLoop, if_pos]
  simp only [Reaches] at short
  omega

theorem window_length {line : Nat} (first : 1 ≤ line) (reaches : kind.Reaches content line) :
    kind.itemLen + 1 ≤ (kind.window content line).length := by
  have bound := reaches.1
  have one : 1 * (kind.itemLen + 1) ≤ line * (kind.itemLen + 1) := Nat.mul_le_mul_right _ first
  simp only [window, length_take, length_drop]
  omega

theorem scan_turn (fuel : Nat) {line : Nat} (first : 1 ≤ line) (reaches : kind.Reaches content line) :
    kind.scan content (fuel + 1) line queue os =
      if os.faults os.calls then (.readError, queue, os.tick)
      else match kind.parse queue (tokens 10 (kind.window content line)) with
        | (true, queue) => (.found line, queue, os.tick)
        | (false, queue) => kind.scan content fuel (line + 1) queue os.tick := by
  rw [scan, tagReadLoop, if_neg (by have := reaches.1; have := reaches.2; omega)]
  have long := window_length first reaches
  simp only [window] at long
  cases granted : os.faults os.calls with
  | true => simp [Os.attempt, granted]
  | false =>
    simp only [Os.attempt, granted, Bool.not_false, ↓reduceIte, if_pos long, Bool.false_eq_true]
    rfl

theorem scan_accept (fuel : Nat) {line : Nat} {parsed : MqQueue} (reliable : os.Reliable) (first : 1 ≤ line)
    (reaches : kind.Reaches content line)
    (accepted : kind.parse queue (tokens 10 (kind.window content line)) = (true, parsed)) :
    kind.scan content (fuel + 1) line queue os = (.found line, parsed, os.tick) := by
  rw [scan_turn fuel first reaches, reliable os.calls, accepted]
  rfl

theorem scan_reject (fuel : Nat) {line : Nat} {left : MqQueue} (reliable : os.Reliable) (first : 1 ≤ line)
    (reaches : kind.Reaches content line)
    (rejected : kind.parse queue (tokens 10 (kind.window content line)) = (false, left)) :
    kind.scan content (fuel + 1) line queue os = kind.scan content fuel (line + 1) left os.tick := by
  rw [scan_turn fuel first reaches, reliable os.calls, rejected]
  rfl

theorem line_length (kind : TagKind) (queue : MqQueue) : (kind.line queue).length = kind.itemLen + 1 := by
  cases kind with
  | rtag => exact rtagItem_length _ _
  | wtag => exact wtagItem_length _ _ _

theorem lines_length (kind : TagKind) (states : List MqQueue) :
    (states.flatMap kind.line).length = states.length * (kind.itemLen + 1) := by
  simp [length_flatMap, line_length]

theorem parse_written (kind : TagKind) (queue : MqQueue) {last : MqQueue}
    (inside : (kind.position last).toNat ≤ 67108864) :
    ∃ parsed, kind.parse queue (tokens 10 (kind.line last)) = (true, parsed) ∧ kind.Restores parsed last := by
  cases kind with
  | rtag => exact ⟨_, parseRtagTokens_item queue last.getNum inside, rfl, rfl⟩
  | wtag => exact ⟨_, parseWtagTokens_item queue last.putNum last.maxque inside, rfl, rfl, rfl⟩

def writeAll (kind : TagKind) (states : List MqQueue) (os : Os) : Os :=
  states.foldl (fun os state => (kind.writeItem state os).2) os

theorem writeItem_eq (kind : TagKind) (queue : MqQueue) (os : Os) :
    kind.writeItem queue os = os.writeN (kind.fd queue) (kind.line queue) := by
  cases kind <;> rfl

theorem writeAll_spec {fd : Nat} {index : UInt64} (states : List MqQueue) (reliable : os.Reliable)
    (atEnd : TagAtEnd os (some fd) kind index content) (handles : ∀ state ∈ states, kind.fd state = some fd) :
    TagAtEnd (kind.writeAll states os) (some fd) kind index (content ++ states.flatMap kind.line) := by
  induction states generalizing os content with
  | nil => simpa [writeAll] using atEnd
  | cons state states ih =>
    have step : (kind.writeItem state os).2 = (os.writeN (some fd) (kind.line state)).2 := by
      rw [writeItem_eq, handles state mem_cons_self]
    have stays : (kind.writeItem state os).2.Reliable := by
      obtain ⟨_, handle, offset, append, same, opened, _⟩ := atEnd
      cases same
      rw [step, writeN_reliable _ reliable opened]
      exact reliable
    have appended := atEnd.write reliable (kind.line state)
    rw [← step] at appended
    have run := ih stays appended fun later member => handles later (mem_cons_of_mem _ member)
    simpa [writeAll, append_assoc] using run

theorem readItem_last {last : MqQueue} (reliable : os.Reliable) (front : List UInt8)
    (text : os.tagContent (kind.fd queue) = front ++ kind.line last)
    (inside : (kind.position last).toNat ≤ 67108864) (small : 0 ≤ toCInt front.length) :
    ∃ parsed, kind.readItem queue os = (true, parsed, os.tick) ∧ kind.Restores parsed last := by
  have size : (front ++ kind.line last).length - 1 * (kind.itemLen + 1) = front.length := by
    rw [length_append, line_length]
    omega
  have reaches : kind.Reaches (front ++ kind.line last) 1 := by
    refine ⟨?_, by rw [size]; exact small⟩
    rw [length_append, line_length]
    omega
  have read : kind.window (front ++ kind.line last) 1 = kind.line last := by
    rw [window, size, drop_left, take_of_length_le (by rw [line_length]; omega)]
  obtain ⟨parsed, accepted, restored⟩ := kind.parse_written queue inside
  refine ⟨parsed, ?_, restored⟩
  rw [readItem_eq, text, scan_accept _ reliable (le_refl 1) reaches (by rw [read]; exact accepted)]
  rfl

theorem readItem_stuck (short : ¬ kind.Reaches (os.tagContent (kind.fd queue)) 1) :
    kind.readItem queue os = (true, kind.fallback queue, os) := by
  rw [readItem_eq, scan_stop _ short]

theorem fallback_count (kind : TagKind) (queue : MqQueue) : kind.count (kind.fallback queue) = kind.count queue := by
  cases kind <;> rfl

theorem fallback_beside (kind : TagKind) (queue : MqQueue) : kind.Beside queue (kind.fallback queue) := by
  cases kind <;> exact ⟨rfl, rfl⟩

theorem marked_count (kind : TagKind) (line : Nat) (queue : MqQueue) :
    kind.count (marked line queue) = kind.count queue := by
  unfold marked
  split <;> cases kind <;> rfl

theorem marked_beside (kind : TagKind) (line : Nat) (queue : MqQueue) : kind.Beside queue (marked line queue) := by
  unfold marked
  split <;> cases kind <;> exact ⟨rfl, rfl⟩

theorem Restores.count {read last : MqQueue} (restored : kind.Restores read last) :
    kind.count read = kind.count last := by
  cases kind <;> exact restored.1

def reader (fd : Nat) (count : UInt64) : MqQueue :=
  { rtagFd := some fd, wtagFd := some fd, getNum := count, putNum := count }

def onlyTag (kind : TagKind) (content : List UInt8) : Os :=
  { dir := { tag := fun _ _ => some content }, fds := fun _ => some (.tag kind 1 0 true) }

theorem onlyTag_content (kind : TagKind) (content : List UInt8) (count : UInt64) :
    (onlyTag kind content).tagContent (kind.fd (reader 3 count)) = content := by
  cases kind <;> rfl

theorem reader_count (kind : TagKind) (fd : Nat) (count : UInt64) : kind.count (reader fd count) = count := by
  cases kind <;> rfl

theorem next_ne (count : UInt64) : count + 1 ≠ count := by
  intro same
  have number := congrArg UInt64.toNat same
  rw [UInt64.toNat_add] at number
  have bound := count.toNat_lt
  simp only [UInt64.reduceToNat] at number
  omega

end TagKind

/-- The last numbers are read back iff the last offset is a natural `int`. -/
theorem tag_roundTrip (kind : TagKind) (os : Os) (fd : Nat) (index : UInt64) (content : List UInt8)
    (states : List MqQueue) (last : MqQueue) (reliable : os.Reliable)
    (atEnd : TagAtEnd os (some fd) kind index content) (handles : ∀ state ∈ states ++ [last], kind.fd state = some fd)
    (inside : (kind.position last).toNat ≤ maxDbFileSize) : (∀ queue system, system.Reliable →
      some (system.tagContent (kind.fd queue)) = (kind.writeAll (states ++ [last]) os).dir.tag kind index →
      ∃ read after, kind.readItem queue system = (true, read, after) ∧ kind.Restores read last) ↔
    0 ≤ toCInt (content.length + states.length * (kind.itemLen + 1)) := by
  have written := (TagKind.writeAll_spec (states ++ [last]) reliable atEnd handles).1
  have lines : states.flatMap kind.line ++ kind.line last = (states ++ [last]).flatMap kind.line := by simp
  rw [← lines, ← append_assoc] at written
  have size : (content ++ states.flatMap kind.line).length =
      content.length + states.length * (kind.itemLen + 1) := by
    rw [length_append, TagKind.lines_length]
  rw [written, ← size]
  generalize content ++ states.flatMap kind.line = front
  constructor
  · intro restores
    by_contra negative
    -- The scan does not start, so a queue that held another count keeps it.
    have text := TagKind.onlyTag_content kind (front ++ kind.line last) (kind.count last + 1)
    obtain ⟨read, after, run, restored⟩ := restores (TagKind.reader 3 (kind.count last + 1))
      (TagKind.onlyTag kind _) (fun _ => rfl) (by rw [text])
    rw [TagKind.readItem_stuck] at run
    · cases run
      have same := restored.count
      rw [TagKind.fallback_count, TagKind.reader_count] at same
      exact TagKind.next_ne _ same
    · rw [text]
      rintro ⟨_, positive⟩
      rw [length_append, TagKind.line_length, Nat.one_mul, Nat.add_sub_cancel] at positive
      exact negative positive
  · intro small queue system systemReliable text
    obtain ⟨read, run, restored⟩ :=
      TagKind.readItem_last systemReliable _ (Option.some.inj text) inside small
    exact ⟨read, _, run, restored⟩

theorem onlyTag_atEnd (kind : TagKind) : TagAtEnd (TagKind.onlyTag kind []) (some 3) kind 1 [] :=
  ⟨rfl, 3, 0, true, rfl, rfl, by simp⟩

theorem tag_roundTrip_two : ∃ read after,
      mqSmWtagReadItem (TagKind.reader 3 0) (TagKind.onlyTag .wtag (wtagItem 6 141 9 ++ wtagItem 7 154 9)) =
        (true, read, after) ∧ read.putNum = 7 ∧ read.curWdb.pos = 154 ∧ read.maxque = 9 := by
  have restored := (tag_roundTrip .wtag (TagKind.onlyTag .wtag []) 3 1 []
    [{ wtagFd := some 3, putNum := 6, curWdb := { pos := 141 }, maxque := 9 }]
    { wtagFd := some 3, putNum := 7, curWdb := { pos := 154 }, maxque := 9 } (fun _ => rfl)
    (onlyTag_atEnd .wtag) (by simp [TagKind.fd]) (by decide)).mpr (by decide)
  exact restored (TagKind.reader 3 0) (TagKind.onlyTag .wtag (wtagItem 6 141 9 ++ wtagItem 7 154 9))
    (fun _ => rfl) (by decide)

theorem writeAll_beyond (count : Nat) (negative : toCInt (count * 31) < 0) : ∃ states last, states.length = count ∧
      (∀ state ∈ states ++ [last], state.rtagFd = some 3 ∧ state.curRdb.pos.toNat ≤ maxDbFileSize) ∧ last.getNum = 7 ∧
      ∃ system, system.Reliable ∧ some (system.tagContent (some 3)) =
          (TagKind.rtag.writeAll (states ++ [last]) (TagKind.onlyTag .rtag [])).dir.tag .rtag 1 ∧
        (mqSmRtagReadItem (TagKind.reader 3 0) system).2.1.getNum = 0 := by
  obtain ⟨state, handle, pos, seven⟩ : ∃ state : MqQueue, state.rtagFd = some 3 ∧
      state.curRdb.pos.toNat ≤ maxDbFileSize ∧ state.getNum = 7 :=
    ⟨{ rtagFd := some 3, getNum := 7 }, rfl, by decide, rfl⟩
  have one : ∀ other ∈ List.replicate count state ++ [state], other = state := by
    intro other member
    rcases mem_append.mp member with early | late
    · exact eq_of_mem_replicate early
    · exact mem_singleton.mp late
  have written := (@TagKind.writeAll_spec .rtag [] (TagKind.onlyTag .rtag []) 3 1 _ (fun _ => rfl)
    (onlyTag_atEnd .rtag) (fun other member => by rw [one other member]; exact handle)).1
  refine ⟨List.replicate count state, state, length_replicate,
    fun other member => by rw [one other member]; exact ⟨handle, pos⟩, seven,
    TagKind.onlyTag .rtag (([] : List UInt8) ++ (List.replicate count state ++ [state]).flatMap TagKind.rtag.line),
    fun _ => rfl, written.symm, ?_⟩
  have stuck := @TagKind.readItem_stuck .rtag (TagKind.reader 3 0)
    (TagKind.onlyTag .rtag (([] : List UInt8) ++ (List.replicate count state ++ [state]).flatMap TagKind.rtag.line))
  rw [TagKind.onlyTag_content] at stuck
  have run := stuck fun reaches => by
    have positive := reaches.2
    have size : (count + 1) * (TagKind.rtag.itemLen + 1) - 1 * (TagKind.rtag.itemLen + 1) = count * 31 := by
      rw [← Nat.sub_mul, Nat.add_sub_cancel, TagKind.itemLen, rtagItemLen]
    rw [nil_append, TagKind.lines_length, length_append, length_replicate, length_singleton,
      size] at positive
    omega
  exact congrArg (fun result => result.2.1.getNum) run

theorem tag_roundTrip_beyond : ∃ states last, states.length = 69273667 ∧
      (∀ state ∈ states ++ [last], state.rtagFd = some 3 ∧ state.curRdb.pos.toNat ≤ maxDbFileSize) ∧ last.getNum = 7 ∧
      ∃ system, system.Reliable ∧ some (system.tagContent (some 3)) =
          (TagKind.rtag.writeAll (states ++ [last]) (TagKind.onlyTag .rtag [])).dir.tag .rtag 1 ∧
        (mqSmRtagReadItem (TagKind.reader 3 0) system).2.1.getNum = 0 :=
  writeAll_beyond 69273667 (by decide)

namespace TagKind

def scanned (kind : TagKind) (content : List UInt8) : Nat → Nat → Option UInt64
  | 0, _ => none
  | fuel + 1, line =>
    if kind.Reaches content line then
      let lines := tokens 10 (kind.window content line)
      if kind.accepts lines then kind.noted lines
      else (scanned kind content fuel (line + 1)).or (kind.noted lines)
    else none

def lastNoted (kind : TagKind) (content : List UInt8) : Option UInt64 :=
  kind.scanned content (content.length + 1) 1

theorem scan_count {kind : TagKind} {content : List UInt8} {queue next : MqQueue} {os after : Os} {result : TagScan}
    (fuel : Nat) {line : Nat} (first : 1 ≤ line)
    (run : kind.scan content fuel line queue os = (result, next, after)) (ended : result ≠ .readError) :
    kind.count next = (kind.scanned content fuel line).getD (kind.count queue) := by
  induction fuel generalizing line queue os with
  | zero =>
    cases run
    rfl
  | succ fuel ih =>
    rw [scanned]
    by_cases reaches : kind.Reaches content line
    · rw [if_pos reaches]
      rw [scan_turn fuel first reaches] at run
      cases granted : os.faults os.calls with
      | true =>
        rw [granted] at run
        cases run
        exact absurd rfl ended
      | false =>
        have flag := kind.parse_accepts queue (tokens 10 (kind.window content line))
        have count := kind.parse_count queue (tokens 10 (kind.window content line))
        rw [granted, if_neg Bool.false_ne_true] at run
        rcases parsed : kind.parse queue (tokens 10 (kind.window content line)) with ⟨accepted, left⟩
        rw [parsed] at flag count run
        cases accepted with
        | true =>
          cases run
          simp only [← flag, ↓reduceIte]
          exact count
        | false =>
          simp only [← flag, Bool.false_eq_true, ↓reduceIte]
          rw [ih (by omega) run, count]
          cases kind.scanned content fuel (line + 1) <;> rfl
    · rw [scan_stop fuel reaches] at run
      cases run
      rw [if_neg reaches]
      rfl

theorem readItem_ended {kind : TagKind} {queue next : MqQueue} {os after : Os} {result : TagScan}
    (run : kind.scan (os.tagContent (kind.fd queue)) ((os.tagContent (kind.fd queue)).length + 1) 1 queue os =
      (result, next, after)) (ended : result ≠ .readError) :
    ∃ read, kind.readItem queue os = (true, read, after) ∧ kind.count read = kind.count next := by
  rw [readItem_eq, run]
  cases result with
  | found line => exact ⟨_, rfl, marked_count kind line next⟩
  | noLine => exact ⟨_, rfl, fallback_count kind next⟩
  | readError => exact absurd rfl ended

theorem readItem_count {kind : TagKind} {queue next : MqQueue} {os after : Os}
    (run : kind.readItem queue os = (true, next, after)) :
    kind.count next = (kind.lastNoted (os.tagContent (kind.fd queue))).getD (kind.count queue) := by
  rcases ended : kind.scan (os.tagContent (kind.fd queue)) ((os.tagContent (kind.fd queue)).length + 1) 1 queue os
    with ⟨result, left, last⟩
  by_cases failed : result = .readError
  · rw [readItem_eq, ended, failed] at run
    simp at run
  · obtain ⟨read, again, same⟩ := readItem_ended ended failed
    cases run.symm.trans again
    rw [same, lastNoted, scan_count _ (le_refl 1) ended failed]

theorem readItem_beside (kind : TagKind) (queue : MqQueue) (os : Os) :
    kind.Beside queue (kind.readItem queue os).2.1 ∧ os.SameHandles (kind.readItem queue os).2.2 ∧
      (kind.readItem queue os).2.2.dir = os.dir := by
  obtain ⟨result, next, after, loop, beside, _, handles, dir⟩ :=
    @tagReadLoop_spec kind.itemLen kind.parse (kind.Beside queue) (fun _ => True)
      (os.tagContent (kind.fd queue))
      (fun now lines kept => ⟨kept.trans (kind.parse_beside now lines), fun _ => trivial⟩)
      ((os.tagContent (kind.fd queue)).length + 1) 1 queue os (Beside.refl kind queue)
  rw [readItem_eq, scan, loop]
  cases result with
  | found line => exact ⟨beside.trans (marked_beside kind line next), handles, dir⟩
  | noLine => exact ⟨beside.trans (fallback_beside kind next), handles, dir⟩
  | readError => exact ⟨beside, handles, dir⟩

end TagKind

theorem tagContent_opened (os : Os) (handle : Nat) : os.tagContent (some handle) =
      match os.opened handle with
      | some (.tag kind index) => (os.dir.tag kind index).getD []
      | _ => [] := by
  rw [Os.tagContent, Option.bind_some, Os.opened]
  cases os.fds handle with
  | none => rfl
  | some file => cases file <;> rfl

theorem tagContent_same {os after : Os} (handles : os.SameHandles after) (dir : after.dir = os.dir) (fd : Fd) :
    after.tagContent fd = os.tagContent fd := by
  cases fd with
  | none => rfl
  | some handle => rw [tagContent_opened, tagContent_opened, handles.opened, dir]

structure Unchanged (before after : MqQueue) : Prop where
  getNum : after.getNum = before.getNum
  putNum : after.putNum = before.putNum
  rpos : after.curRdb.pos = before.curRdb.pos
  wpos : after.curWdb.pos = before.curWdb.pos
  maxque : after.maxque = before.maxque

theorem Unchanged.count {before after : MqQueue} (same : Unchanged before after) (kind : TagKind) :
    kind.count after = kind.count before := by
  cases kind with
  | rtag => exact same.getNum
  | wtag => exact same.putNum

namespace TagKind

def reached (kind : TagKind) (content : List UInt8) : List Nat :=
  (List.range' 1 (content.length + 1)).takeWhile fun line => kind.Reaches content line

def NoneAccepted (kind : TagKind) (content : List UInt8) : Prop :=
  ∀ line ∈ kind.reached content, kind.accepts (tokens 10 (kind.window content line)) = false

/-- The count noted by the window farthest from the end of the file that notes one. -/
def leftCount (kind : TagKind) (content : List UInt8) : UInt64 :=
  ((kind.reached content).reverse.findSome? fun line => kind.noted (tokens 10 (kind.window content line))).getD 0

theorem scanned_rejected {kind : TagKind} {content : List UInt8} {fuel line : Nat}
    (rejected : ∀ other ∈ (List.range' line fuel).takeWhile fun line => kind.Reaches content line,
      kind.accepts (tokens 10 (kind.window content other)) = false) :
    kind.scanned content fuel line =
      ((List.range' line fuel).takeWhile fun line => kind.Reaches content line).reverse.findSome?
        fun line => kind.noted (tokens 10 (kind.window content line)) := by
  induction fuel generalizing line with
  | zero => rfl
  | succ fuel ih =>
      rw [range'_succ] at rejected ⊢
      rw [scanned, takeWhile_cons]
      by_cases reaches : kind.Reaches content line
      · rw [takeWhile_cons_of_pos (by simpa using reaches), forall_mem_cons] at rejected
        simp only [reaches, ↓reduceIte, decide_true, rejected.1, Bool.false_eq_true, ih rejected.2, reverse_cons,
          findSome?_append, findSome?_singleton]
      · simp [reaches]

end TagKind

def bothTags (rtag wtag : List UInt8) : Os :=
  { dir := { tag := fun kind _ => match kind with | .rtag => some rtag | .wtag => some wtag }
    fds := fun fd => if fd = 3 then some (.tag .rtag 1 0 true) else some (.tag .wtag 1 0 true) }

end Libucmq
