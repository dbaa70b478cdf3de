import Libucmq.Store.Queue

/-! What the calls on a queue leave alone. -/

namespace Libucmq

variable {α : Type}

def OffRead (field : MqQueue → α) : Prop :=
  ∀ (queue : MqQueue) rtagFd curRdb getNum putNum,
    field { queue with rtagFd, curRdb, getNum, putNum } = field queue

def OffFiles (field : MqQueue → α) : Prop :=
  ∀ (queue : MqQueue) curRdb curWdb getNum putNum maxque, curWdb.optCount = queue.curWdb.optCount →
    field { queue with curRdb, curWdb, getNum, putNum, maxque } = field queue

theorem offRead_curWdb : OffRead MqQueue.curWdb := fun _ _ _ _ _ => rfl

theorem offRead_syncIntv : OffRead MqQueue.syncIntv := fun _ _ _ _ _ => rfl

theorem offFiles_syncIntv : OffFiles MqQueue.syncIntv := fun _ _ _ _ _ _ _ => rfl

theorem offFiles_optCount : OffFiles fun queue => queue.curWdb.optCount := fun _ _ _ _ _ _ same => same

variable {field : MqQueue → α}

namespace OffRead

theorem nextReadFile (off : OffRead field) (queue : MqQueue) (os : Os) :
    field (getNextReadFile queue os).2.1 = field queue := by
  simp only [getNextReadFile]
  split
  · exact off _ _ _ _ _
  · split
    · exact off _ _ _ _ _
    · split
      · exact off _ _ _ _ _
      · split <;> exact off _ _ _ _ _

def Same (field : MqQueue → α) (start : α) : GetState ⊕ GetResult → Prop :=
  Loop.After (fun next => field next.queue = start)
    fun result => ∀ found final, result = .ok (found, final) → field final.queue = start

theorem nextFile (off : OffRead field) {start : α} (state : GetState) (same : field state.queue = start) :
    Same field start (getDataNextFile state) := by
  have kept := (off.nextReadFile state.queue state.os).trans same
  rw [getDataNextFile]
  split
  · rename_i nextEq
    rw [nextEq] at kept
    exact kept
  · rename_i nextEq
    rw [nextEq] at kept
    rintro found final ⟨⟩
    exact kept

theorem getDataStep (off : OffRead field) {start : α} (state : GetState) (same : field state.queue = start) :
    Same field start (getDataStep state) := by
  rw [Libucmq.getDataStep]
  split
  · rintro found final ⟨⟩
    exact (off _ _ _ _ _).trans same
  · split
    · rintro found final ⟨⟩
    · split
      · rintro found final ⟨⟩
        rw [GetState.take]
        split <;> exact (off _ _ _ _ _).trans same
      · exact (off _ _ _ _ _).trans same
      · exact (off _ _ _ _ _).trans same
      · exact (off _ _ _ _ _).trans same
      · exact off.nextFile _ same
      · exact off.nextFile _ same

theorem getData (off : OffRead field) {item : MsgItem} {queue : MqQueue} {os : Os} {found : Bool}
    {state : GetState} (returned : mqSmGetData item queue os = .ok (found, state)) :
    field state.queue = field queue := by
  rw [mqSmGetData] at returned
  cases ran : Loop.run Libucmq.getDataStep (getDataFuel queue) { item, queue, os } with
  | none => simp [ran] at returned
  | some result =>
    rw [ran] at returned
    exact Loop.run_invariant (fun state same => off.getDataStep state same) rfl ran found state returned

theorem popItem (off : OffRead field) {item got : MsgItem} {queue next : MqQueue} {os after : Os}
    {ret : QueueGetRet} (returned : mqQmPopItem queue os item = .ok (ret, got, next, after)) :
    field next = field queue := by
  rw [mqQmPopItem] at returned
  split at returned
  · cases returned
    rfl
  · split at returned
    · cases returned
    · rename_i dataEq
      cases returned
      exact off.getData dataEq
    · rename_i dataEq
      cases returned
      exact off.getData dataEq

end OffRead

namespace OffFiles

theorem parseRtagTokens (off : OffFiles field) (queue : MqQueue) (tokens : List (List UInt8)) :
    field (parseRtagTokens queue tokens).2 = field queue := by
  induction tokens generalizing queue with
  | nil => rfl
  | cons token rest ih =>
    simp only [Libucmq.parseRtagTokens]
    split
    · split
      · rfl
      · split
        · exact off _ _ _ _ _ _ rfl
        · split
          · exact (ih _).trans (off _ _ _ _ _ _ rfl)
          · exact off _ _ _ _ _ _ rfl
    · exact ih queue

theorem parseWtagTokens (off : OffFiles field) (queue : MqQueue) (tokens : List (List UInt8)) :
    field (parseWtagTokens queue tokens).2 = field queue := by
  induction tokens generalizing queue with
  | nil => rfl
  | cons token rest ih =>
    simp only [Libucmq.parseWtagTokens]
    split
    · split
      · rfl
      · split
        · exact off _ _ _ _ _ _ rfl
        · split
          · exact off _ _ _ _ _ _ rfl
          · split
            · exact (ih _).trans (off _ _ _ _ _ _ rfl)
            · exact off _ _ _ _ _ _ rfl
    · exact ih queue

theorem tagReadLoop {itemLen : Nat} {parse : MqQueue → List (List UInt8) → Bool × MqQueue}
    (parses : ∀ queue tokens, field (parse queue tokens).2 = field queue) {content : List UInt8}
    (fuel line : Nat) (queue : MqQueue) (os : Os) :
    field (tagReadLoop itemLen parse content fuel line queue os).2.1 = field queue := by
  induction fuel generalizing line queue os with
  | zero => rfl
  | succ fuel ih =>
    simp only [Libucmq.tagReadLoop]
    split
    · rfl
    · split
      · split
        · have kept := parses queue (CString.tokens 10
            ((content.drop (content.length - line * (itemLen + 1))).take (2 * (itemLen + 1))))
          split
          · rename_i parseEq
            rwa [parseEq] at kept
          · rename_i parseEq
            rw [parseEq] at kept
            exact (ih _ _ _).trans kept
        · exact ih _ _ _
      · rfl

theorem rtagReadItem (off : OffFiles field) (queue : MqQueue) (os : Os) :
    field (mqSmRtagReadItem queue os).2.1 = field queue := by
  have kept := @tagReadLoop _ field rtagItemLen _ off.parseRtagTokens (os.tagContent queue.rtagFd)
    ((os.tagContent queue.rtagFd).length + 1) 1 queue os
  simp only [mqSmRtagReadItem]
  split <;> rename_i readEq <;> rw [readEq] at kept
  · split
    · refine (off _ _ _ _ _ _ ?_).trans kept
      rfl
    · exact kept
  · refine (off _ _ _ _ _ _ ?_).trans kept
    rfl
  · exact kept

theorem wtagReadItem (off : OffFiles field) (queue : MqQueue) (os : Os) :
    field (mqSmWtagReadItem queue os).2.1 = field queue := by
  have kept := @tagReadLoop _ field wtagItemLen _ off.parseWtagTokens (os.tagContent queue.wtagFd)
    ((os.tagContent queue.wtagFd).length + 1) 1 queue os
  simp only [mqSmWtagReadItem]
  split <;> rename_i readEq <;> rw [readEq] at kept
  · split
    · refine (off _ _ _ _ _ _ ?_).trans kept
      rfl
    · exact kept
  · refine (off _ _ _ _ _ _ ?_).trans kept
    rfl
  · exact kept

theorem openDb (off : OffFiles field) (queue : MqQueue) (handle : Handle) (os : Os) :
    field (mqSmOpenDb queue handle os).2.1 = field queue := by
  simp only [mqSmOpenDb]
  split
  · split
    · exact off _ _ _ _ _ _ rfl
    · split
      · exact off _ _ _ _ _ _ rfl
      · split
        · exact off _ _ _ _ _ _ rfl
        · split
          · exact off _ _ _ _ _ _ rfl
          · split <;> exact off _ _ _ _ _ _ rfl
  · rfl

theorem of_eq {result : Bool × MqQueue × Os} {ret : Bool} {next : MqQueue} {after : Os} {start : α}
    (kept : field result.2.1 = start) (resultEq : result = (ret, next, after)) : field next = start := by
  rw [resultEq] at kept
  exact kept

theorem openQueue (off : OffFiles field) {qname : List UInt8} {cwd : FileName → Bool}
    {listing : List FileName} {os : Os} {node : Node} {start : α}
    (fresh : ∀ rtagFd wtagFd, field { qname := qname.take maxQueueNameLen, rtagFd, wtagFd } = start)
    (loaded : openQueue qname cwd listing os = some node) : field node.queue = start := by
  simp only [Libucmq.openQueue] at loaded
  split at loaded
  · split at loaded
    · split at loaded
      · cases loaded
      · split at loaded
        · cases loaded
        · split at loaded
          · cases loaded
          · rename_i readEq
            split at loaded
            · cases loaded
            · rename_i writeEq
              split at loaded
              · cases loaded
              · rename_i openEq
                cases loaded
                calc _ = _ := of_eq (off.openDb _ _ _) openEq
                  _ = _ := of_eq (off.wtagReadItem _ _) writeEq
                  _ = _ := of_eq (off.rtagReadItem _ _) readEq
                  _ = start := fresh _ _
    · cases loaded
  · cases loaded

end OffFiles

end Libucmq
