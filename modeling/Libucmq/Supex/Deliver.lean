import Libucmq.Http.Server

/-! The delivery of a response by `net_send` and `_swift_send_cb`. -/

namespace Libucmq.Supex

open Net List

def controlCode : Control → Int
  | .dataNoAll => 2
  | .dataIsAll => 1
  | .doneOk => 0
  | .ioError => -1
  | .dataTooLarge => -2
  | .mallocFailed => -3
  | .parseError => -4
  | .interiorError => -5
  | .requestError => -6
  | .executeError => -7
  | .requestQuit => -8
  | .kvTooMuch => -9
  | .nameTooLong => -10

inductive Build
  | http (shouldKeepAlive : Bool)
  | redis
deriving DecidableEq, Repr

def Build.broken : Build → Control → Bool
  | .http shouldKeepAlive, control => decide (control ≠ .doneOk) || !shouldKeepAlive
  | .redis, control => decide (controlCode control < 0)

inductive Connection
  | sending | closed | receiving
deriving DecidableEq, Repr

def swiftSendCb (build : Build) (send : NetCache) (control : Control) (sent : Option Nat) :
    Connection × NetCache × Control :=
  let (left, control, send) := netSend send control sent
  if left.getD 0 > 0 then (.sending, send, control)
  else if left = some 0 ∧ build.broken control = true then (.closed, cacheFree send, .doneOk)
  else (.receiving, cacheFree send, .doneOk)

theorem sendCb_eq {parser : Http.HttpParser} (fd : Nat) (node : Http.DataNode parser) (sent : Option Nat) :
    Http.sendCb fd node sent =
      match swiftSendCb (.http node.hs.shouldKeepAlive) node.send node.control sent with
      | (.sending, send, control) => ({ addr := some { node with send, control }, watch := .send }, .wait)
      | (.closed, send, control) => (Http.delPoolAddr fd { node with send, control }, .closed)
      | (.receiving, send, control) => ({ addr := some { node with send, control }, watch := .recv }, .kept) := by
  simp only [Http.sendCb, swiftSendCb]
  generalize netSend node.send node.control sent = result
  obtain ⟨left, control, send⟩ := result
  have ends : left = some 0 ∧ (control ≠ .doneOk ∨ node.hs.shouldKeepAlive = false) ↔
      left = some 0 ∧ (Build.http node.hs.shouldKeepAlive).broken control = true := by
    simp [Build.broken]
  dsimp only
  by_cases more : left.getD 0 > 0
  · rw [if_pos more, if_pos more]
  · rw [if_neg more, if_neg more, if_congr ends rfl rfl]
    split <;> rfl

inductive SendErrno
  | eagain | eintr
deriving DecidableEq, Repr

inductive SendResult
  | moved (limit : Nat)
  | failed (errno : SendErrno)
deriving DecidableEq, Repr

def SendResult.sent (left : Nat) : SendResult → Option Nat
  | .moved limit => some (min limit left)
  | .failed _ => none

def SendResult.limit : SendResult → Nat
  | .moved limit => limit
  | .failed _ => 0

def willing (results : List SendResult) : Nat := (results.map SendResult.limit).sum

structure Sender where
  send : NetCache
  control : Control
  connection : Connection := .sending
  wire : List UInt8 := []
deriving DecidableEq, Repr

def sendEvent (build : Build) (sender : Sender) (result : SendResult) : Sender :=
  match sender.connection with
  | .sending =>
    let sent := result.sent (sender.send.getSize - sender.send.outSize)
    let (connection, send, control) := swiftSendCb build sender.send sender.control sent
    { connection, send, control
      wire := sender.wire ++ (sender.send.data.drop sender.send.outSize).take (sent.getD 0) }
  | _ => sender

def sendEvents (build : Build) (sender : Sender) (results : List SendResult) : Sender :=
  results.foldl (sendEvent build) sender

def responding (maxSize : Nat) (response : List UInt8) (control : Control) : Sender :=
  { send := { maxSize, data := response }, control }

/-- Only the front is handed over; nothing is closed or freed before all is. -/
def Faithful (response : List UInt8) (sender : Sender) : Prop :=
  sender.wire <+: response ∧ (sender.connection ≠ .sending → sender.wire = response)

/-- Nothing goes wrong, and a willing system gets all of it. -/
def Delivered (build : Build) (response : List UInt8) (sender : Sender) (taken : Nat) (results : List SendResult) :
    Prop :=
  (∀ front, front <+: results → Faithful response (sendEvents build sender front)) ∧
    (response.length ≤ taken + willing results → (sendEvents build sender results).wire = response)

structure Midway (response : List UInt8) (taken : Nat) (sender : Sender) : Prop where
  sending : sender.connection = .sending
  data : sender.send.data = response
  out : sender.send.outSize = taken
  wire : sender.wire = response.take taken

section

variable {build : Build} {response : List UInt8} {taken : Nat} {sender : Sender}

theorem Midway.faithful (midway : Midway response taken sender) : Faithful response sender :=
  ⟨midway.wire ▸ take_prefix _ _, fun ended => absurd midway.sending ended⟩

theorem swiftSendCb_ends {send : NetCache} {control : Control} {sent : Option Nat}
    (nothing : (netSend send control sent).1.getD 0 = 0) : (swiftSendCb build send control sent).1 ≠ .sending := by
  simp only [swiftSendCb, nothing, gt_iff_lt, Nat.lt_irrefl, ↓reduceIte]
  split <;> exact Connection.noConfusion

theorem Midway.moved (midway : Midway response taken sender) (left : taken < response.length) (limit : Nat) :
    (taken + limit < response.length → Midway response (taken + limit) (sendEvent build sender (.moved limit))) ∧
      (response.length ≤ taken + limit → (sendEvent build sender (.moved limit)).wire = response ∧
        (sendEvent build sender (.moved limit)).connection ≠ .sending) := by
  obtain ⟨sending, data, out, wire⟩ := midway
  have unsent : sender.send.getSize ≠ sender.send.outSize := by
    rw [NetCache.getSize, data, out]
    omega
  have handed : (sendEvent build sender (.moved limit)).wire = response.take (taken + limit) := by
    simp only [sendEvent, sending, SendResult.sent, NetCache.getSize, data, out, wire, Option.getD_some]
    rw [← length_drop, ← take_eq_take_min, ← take_add]
  have count : min limit (sender.send.getSize - sender.send.outSize) = min limit (response.length - taken) := by
    rw [NetCache.getSize, data, out]
  constructor
  · intro nonempty
    have fits : min limit (response.length - taken) = limit := by omega
    have more : 0 < response.length - (taken + limit) := by omega
    simp only [sendEvent, sending, SendResult.sent, count, fits, swiftSendCb, netSend, if_pos unsent] at handed ⊢
    simp only [NetCache.getSize, data, out, Option.getD_some, gt_iff_lt, more, ↓reduceIte] at handed ⊢
    exact ⟨rfl, rfl, rfl, handed⟩
  · intro all
    refine ⟨by rw [handed, take_of_length_le all], ?_⟩
    simp only [sendEvent, sending, SendResult.sent, count]
    apply swiftSendCb_ends
    rw [netSend, if_pos unsent]
    simp only [NetCache.getSize, data, out, Option.getD_some]
    omega

theorem Midway.failed (midway : Midway response taken sender) (left : taken < response.length) (errno : SendErrno) :
    (sendEvent build sender (.failed errno)).wire ≠ response ∧
      (sendEvent build sender (.failed errno)).connection ≠ .sending := by
  obtain ⟨sending, data, out, wire⟩ := midway
  have unsent : sender.send.getSize ≠ sender.send.outSize := by
    rw [NetCache.getSize, data, out]
    omega
  simp only [sendEvent, sending, SendResult.sent, Option.getD_none, take_zero, append_nil, wire]
  refine ⟨fun whole => ?_, swiftSendCb_ends (by simp [netSend, unsent])⟩
  have length := congrArg List.length whole
  rw [length_take] at length
  omega

theorem sendEvents_ended (ended : sender.connection ≠ .sending) (results : List SendResult) :
    sendEvents build sender results = sender := by
  induction results with
  | nil => rfl
  | cons result rest ih =>
    have still : sendEvent build sender result = sender := by
      rw [sendEvent]
      split
      · rename_i sending
        exact absurd sending ended
      · rfl
    rw [sendEvents, foldl_cons, still]
    exact ih

variable {results : List SendResult}

theorem delivered_ended {next : Sender} {result : SendResult} (step : sendEvent build sender result = next)
    (before : Faithful response sender) (ended : next.connection ≠ .sending) (whole : next.wire = response) :
    Delivered build response sender taken (result :: results) := by
  have after : ∀ rest, sendEvents build sender (result :: rest) = next := by
    intro rest
    rw [sendEvents, foldl_cons, step]
    exact sendEvents_ended ended rest
  refine ⟨fun front isFront => ?_, fun _ => by rw [after, whole]⟩
  rcases prefix_cons_iff.mp isFront with rfl | ⟨rest, rfl, _⟩
  · exact before
  · rw [after]
    exact ⟨whole ▸ prefix_rfl, fun _ => whole⟩

def Undisturbed (size taken : Nat) (results : List SendResult) : Prop :=
  ∀ front errno rest, results = front ++ .failed errno :: rest → size ≤ taken + willing front

theorem undisturbed_moved {size limit : Nat} :
    Undisturbed size taken (.moved limit :: results) ↔ Undisturbed size (taken + limit) results := by
  constructor
  · intro calm front errno rest split
    have bound := calm (.moved limit :: front) errno rest (by rw [split]; rfl)
    simp only [willing, map_cons, SendResult.limit, sum_cons] at bound ⊢
    omega
  · intro calm front errno rest split
    cases front with
    | nil => cases split
    | cons first front =>
      cases split
      have bound := calm front errno rest rfl
      simp only [willing, map_cons, SendResult.limit, sum_cons] at bound ⊢
      omega

theorem delivered_moved {limit : Nat} (before : Faithful response sender) :
    Delivered build response sender taken (.moved limit :: results) ↔
      Delivered build response (sendEvent build sender (.moved limit)) (taken + limit) results := by
  have sum : taken + willing (.moved limit :: results) = taken + limit + willing results := by
    simp only [willing, map_cons, SendResult.limit, sum_cons]
    omega
  rw [Delivered, Delivered, sum]
  refine and_congr ⟨fun all front isFront => ?_, fun all front isFront => ?_⟩ Iff.rfl
  · exact all (.moved limit :: front) (prefix_cons_inj _ |>.mpr isFront)
  · rcases prefix_cons_iff.mp isFront with rfl | ⟨rest, rfl, isRest⟩
    · exact before
    · exact all rest isRest

theorem Midway.delivered_iff (midway : Midway response taken sender) (left : taken < response.length)
    (results : List SendResult) :
    Delivered build response sender taken results ↔ Undisturbed response.length taken results := by
  induction results generalizing taken sender with
  | nil =>
    refine iff_of_true ⟨fun front isFront => ?_, fun enough => ?_⟩ ?_
    · rw [prefix_nil.mp isFront]
      exact midway.faithful
    · simp only [willing, map_nil, sum_nil] at enough
      omega
    · intro front errno rest split
      simp at split
  | cons result rest ih =>
    cases result with
    | moved limit =>
      obtain ⟨more, last⟩ := @Midway.moved build _ _ _ midway left limit
      by_cases all : response.length ≤ taken + limit
      · obtain ⟨whole, ended⟩ := last all
        refine iff_of_true (delivered_ended rfl midway.faithful ended whole) ?_
        rw [undisturbed_moved]
        intro front errno later _
        omega
      · rw [delivered_moved midway.faithful, undisturbed_moved]
        exact ih (more (by omega)) (by omega)
    | failed errno =>
      obtain ⟨short, ended⟩ := @Midway.failed build _ _ _ midway left errno
      refine iff_of_false (fun delivered => ?_) (fun calm => ?_)
      · exact short ((delivered.1 [.failed errno] (prefix_append _ _)).2 ended)
      · have bound := calm [] errno rest rfl
        simp only [willing, map_nil, sum_nil] at bound
        omega

end

/-- Delivered in order and once iff `send` does not fail before the end. -/
theorem response_delivered_iff (build : Build) (maxSize : Nat) (response : List UInt8) (control : Control)
    (results : List SendResult) : Delivered build response (responding maxSize response control) 0 results ↔
      ∀ front errno rest, results = front ++ .failed errno :: rest → response.length ≤ willing front := by
  have start : Midway response 0 (responding maxSize response control) := ⟨rfl, rfl, rfl, rfl⟩
  by_cases empty : response.length = 0
  · refine iff_of_true ?_ (fun front _ _ _ => by omega)
    obtain rfl := eq_nil_of_length_eq_zero empty
    cases results with
    | nil => exact ⟨fun front isFront => prefix_nil.mp isFront ▸ start.faithful, fun _ => rfl⟩
    | cons result rest =>
      refine delivered_ended rfl start.faithful Connection.noConfusion ?_
      simp [sendEvent, responding]
  · rw [start.delivered_iff (Nat.pos_of_ne_zero empty), Undisturbed]
    simp only [Nat.zero_add]

theorem response_discarded :
    (sendEvents (.http true) (responding maxDefLen [79, 75] .doneOk) [.failed .eagain, .moved 2]).connection = .closed ∧
      (sendEvents (.http true) (responding maxDefLen [79, 75] .doneOk) [.failed .eagain, .moved 2]).wire = [] ∧
      (sendEvents .redis (responding maxDefLen [79, 75] .doneOk) [.failed .eintr, .moved 2]).connection = .closed ∧
      (sendEvents .redis (responding maxDefLen [79, 75] .doneOk) [.failed .eintr, .moved 2]).wire = [] := by
  decide

end Libucmq.Supex
