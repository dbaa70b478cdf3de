import Libucmq.Net.Cache

/-! The request side of `http.c`. -/

namespace Libucmq.Http

open Net

inductive HeaderElement
  | none | field | value
deriving DecidableEq, Repr

/-- `struct http_status`, zeroed by `memset`; the error 0 is `HPE_OK`. -/
structure HttpStatus where
  method : Nat := 0
  numHeaders : Nat := 0
  urlOffset : Nat := 0
  urlLen : Nat := 0
  pathOffset : Nat := 0
  uriOffset : Nat := 0
  pathLen : Nat := 0
  uriLen : Nat := 0
  bodyOffset : Nat := 0
  bodySize : Nat := 0
  lastHeaderElement : HeaderElement := .none
  err : Nat := 0
  shouldKeepAlive : Bool := false
  httpMajor : Nat := 0
  httpMinor : Nat := 0
  step : Nat := 0
  isOver : Bool := false
  dosize : Nat := 0
deriving DecidableEq, Repr

inductive ParserEvent
  | messageBegin
  | url (place length : Nat)
  | headerField
  | headerValue
  | headersComplete (method httpMajor httpMinor : Nat) (keepAlive : Bool)
  | body (place length : Nat)
  | messageComplete
deriving DecidableEq, Repr

/-- A function of state and input; `start` is what `http_parser_init` leaves. -/
structure HttpParser where
  State : Type
  start : State
  execute : State → List UInt8 → State × Nat × List ParserEvent
  upgrade : State → Bool
  errno : State → Nat

/-- `x_strstr` for one byte other than zero, among the first `size` bytes. -/
def xStrstr (bytes : List UInt8) (mark : UInt8) (size : Nat) : Option Nat :=
  match (bytes.takeWhile (· ≠ 0)).findIdx? (· = mark) with
  | some place => if place + 1 ≤ size then some place else none
  | none => none

def headersCompleteCb (buffer : List UInt8) (stat : HttpStatus) (method httpMajor httpMinor : Nat)
    (keepAlive : Bool) : HttpStatus :=
  let stat := { stat with method, httpMajor, httpMinor, shouldKeepAlive := keepAlive, pathOffset := stat.urlOffset }
  match xStrstr (buffer.drop stat.urlOffset) 63 stat.urlLen with
  | some place =>
    { stat with
      pathLen := place % 65536
      uriOffset := stat.urlOffset + place + 1
      uriLen := (stat.urlLen - place % 65536 - 1) % 65536 }
  | none => { stat with pathLen := stat.urlLen % 65536, uriOffset := 0, uriLen := 0 }

/-- The callbacks of `settings`; `base` is where the parser's input starts. -/
def callback (base : Nat) (buffer : List UInt8) (stat : HttpStatus) : ParserEvent → HttpStatus
  | .messageBegin => {}
  | .url place length =>
    let stat := if stat.urlOffset = 0 then { stat with urlOffset := base + place } else stat
    { stat with urlLen := stat.urlLen + length }
  | .headerField =>
    let stat :=
      if stat.lastHeaderElement ≠ .field then { stat with numHeaders := stat.numHeaders + 1 } else stat
    { stat with lastHeaderElement := .field }
  | .headerValue => { stat with lastHeaderElement := .value }
  | .headersComplete method httpMajor httpMinor keepAlive =>
    headersCompleteCb buffer stat method httpMajor httpMinor keepAlive
  | .body place length =>
    let stat := if stat.bodyOffset = 0 then { stat with bodyOffset := base + place } else stat
    { stat with bodySize := stat.bodySize + length }
  | .messageComplete => { stat with isOver := true }

def callbacks (base : Nat) (buffer : List UInt8) (stat : HttpStatus) (events : List ParserEvent) : HttpStatus :=
  events.foldl (callback base buffer) stat

structure DataNode (parser : HttpParser) where
  recv : NetCache := {}
  send : NetCache := {}
  control : Control := .doneOk
  hp : parser.State := parser.start
  hs : HttpStatus := {}

variable {parser : HttpParser}

def DataNode.parserUsed (node : DataNode parser) : parser.State :=
  if node.hs.dosize = 0 ∨ node.hs.step = 0 then parser.start else node.hp

def handled (node : DataNode parser) (todo : Nat) (result : parser.State × Nat × List ParserEvent) :
    Bool × DataNode parser :=
  let (hp, done, events) := result
  let stat := callbacks node.hs.dosize node.recv.data node.hs events
  let stat := { stat with step := (stat.step + 1) % 65536 }
  let stat := { stat with dosize := if stat.isOver then 0 else (stat.dosize + done) % 4294967296 }
  if parser.upgrade hp then (false, { node with hp, hs := stat })
  else if done = todo then (stat.isOver, { node with hp, hs := stat })
  else (true, { node with hp, hs := { stat with err := parser.errno hp, dosize := 0 } })

/-- If more is noted as parsed than is there, the size passed wraps around. -/
def httpHandle (node : DataNode parser) : Except Fault (Bool × DataNode parser) :=
  if node.recv.getSize < node.hs.dosize then .error .overread
  else
    let input := node.recv.data.drop node.hs.dosize
    .ok (handled node input.length (parser.execute node.parserUsed input))

end Libucmq.Http
