import Libucmq.Library.CString
import Libucmq.Library.Machine
import Libucmq.Http.Handle

/-! The connections of the HTTP build: their nodes, the API lookup and the callbacks. -/

namespace Libucmq.Http

open Net CString

variable {parser : HttpParser}

structure ApiEntry where
  type : UInt8
  name : List UInt8
  text : 0 ∉ name
deriving DecidableEq, Repr

def bit8TaskTypeAlone : UInt8 := 76
def bit8TaskTypeWhole : UInt8 := 72

def swiftHttpApiLookup (apis : List ApiEntry) (api : List UInt8) (len : Nat) : Option ApiEntry :=
  apis.find? fun entry => sameUpTo (max len entry.name.length) entry.name api

def httpRespInfo : List String := [
  "HTTP/1.1 200 OK\r\nServer: nginx/1.4.2\r\nContent-Type: text/html\r\nConnection: close\r\n\r\n",
  "HTTP/1.1 200 OK\r\nServer: nginx/1.4.2\r\nContent-Type: text/html\r\nConnection: Keep-Alive\r\n\r\n",
  "HTTP/1.1 400 Not Found\r\nServer: nginx/1.4.2\r\nContent-Type: text/html\r\nContent-Length: 168\r\n" ++
    "Connection: close\r\n\r\n<html>\r\n<head><title>404 Not Found</title></head>\r\n" ++
    "<body bgcolor=\"white\">\r\n<center><h1>404 Not Found</h1></center>\r\n" ++
    "<hr><center>nginx/1.4.2</center>\r\n</body>\r\n</html>\r\n",
  "HTTP/1.1 413 Request Entity Too Large\r\nServer: nginx/1.4.2\r\nContent-Type: text/html\r\n" ++
    "Content-Length: 198\r\nConnection: close\r\n\r\n" ++
    "<html>\r\n<head><title>413 Request Entity Too Large</title></head>\r\n" ++
    "<body bgcolor=\"white\">\r\n<center><h1>413 Request Entity Too Large</h1></center>\r\n" ++
    "<hr><center>nginx/1.4.2</center>\r\n</body>\r\n</html>\r\n",
  "HTTP/1.1 500 Internal Server Error\r\nServer: nginx/1.4.2\r\nContent-Type: text/html\r\n" ++
    "Content-Length: 192\r\nConnection: close\r\n\r\n" ++
    "<html>\r\n<head><title>500 Internal Server Error</title></head>\r\n" ++
    "<body bgcolor=\"white\">\r\n<center><h1>500 Internal Server Error</h1></center>\r\n" ++
    "<hr><center>nginx/1.4.2</center>\r\n</body>\r\n</html>\r\n",
  "HTTP/1.1 503 Service Unavailable\r\nServer: nginx/1.4.2\r\nContent-Type: text/html\r\n" ++
    "Content-Length: 180\r\nConnection: close\r\n\r\n" ++
    "<html>\r\n<head><title>503 Service Unavailable</title></head>\r\n" ++
    "<body bgcolor=\"white\">\r\n<center><h1>503 Service Unavailable</h1></center>\r\n" ++
    "<hr><center>nginx/1.4.2</center>\r\n</body>\r\n</html>\r\n"]

def httpRespText (code : Nat) (keepAlive : Bool) : List UInt8 :=
  ascii (httpRespInfo.getD (match code with
    | 200 => if keepAlive then 1 else 0
    | 400 => 2
    | 413 => 3
    | 500 => 4
    | _ => 5) "")

def httpResponse (node : DataNode parser) (code : Nat) : DataNode parser :=
  if node.send.getSize > 0 then node
  else { node with send := (cacheAdd true node.send (httpRespText code node.hs.shouldKeepAlive)).2 }

/-- What is waited for; `none` is `NO_WORKING`, `stopped` is for good. -/
inductive Watch
  | none | recv | task | send | stopped
deriving DecidableEq, Repr

structure Chunk where
  bytes : List UInt8
  nonempty : bytes ≠ []
  bounded : bytes.length ≤ maxDefLen

inductive NetEvent
  | accept
  | recv (chunk : Chunk) (granted : Bool)
  | recvEnd
  | recvAgain
  | recvError
  | taskDone (reply : List UInt8) (failed : Bool)
  | send (sent : Option Nat)

inductive HttpOutcome
  | none
  | wait
  | answer (code : Nat)
  | call (entry : ApiEntry) (pathOffset pathLen bodyOffset bodySize : Nat)
  | replied
  | kept
  | closed
deriving DecidableEq, Repr

structure Slot (parser : HttpParser) where
  addr : Option (DataNode parser)
  watch : Watch

def getPoolAddr (slot : Slot parser) : DataNode parser := slot.addr.getD {}

def delPoolAddr (fd : Nat) (node : DataNode parser) : Slot parser :=
  { addr := if fd ≥ maxConnect then none else some node, watch := .none }

def sendError (node : DataNode parser) (control : Control) (code : Nat) : Slot parser × HttpOutcome :=
  let node := httpResponse node code
  ({ addr := some { node with control, hs := { node.hs with step := 0 }, recv := cacheFree node.recv }
     watch := .send }, .answer code)

def recvBroken (fd : Nat) (node : DataNode parser) : Slot parser × HttpOutcome :=
  (delPoolAddr fd { node with hs := { node.hs with step := 0 }, recv := cacheFree node.recv, control := .doneOk },
    .closed)

def requestDone (apis : List ApiEntry) (node : DataNode parser) : Slot parser × HttpOutcome :=
  if node.hs.err ≠ 0 then sendError node .parseError 503
  else
    match swiftHttpApiLookup apis (node.recv.data.drop node.hs.pathOffset) node.hs.pathOffset with
    | none => sendError node .requestError 400
    | some entry =>
      let watch := if entry.type = bit8TaskTypeAlone ∨ entry.type = bit8TaskTypeWhole then .task else .stopped
      ({ addr := some { node with hs := { node.hs with step := 0 } }, watch },
        .call entry node.hs.pathOffset node.hs.pathLen node.hs.bodyOffset node.hs.bodySize)

def handleDone (apis : List ApiEntry) : Except Fault (Bool × DataNode parser) →
    Except Fault (Slot parser × HttpOutcome)
  | .error fault => .error fault
  | .ok (false, node) => .ok ({ addr := some node, watch := .recv }, .wait)
  | .ok (true, node) => .ok (requestDone apis node)

def recvData (apis : List ApiEntry) (node : DataNode parser) (chunk : Chunk) (granted : Bool) :
    Except Fault (Slot parser × HttpOutcome) :=
  let (control, recv) := netRecv granted node.recv chunk.bytes
  let node := { node with recv, control }
  match control with
  | .mallocFailed => .ok (sendError node control 500)
  | .dataTooLarge => .ok (sendError node control 413)
  | _ => handleDone apis (httpHandle node)

def taskHandle (node : DataNode parser) (reply : List UInt8) (failed : Bool) : Slot parser × HttpOutcome :=
  let node := { node with send := if reply = [] then node.send else (cacheAdd true node.send reply).2 }
  let node := httpResponse node (if failed then 500 else 200)
  ({ addr := some { node with
       control := if failed then .executeError else .doneOk
       recv := cacheFree node.recv }
     watch := .send }, .replied)

def sendCb (fd : Nat) (node : DataNode parser) (sent : Option Nat) : Slot parser × HttpOutcome :=
  let (left, control, send) := netSend node.send node.control sent
  let node := { node with send, control }
  let broken := left = some 0 ∧ (control ≠ .doneOk ∨ node.hs.shouldKeepAlive = false)
  let freed := { node with send := cacheFree node.send, control := .doneOk }
  if left.getD 0 > 0 then ({ addr := some node, watch := .send }, .wait)
  else if broken then (delPoolAddr fd freed, .closed)
  else ({ addr := some freed, watch := .recv }, .kept)

def slotStep (apis : List ApiEntry) (fd : Nat) (slot : Slot parser) (event : NetEvent) :
    Except Fault (Slot parser × HttpOutcome) :=
  let node := getPoolAddr slot
  match slot.watch, event with
  | .none, .accept =>
    if fd ≥ maxLimitFd then .ok (slot, .closed) else .ok ({ addr := some node, watch := .recv }, .none)
  | .recv, .recv chunk granted => recvData apis node chunk granted
  | .recv, .recvEnd => .ok (recvBroken fd node)
  | .recv, .recvError => .ok (recvBroken fd node)
  | .task, .taskDone reply failed => .ok (taskHandle node reply failed)
  | .send, .send sent => .ok (sendCb fd node sent)
  | _, _ => .ok (slot, .none)

abbrev Pool (parser : HttpParser) := Nat → Slot parser

def poolsInit (parser : HttpParser) : Pool parser := fun fd =>
  { addr := if fd < maxConnect then some {} else none, watch := .none }

def poolStep (apis : List ApiEntry) : Pool parser → Nat × NetEvent → Except Fault (Pool parser × HttpOutcome) :=
  Machine.family (slotStep apis)

end Libucmq.Http
