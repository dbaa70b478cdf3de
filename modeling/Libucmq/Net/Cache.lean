import Mathlib.Data.List.Basic

/-! The buffers of a connection (`net_cache.c`) and the codes in `control`. -/

namespace Libucmq.Net

def maxDefLen : Nat := 16384
def maxReqSize : Nat := 32768
def maxConnect : Nat := 20000
def maxLimitFd : Nat := 500000

inductive Control
  | dataNoAll | dataIsAll | doneOk | ioError | dataTooLarge | mallocFailed | parseError | interiorError
  | requestError | executeError | requestQuit | kvTooMuch | nameTooLong
deriving DecidableEq, Repr

inductive Fault
  | overread
deriving DecidableEq, Repr

/-- The first `get_size` bytes of the buffer; zeros follow them. -/
structure NetCache where
  maxSize : Nat := maxDefLen
  data : List UInt8 := []
  outSize : Nat := 0
deriving DecidableEq, Repr

namespace NetCache

def getSize (cache : NetCache) : Nat := cache.data.length

def byte (cache : NetCache) (pos : Nat) : UInt8 := cache.data.getD pos 0

end NetCache

def getNeedCount (idx div : Nat) : Nat := idx / div + if idx % div ≥ 1 then 1 else 0

def cacheAdd (granted : Bool) (cache : NetCache) (bytes : List UInt8) : Control × NetCache :=
  let allSize := cache.getSize + bytes.length
  if cache.maxSize < allSize then
    let cache := { cache with maxSize := getNeedCount allSize maxDefLen * maxDefLen }
    if granted then (.doneOk, { cache with data := cache.data ++ bytes }) else (.mallocFailed, cache)
  else (.doneOk, { cache with data := cache.data ++ bytes })

def cacheFree (_cache : NetCache) : NetCache := {}

/-- After `recv`; `g_max_req_size` is never below `MAX_REQ_SIZE`. -/
def netRecv (granted : Bool) (cache : NetCache) (bytes : List UInt8) : Control × NetCache :=
  if maxReqSize < cache.getSize + bytes.length then (.dataTooLarge, cache) else cacheAdd granted cache bytes

/-- What is left to send; `sent` is what `send` returns, `none` an error. -/
def netSend (cache : NetCache) (control : Control) (sent : Option Nat) : Option Nat × Control × NetCache :=
  if cache.getSize ≠ cache.outSize then
    match sent with
    | none => (some 0, .ioError, cache)
    | some count =>
      let cache := { cache with outSize := cache.outSize + count }
      (some (cache.getSize - cache.outSize), control, cache)
  else (none, control, cache)

@[simp] theorem cacheFree_eq (cache : NetCache) : cacheFree cache = {} := rfl

variable {bytes : List UInt8}

theorem cacheAdd_small {granted : Bool} {cache : NetCache} (fits : cache.getSize + bytes.length ≤ cache.maxSize) :
    cacheAdd granted cache bytes = (.doneOk, { cache with data := cache.data ++ bytes }) := by
  rw [cacheAdd, if_neg (Nat.not_lt.mpr fits)]

theorem cacheAdd_data {granted : Bool} {cache next : NetCache}
    (added : cacheAdd granted cache bytes = (.doneOk, next)) : next.data = cache.data ++ bytes := by
  rw [cacheAdd] at added
  split_ifs at added
  · cases added
    rfl
  · cases added
  · cases added
    rfl

theorem netRecv_doneOk {granted : Bool} {cache next : NetCache}
    (received : netRecv granted cache bytes = (.doneOk, next)) :
    next.data = cache.data ++ bytes ∧ next.data.length ≤ maxReqSize := by
  rw [netRecv] at received
  split_ifs at received with large
  · cases received
  · have kept := cacheAdd_data received
    rw [kept, List.length_append]
    exact ⟨rfl, Nat.not_lt.mp large⟩

theorem netRecv_first (granted : Bool) (bound : bytes.length ≤ maxDefLen) :
    netRecv granted {} bytes = (.doneOk, { data := bytes }) := by
  have inside : ¬ maxReqSize < NetCache.getSize {} + bytes.length := by
    simp only [NetCache.getSize, List.length_nil, maxReqSize, maxDefLen] at *
    omega
  rw [netRecv, if_neg inside, cacheAdd_small (by simpa [NetCache.getSize] using bound)]
  rfl

end Libucmq.Net
