import Libucmq.Library.CString
import Libucmq.Store.Core

/-! The tag files of `mq_store_rtag.c` and `mq_store_wtag.c`. -/

namespace Libucmq

open Decimal

def rtagItemLen : Nat := 30
def wtagItemLen : Nat := 40

def rtagItem (getNum : UInt64) (pos : UInt32) : List UInt8 :=
  Decimal.padded 20 getNum.toNat ++ Decimal.padded 10 pos.toNat ++ [10]

def wtagItem (putNum : UInt64) (pos maxque : UInt32) : List UInt8 :=
  Decimal.padded 20 putNum.toNat ++ Decimal.padded 10 pos.toNat ++
    Decimal.padded 10 maxque.toNat ++ [10]

theorem rtagItem_length (getNum : UInt64) (pos : UInt32) : (rtagItem getNum pos).length = 31 := by
  have numBound := getNum.toNat_lt
  have posBound := pos.toNat_lt
  rw [rtagItem, padded_of_fits (by omega) (by omega),
    padded_of_fits (by omega) (by omega)]
  simp

theorem wtagItem_length (putNum : UInt64) (pos maxque : UInt32) : (wtagItem putNum pos maxque).length = 41 := by
  have numBound := putNum.toNat_lt
  have posBound := pos.toNat_lt
  have maxBound := maxque.toNat_lt
  rw [wtagItem, padded_of_fits (by omega) (by omega),
    padded_of_fits (by omega) (by omega), padded_of_fits (by omega) (by omega)]
  simp

def mqSmRtagWriteItem (queue : MqQueue) (os : Os) : Bool × Os :=
  os.writeN queue.rtagFd (rtagItem queue.getNum queue.curRdb.pos)

def mqSmWtagWriteItem (queue : MqQueue) (os : Os) : Bool × Os :=
  os.writeN queue.wtagFd (wtagItem queue.putNum queue.curWdb.pos queue.maxque)

def mqSmTagOpenNextFile (kind : TagKind) (index : UInt64) (os : Os) : Fd × Os :=
  os.openTag kind index true false

def mqSmTagOpenFile (kind : TagKind) (index : UInt64) (os : Os) : Fd × Os :=
  match os.dir.tag kind index with
  | some content =>
    if toCInt content.length ≤ 0 then (none, os) else os.openTag kind index false true
  | none => (none, os)

def mqSmTagCloseFile (fd : Fd) (os : Os) : Os := os.close fd

def strToNum : UInt64 → List UInt8 → Option UInt64
  | num, [] => some num
  | num, char :: rest =>
    if 48 ≤ char ∧ char ≤ 57 then strToNum (num * 10 + (char - 48).toUInt64) rest else none

def parseRtagTokens (queue : MqQueue) : List (List UInt8) → Bool × MqQueue
  | [] => (false, queue)
  | token :: rest =>
    if rtagItemLen ≤ token.length then
      match strToNum 0 (token.take 20) with
      | none => (false, queue)
      | some getNum =>
        let queue := { queue with getNum }
        match strToNum 0 ((token.drop 20).take 10) with
        | none => (false, queue)
        | some pos =>
          let queue := { queue with curRdb := { queue.curRdb with pos := pos.toUInt32 } }
          if queue.curRdb.pos > maxDbFilePos then parseRtagTokens queue rest
          else (true, queue)
    else parseRtagTokens queue rest

def parseWtagTokens (queue : MqQueue) : List (List UInt8) → Bool × MqQueue
  | [] => (false, queue)
  | token :: rest =>
    if wtagItemLen ≤ token.length then
      match strToNum 0 (token.take 20) with
      | none => (false, queue)
      | some putNum =>
        let queue := { queue with putNum }
        match strToNum 0 ((token.drop 20).take 10) with
        | none => (false, queue)
        | some pos =>
          let queue := { queue with curWdb := { queue.curWdb with pos := pos.toUInt32 } }
          match strToNum 0 ((token.drop 30).take 10) with
          | none => (false, queue)
          | some maxque =>
            let queue := { queue with maxque := maxque.toUInt32 }
            if queue.curWdb.pos > maxDbFilePos then parseWtagTokens queue rest
            else (true, queue)
    else parseWtagTokens queue rest

inductive TagScan
  | found (line : Nat) | noLine | readError

/-- Seek `line` items back from the end, read at most two and parse them. -/
def tagReadLoop (itemLen : Nat) (parse : MqQueue → List (List UInt8) → Bool × MqQueue)
    (content : List UInt8) : Nat → Nat → MqQueue → Os → TagScan × MqQueue × Os
  | 0, _, queue, os => (.noLine, queue, os)
  | fuel + 1, line, queue, os =>
    if content.length < line * (itemLen + 1) ∨
        toCInt (content.length - line * (itemLen + 1)) < 0 then (.noLine, queue, os)
    else
      let (granted, os) := os.attempt
      if granted then
        let text := (content.drop (content.length - line * (itemLen + 1))).take (2 * (itemLen + 1))
        if itemLen + 1 ≤ text.length then
          match parse queue (CString.tokens 10 text) with
          | (true, queue) => (.found line, queue, os)
          | (false, queue) => tagReadLoop itemLen parse content fuel (line + 1) queue os
        else tagReadLoop itemLen parse content fuel (line + 1) queue os
      else (.readError, queue, os)

def Os.tagContent (os : Os) (fd : Fd) : List UInt8 :=
  match fd.bind os.fds with
  | some (.tag kind index _ _) => (os.dir.tag kind index).getD []
  | _ => []

def mqSmRtagReadItem (queue : MqQueue) (os : Os) : Bool × MqQueue × Os :=
  let content := os.tagContent queue.rtagFd
  match tagReadLoop rtagItemLen parseRtagTokens content (content.length + 1) 1 queue os with
  | (.found line, queue, os) =>
    let queue :=
      if 1 < line then { queue with curWdb := { queue.curWdb with pos := maxDbFilePos } } else queue
    (true, queue, os)
  | (.noLine, queue, os) => (true, { queue with curRdb := { queue.curRdb with pos := 0 } }, os)
  | (.readError, queue, os) => (false, queue, os)

def mqSmWtagReadItem (queue : MqQueue) (os : Os) : Bool × MqQueue × Os :=
  let content := os.tagContent queue.wtagFd
  match tagReadLoop wtagItemLen parseWtagTokens content (content.length + 1) 1 queue os with
  | (.found line, queue, os) =>
    let queue :=
      if 1 < line then { queue with curWdb := { queue.curWdb with pos := maxDbFilePos } } else queue
    (true, queue, os)
  | (.noLine, queue, os) =>
    (true, { queue with curWdb := { queue.curWdb with pos := maxDbFilePos }
                        maxque := defMaxQueue }, os)
  | (.readError, queue, os) => (false, queue, os)

end Libucmq
