import Libucmq.Store.Reopen
import Libucmq.Store.Terminate

/-! What the parsers of the two tag files make of a text. -/

namespace Libucmq

open Decimal

theorem tagReadLoop_spec {itemLen : Nat} {parse : MqQueue → List (List UInt8) → Bool × MqQueue}
    {kept good : MqQueue → Prop} {content : List UInt8} (parses : ∀ queue tokens, kept queue →
      kept (parse queue tokens).2 ∧ ((parse queue tokens).1 = true → good (parse queue tokens).2))
    (fuel line : Nat) {queue : MqQueue} {os : Os} (start : kept queue) :
    ∃ scan next after, tagReadLoop itemLen parse content fuel line queue os = (scan, next, after) ∧
      kept next ∧ (∀ line, scan = .found line → good next) ∧ os.SameHandles after ∧ after.dir = os.dir := by
  induction fuel generalizing line queue os with
  | zero => exact ⟨_, _, _, rfl, start, nofun, Os.SameHandles.refl os, rfl⟩
  | succ fuel ih =>
    rw [tagReadLoop]
    split
    · exact ⟨_, _, _, rfl, start, by simp, Os.SameHandles.refl os, rfl⟩
    · cases granted : os.faults os.calls with
      | true =>
        simp only [Os.attempt, granted, Bool.not_true, Bool.false_eq_true, ↓reduceIte]
        exact ⟨_, _, _, rfl, start, by simp, Os.SameHandles.tick os, rfl⟩
      | false =>
        simp only [Os.attempt, granted, Bool.not_false, ↓reduceIte]
        split
        · obtain ⟨parsed, done⟩ := parses queue (CString.tokens 10 ((content.drop
            (content.length - line * (itemLen + 1))).take (2 * (itemLen + 1)))) start
          split
          · rename_i next parseEq
            rw [parseEq] at parsed done
            exact ⟨_, _, _, rfl, parsed, fun _ _ => done rfl, Os.SameHandles.tick os, rfl⟩
          · rename_i next parseEq
            rw [parseEq] at parsed
            obtain ⟨scan, final, after, loopEq, rest⟩ := @ih (line + 1) next os.tick parsed
            exact ⟨scan, final, after, loopEq, rest.1, rest.2.1, (Os.SameHandles.tick os).trans rest.2.2.1,
              rest.2.2.2⟩
        · obtain ⟨scan, final, after, loopEq, rest⟩ := @ih (line + 1) queue os.tick start
          exact ⟨scan, final, after, loopEq, rest.1, rest.2.1, (Os.SameHandles.tick os).trans rest.2.2.1,
            rest.2.2.2⟩

open CString

def Digits (text : List UInt8) : Prop := ∀ char ∈ text, 48 ≤ char.toNat ∧ char.toNat ≤ 57

instance (text : List UInt8) : Decidable (Digits text) :=
  inferInstanceAs (Decidable (∀ char ∈ text, 48 ≤ char.toNat ∧ char.toNat ≤ 57))

theorem digits_append_iff {front back : List UInt8} : Digits (front ++ back) ↔ Digits front ∧ Digits back :=
  List.forall_mem_append

theorem strToNum_none {text : List UInt8} (start : UInt64) (other : ¬ Digits text) : strToNum start text = none := by
  induction text generalizing start with
  | nil => exact absurd (fun _ member => absurd member List.not_mem_nil) other
  | cons char text ih =>
    rw [strToNum]
    by_cases digit : 48 ≤ char ∧ char ≤ 57
    · rw [if_pos digit]
      refine ih _ fun rest => other ?_
      simp only [UInt8.le_iff_toNat_le, UInt8.reduceToNat] at digit
      exact List.forall_mem_cons.mpr ⟨digit, rest⟩
    · rw [if_neg digit]

theorem strToNum_eq (text : List UInt8) :
    strToNum 0 text = if Digits text then some (UInt64.ofNat (valueFrom 0 text)) else none := by
  split
  · exact strToNum_digits text 0 ‹Digits text›
  · exact strToNum_none 0 ‹¬ Digits text›

def countText (token : List UInt8) : List UInt8 := token.take 20
def posText (token : List UInt8) : List UInt8 := (token.drop 20).take 10
def maxqueText (token : List UInt8) : List UInt8 := (token.drop 30).take 10

theorem digits_rtag (token : List UInt8) :
    Digits (token.take 30) ↔ Digits (countText token) ∧ Digits (posText token) := by
  rw [show 30 = 20 + 10 from rfl, List.take_add, digits_append_iff, countText, posText]

theorem digits_wtag (token : List UInt8) : Digits (token.take 40) ↔
      Digits (countText token) ∧ Digits (posText token) ∧ Digits (maxqueText token) := by
  rw [show 40 = 30 + 10 from rfl, List.take_add, digits_append_iff, digits_rtag, maxqueText, and_assoc]

namespace TagKind

def itemLen : TagKind → Nat
  | .rtag => rtagItemLen
  | .wtag => wtagItemLen

def fd : TagKind → MqQueue → Fd
  | .rtag, queue => queue.rtagFd
  | .wtag, queue => queue.wtagFd

def parse : TagKind → MqQueue → List (List UInt8) → Bool × MqQueue
  | .rtag => parseRtagTokens
  | .wtag => parseWtagTokens

def readItem : TagKind → MqQueue → Os → Bool × MqQueue × Os
  | .rtag => mqSmRtagReadItem
  | .wtag => mqSmWtagReadItem

def writeItem : TagKind → MqQueue → Os → Bool × Os
  | .rtag => mqSmRtagWriteItem
  | .wtag => mqSmWtagWriteItem

def count : TagKind → MqQueue → UInt64
  | .rtag, queue => queue.getNum
  | .wtag, queue => queue.putNum

def position : TagKind → MqQueue → UInt32
  | .rtag, queue => queue.curRdb.pos
  | .wtag, queue => queue.curWdb.pos

def filled : TagKind → MqQueue → List UInt8 → MqQueue
  | .rtag, queue, token =>
    { queue with
      getNum := UInt64.ofNat (valueFrom 0 (countText token))
      curRdb := { queue.curRdb with
        pos := (UInt64.ofNat (valueFrom 0 (posText token))).toUInt32 } }
  | .wtag, queue, token =>
    { queue with
      putNum := UInt64.ofNat (valueFrom 0 (countText token))
      curWdb := { queue.curWdb with
        pos := (UInt64.ofNat (valueFrom 0 (posText token))).toUInt32 }
      maxque := (UInt64.ofNat (valueFrom 0 (maxqueText token))).toUInt32 }

def other : TagKind → TagKind
  | .rtag => .wtag
  | .wtag => .rtag

structure Beside (kind : TagKind) (before after : MqQueue) : Prop where
  count : kind.other.count after = kind.other.count before
  fd : kind.other.fd after = kind.other.fd before

theorem Beside.refl (kind : TagKind) (queue : MqQueue) : kind.Beside queue queue := ⟨rfl, rfl⟩

theorem Beside.trans {kind : TagKind} {before middle after : MqQueue} (left : kind.Beside before middle)
    (right : kind.Beside middle after) : kind.Beside before after :=
  ⟨right.count.trans left.count, right.fd.trans left.fd⟩

def seenPos (token : List UInt8) : Nat := valueFrom 0 (posText token) % 4294967296

def Passes (kind : TagKind) (token : List UInt8) : Prop :=
  kind.itemLen ≤ token.length ∧ Digits (token.take kind.itemLen) ∧ seenPos token ≤ maxDbFileSize

instance (kind : TagKind) (token : List UInt8) : Decidable (kind.Passes token) :=
  inferInstanceAs (Decidable (_ ∧ _ ∧ _))

variable (kind : TagKind) (queue : MqQueue) {token : List UInt8} (rest : List (List UInt8))

theorem filled_count : kind.count (kind.filled queue token) =
    UInt64.ofNat (valueFrom 0 (countText token)) := by
  cases kind <;> rfl

theorem filled_position : (kind.position (kind.filled queue token)).toNat = seenPos token := by
  have cut : ((UInt64.ofNat (valueFrom 0 (posText token))).toUInt32).toNat = seenPos token := by
    rw [UInt64.toNat_toUInt32, UInt64.toNat_ofNat', seenPos]
    omega
  cases kind <;> exact cut

theorem filled_beside : kind.Beside queue (kind.filled queue token) := by
  cases kind <;> exact ⟨rfl, rfl⟩

theorem parse_short (short : token.length < kind.itemLen) :
    kind.parse queue (token :: rest) = kind.parse queue rest := by
  cases kind <;> exact if_neg (Nat.not_le_of_lt short)

section

variable (long : kind.itemLen ≤ token.length)

include long

theorem parse_broken (broken : ¬ Digits (countText token)) : kind.parse queue (token :: rest) = (false, queue) := by
  have failed : strToNum 0 (token.take 20) = none := strToNum_none 0 broken
  cases kind with
  | rtag => simp [parse, parseRtagTokens, show rtagItemLen ≤ token.length from long, failed]
  | wtag => simp [parse, parseWtagTokens, show wtagItemLen ≤ token.length from long, failed]

theorem parse_partial (digits : Digits (countText token))
    (broken : ¬ Digits (token.take kind.itemLen)) : ∃ left, kind.parse queue (token :: rest) = (false, left) ∧
      kind.count left = UInt64.ofNat (valueFrom 0 (countText token)) ∧ kind.Beside queue left := by
  have read : strToNum 0 (token.take 20) = some (UInt64.ofNat (valueFrom 0 (countText token))) :=
    strToNum_digits _ 0 digits
  cases kind with
  | rtag =>
    have failed : strToNum 0 ((token.drop 20).take 10) = none :=
      strToNum_none 0 fun rest => broken ((digits_rtag token).mpr ⟨digits, rest⟩)
    simp only [parse, parseRtagTokens, if_pos (show rtagItemLen ≤ token.length from long), read, failed]
    exact ⟨_, rfl, rfl, rfl, rfl⟩
  | wtag =>
    simp only [parse, parseWtagTokens, if_pos (show wtagItemLen ≤ token.length from long), read]
    rw [strToNum_eq]
    by_cases second : Digits ((token.drop 20).take 10)
    · have failed : strToNum 0 ((token.drop 30).take 10) = none :=
        strToNum_none 0 fun third => broken ((digits_wtag token).mpr ⟨digits, second, third⟩)
      simp only [if_pos second, failed]
      exact ⟨_, rfl, rfl, rfl, rfl⟩
    · simp only [if_neg second]
      exact ⟨_, rfl, rfl, rfl, rfl⟩

theorem parse_line (digits : Digits (token.take kind.itemLen)) :
    kind.parse queue (token :: rest) =
      if seenPos token ≤ maxDbFileSize then (true, kind.filled queue token)
      else kind.parse (kind.filled queue token) rest := by
  have seen : kind.position (kind.filled queue token) > maxDbFilePos ↔ ¬ seenPos token ≤ maxDbFileSize := by
    rw [gt_iff_lt, UInt32.lt_iff_toNat_lt, filled_position, maxDbFilePos_toNat, maxDbFileSize_eq]
    omega
  cases kind with
  | rtag =>
    obtain ⟨first, second⟩ := (digits_rtag token).mp digits
    have readNum : strToNum 0 (token.take 20) = _ := strToNum_digits _ 0 first
    have readPos : strToNum 0 ((token.drop 20).take 10) = _ := strToNum_digits _ 0 second
    simp only [position, filled] at seen
    simp only [parse, parseRtagTokens, if_pos (show rtagItemLen ≤ token.length from long), readNum, readPos]
    by_cases within : seenPos token ≤ maxDbFileSize
    · rw [if_pos within]
      exact if_neg fun beyond => seen.mp beyond within
    · rw [if_neg within]
      exact if_pos (seen.mpr within)
  | wtag =>
    obtain ⟨first, second, third⟩ := (digits_wtag token).mp digits
    have readNum : strToNum 0 (token.take 20) = _ := strToNum_digits _ 0 first
    have readPos : strToNum 0 ((token.drop 20).take 10) = _ := strToNum_digits _ 0 second
    have readMax : strToNum 0 ((token.drop 30).take 10) = _ := strToNum_digits _ 0 third
    simp only [position, filled] at seen
    simp only [parse, parseWtagTokens, if_pos (show wtagItemLen ≤ token.length from long), readNum, readPos,
      readMax]
    by_cases within : seenPos token ≤ maxDbFileSize
    · rw [if_pos within]
      exact if_neg fun beyond => seen.mp beyond within
    · rw [if_neg within]
      exact if_pos (seen.mpr within)

end

def accepts : List (List UInt8) → Bool
  | [] => false
  | token :: rest =>
    if kind.itemLen ≤ token.length then
      if Digits (token.take kind.itemLen) then seenPos token ≤ maxDbFileSize || accepts rest else false
    else accepts rest

def noted : List (List UInt8) → Option UInt64
  | [] => none
  | token :: rest =>
    if kind.itemLen ≤ token.length then
      if Digits (countText token) then
        let count := UInt64.ofNat (valueFrom 0 (countText token))
        if Digits (token.take kind.itemLen) ∧ maxDbFileSize < seenPos token then (noted rest).or (some count)
        else some count
      else none
    else noted rest

theorem parse_accepts (tokens : List (List UInt8)) : (kind.parse queue tokens).1 = kind.accepts tokens := by
  induction tokens generalizing queue with
  | nil => cases kind <;> rfl
  | cons token rest ih =>
    rw [accepts]
    by_cases long : kind.itemLen ≤ token.length
    · rw [if_pos long]
      by_cases digits : Digits (token.take kind.itemLen)
      · rw [if_pos digits, parse_line kind queue rest long digits]
        by_cases within : seenPos token ≤ maxDbFileSize
        · rw [if_pos within, decide_eq_true within, Bool.true_or]
        · rw [if_neg within, decide_eq_false within, Bool.false_or, ih]
      · rw [if_neg digits]
        by_cases first : Digits (countText token)
        · obtain ⟨left, parsed, _⟩ := parse_partial kind queue rest long first digits
          rw [parsed]
        · rw [parse_broken kind queue rest long first]
    · rw [if_neg long, parse_short kind queue rest (by omega), ih]

theorem parse_count (tokens : List (List UInt8)) :
    kind.count (kind.parse queue tokens).2 = (kind.noted tokens).getD (kind.count queue) := by
  induction tokens generalizing queue with
  | nil => cases kind <;> rfl
  | cons token rest ih =>
    rw [noted]
    by_cases long : kind.itemLen ≤ token.length
    · rw [if_pos long]
      by_cases first : Digits (countText token)
      · rw [if_pos first]
        by_cases digits : Digits (token.take kind.itemLen)
        · rw [parse_line kind queue rest long digits]
          by_cases within : seenPos token ≤ maxDbFileSize
          · rw [if_pos within, if_neg (fun beyond => absurd beyond.2 (Nat.not_lt.mpr within)), filled_count]
            rfl
          · rw [if_neg within, if_pos ⟨digits, Nat.lt_of_not_le within⟩, ih, filled_count]
            cases kind.noted rest <;> rfl
        · obtain ⟨left, parsed, stored, _⟩ := parse_partial kind queue rest long first digits
          rw [parsed, if_neg (fun whole => digits whole.1), stored]
          rfl
      · rw [if_neg first, parse_broken kind queue rest long first]
        rfl
    · rw [if_neg long, parse_short kind queue rest (by omega), ih]

theorem parse_beside (tokens : List (List UInt8)) : kind.Beside queue (kind.parse queue tokens).2 := by
  induction tokens generalizing queue with
  | nil => cases kind <;> exact ⟨rfl, rfl⟩
  | cons token rest ih =>
    by_cases long : kind.itemLen ≤ token.length
    · by_cases digits : Digits (token.take kind.itemLen)
      · rw [parse_line kind queue rest long digits]
        split
        · exact kind.filled_beside queue
        · exact (kind.filled_beside queue).trans (ih _)
      · by_cases first : Digits (countText token)
        · obtain ⟨left, parsed, _, beside⟩ := parse_partial kind queue rest long first digits
          rw [parsed]
          exact beside
        · rw [parse_broken kind queue rest long first]
          exact Beside.refl kind queue
    · rw [parse_short kind queue rest (by omega)]
      exact ih queue

theorem parse_none {tokens : List (List UInt8)} (absent : kind.noted tokens = none) :
    kind.parse queue tokens = (false, queue) := by
  induction tokens with
  | nil => cases kind <;> rfl
  | cons token rest ih =>
    rw [noted] at absent
    by_cases long : kind.itemLen ≤ token.length
    · rw [if_pos long] at absent
      by_cases first : Digits (countText token)
      · rw [if_pos first] at absent
        split at absent <;> simp at absent
      · exact parse_broken kind queue rest long first
    · rw [if_neg long] at absent
      rw [parse_short kind queue rest (by omega), ih absent]

theorem parse_filled {tokens : List (List UInt8)} (accepted : (kind.parse queue tokens).1 = true) :
    ∃ before token, tokens.find? (kind.Passes ·) = some token ∧
      (kind.parse queue tokens).2 = kind.filled before token := by
  induction tokens generalizing queue with
  | nil => cases kind <;> exact absurd accepted Bool.false_ne_true
  | cons token rest ih =>
    by_cases long : kind.itemLen ≤ token.length
    · by_cases digits : Digits (token.take kind.itemLen)
      · rw [parse_line kind queue rest long digits] at accepted ⊢
        by_cases within : seenPos token ≤ maxDbFileSize
        · rw [if_pos within]
          exact ⟨queue, token, List.find?_cons_of_pos (decide_eq_true ⟨long, digits, within⟩), rfl⟩
        · rw [if_neg within] at accepted ⊢
          obtain ⟨before, line, found, stored⟩ := ih _ accepted
          refine ⟨before, line, ?_, stored⟩
          rw [List.find?_cons_of_neg fun passes => within (of_decide_eq_true passes).2.2]
          exact found
      · by_cases first : Digits (countText token)
        · obtain ⟨left, parsed, _⟩ := parse_partial kind queue rest long first digits
          rw [parsed] at accepted
          exact absurd accepted Bool.false_ne_true
        · rw [parse_broken kind queue rest long first] at accepted
          exact absurd accepted Bool.false_ne_true
    · rw [parse_short kind queue rest (by omega)] at accepted ⊢
      obtain ⟨before, line, found, stored⟩ := ih _ accepted
      refine ⟨before, line, ?_, stored⟩
      rw [List.find?_cons_of_neg fun passes => long (of_decide_eq_true passes).1]
      exact found

def Exact (token : List UInt8) : Prop :=
  (kind.count queue).toNat = valueFrom 0 (countText token) ∧
  (kind.position queue).toNat = valueFrom 0 (posText token) ∧
  (kind = .wtag → queue.maxque.toNat = valueFrom 0 (maxqueText token))

def InWidth (token : List UInt8) : Prop :=
  valueFrom 0 (countText token) < 18446744073709551616 ∧
  valueFrom 0 (posText token) < 4294967296 ∧
  (kind = .wtag → valueFrom 0 (maxqueText token) < 4294967296)

theorem filled_exact (token : List UInt8) : kind.Exact (kind.filled queue token) token ↔ kind.InWidth token := by
  rw [Exact, InWidth, filled_count, filled_position, UInt64.toNat_ofNat', seenPos]
  refine and_congr (by omega) (and_congr (by omega) ?_)
  cases kind with
  | rtag => simp
  | wtag =>
    simp only [filled, forall_const, UInt64.toNat_toUInt32, UInt64.toNat_ofNat']
    omega

end TagKind

/-- Exact iff the numbers fit: conversion wraps before the range check. -/
theorem tagNumbers_exact (kind : TagKind) (queue : MqQueue) : (∀ text, (kind.parse queue (tokens 10 text)).1 = true →
      ∃ token, (tokens 10 text).find? (kind.Passes ·) = some token ∧
        (kind.Exact (kind.parse queue (tokens 10 text)).2 token ↔ kind.InWidth token)) ∧
    ∀ token, kind.itemLen ≤ token.length → Digits (token.take kind.itemLen) →
      maxDbFileSize < valueFrom 0 (posText token) → ((kind.parse queue [token]).1 = false ↔
          maxDbFileSize < valueFrom 0 (posText token) % 4294967296) := by
  constructor
  · intro text accepted
    obtain ⟨before, token, found, stored⟩ := kind.parse_filled queue accepted
    exact ⟨token, found, by rw [stored, kind.filled_exact]⟩
  · intro token long digits _
    rw [kind.parse_accepts, TagKind.accepts, if_pos long, if_pos digits, TagKind.accepts, Bool.or_false,
      decide_eq_false_iff_not, not_le, TagKind.seenPos]

theorem tagNumbers_wrapped :
    let token := fixedDigits 20 5 ++ fixedDigits 10 4294967296
    valueFrom 0 (posText token) = 4294967296 ∧
    (TagKind.rtag.parse {} (tokens 10 (token ++ [10]))).1 = true ∧
    (TagKind.rtag.parse {} (tokens 10 (token ++ [10]))).2.curRdb.pos = 0 := by
  decide

theorem tagNumbers_exact_line : ∃ token, (tokens 10 (rtagItem 5 128)).find? (TagKind.rtag.Passes ·) = some token ∧
      TagKind.rtag.Exact (TagKind.rtag.parse {} (tokens 10 (rtagItem 5 128))).2 token := by
  obtain ⟨token, found, precise⟩ := (tagNumbers_exact .rtag {}).1 (rtagItem 5 128) (by decide)
  refine ⟨token, found, precise.mpr ?_⟩
  have line : (tokens 10 (rtagItem 5 128)).find? (TagKind.rtag.Passes ·) =
      some (fixedDigits 20 5 ++ fixedDigits 10 128) := by decide +kernel
  cases line.symm.trans found
  exact ⟨by decide, by decide, nofun⟩

end Libucmq
