import Mathlib.Data.List.Induction
import Libucmq.Library.Machine
import Libucmq.Library.Linked

/-! The hash map of `hashmap.c`, with its nodes in a heap. -/

namespace Libucmq.Supex

open List

open Linked (Link Chain addresses)

variable {before after : List (Nat × Node)} {address : Nat} {link : Option Nat}

def defaultBucketSize : Nat := 16

def hashMapMaxKey : Nat := 64

def decodeFixed32 (first second third fourth : UInt8) : UInt32 :=
  first.toUInt32 ||| second.toUInt32 <<< 8 ||| third.toUInt32 <<< 16 ||| fourth.toUInt32 <<< 24

def charValue (byte : UInt8) : UInt32 := byte.toInt8.toInt32.toUInt32

def hashFactor : UInt32 := 0xc6a4a793

def hashMix (h shift : UInt32) : UInt32 := h * hashFactor ^^^ (h * hashFactor) >>> shift

def hashFrom (h : UInt32) : List UInt8 → UInt32
  | first :: second :: third :: fourth :: rest =>
    hashFrom (hashMix (h + decodeFixed32 first second third fourth) 16) rest
  | [first, second, third] => hashMix (h + charValue third <<< 16 + charValue second <<< 8 + charValue first) 24
  | [first, second] => hashMix (h + charValue second <<< 8 + charValue first) 24
  | [first] => hashMix (h + charValue first) 24
  | [] => h

def hash (data : List UInt8) (seed : UInt32) : UInt32 :=
  hashFrom (seed ^^^ UInt32.ofNat data.length * hashFactor) data

structure Node where
  klen : Nat
  vlen : Nat
  hash : UInt32
  total : UInt32
  key : List UInt8
  val : List UInt8

/-- `hashmap_t` and its heap; `bucket` has the `next` of each list head. -/
structure HashMap where
  heap : Heap.Blocks (Link Node)
  bucket : Nat → Option Nat
  bucketCount : Nat
  nodeCount : Nat

inductive MapFault
  | assertion
  | memory (fault : Heap.Fault)
  | endless
deriving DecidableEq, Repr

def memory {α : Type} : Except Heap.Fault α → Except MapFault α
  | .error fault => .error (.memory fault)
  | .ok value => .ok value

def traversal {α : Type} : Except Linked.Stop α → Except MapFault α
  | .error (.fault fault) => .error (.memory fault)
  | .error .endless => .error .endless
  | .ok value => .ok value

def hashmapOpen (heap : Heap.Blocks (Link Node)) : HashMap where
  heap := heap
  bucket := fun _ => none
  bucketCount := defaultBucketSize
  nodeCount := 0

def sameKey (key : List UInt8) (hc : UInt32) (node : Node) : Bool :=
  node.hash = hc ∧ node.klen = key.length ∧ node.key.take key.length = key

def findPrevPointer (map : HashMap) (index : Nat) (key : List UInt8) (hc : UInt32) :
    Except MapFault (Option (Option Nat)) :=
  traversal (Linked.findPrev (sameKey key hc) map.heap map.heap.next none (map.bucket index))

def overwrite (map : HashMap) (address : Nat) (node : Link Node) (val : List UInt8) : Except Heap.Fault HashMap := do
  let bytes ← Heap.patch node.item.val 0 val
  let heap ← map.heap.put address { node with item := { node.item with val := bytes, vlen := val.length } }
  return { map with heap }

def unlink (map : HashMap) (index : Nat) (prev : Option Nat) (address : Nat) (node : Link Node) :
    Except Heap.Fault HashMap := do
  let (heap, head) ← Linked.setNext map.heap (map.bucket index) node.next prev
  let heap ← heap.free address
  return { map with heap, bucket := Function.update map.bucket index head }

def pushNode (map : HashMap) (index : Nat) (key : List UInt8) (hc : UInt32) (val : List UInt8) :
    Except Heap.Fault HashMap := do
  let keyBytes ← Heap.patch (List.replicate hashMapMaxKey 0) 0 key
  let (address, heap) := map.heap.malloc {
    next := map.bucket index
    item := {
      klen := key.length, vlen := val.length, hash := hc, total := UInt32.ofNat val.length
      key := keyBytes, val := val } }
  return { map with
    heap, bucket := Function.update map.bucket index (some address), nodeCount := map.nodeCount + 1 }

def hashmapSet (map : HashMap) (key val : List UInt8) : Except MapFault HashMap :=
  if hashMapMaxKey < key.length then .error .assertion
  else
    let hc := hash key 0
    let index := hc.toNat % map.bucketCount
    do
      match ← findPrevPointer map index key hc with
      | none => memory (pushNode map index key hc val)
      | some prev =>
        match ← memory (Linked.nextOf map.heap (map.bucket index) prev) with
        | none => .error (.memory .dead)
        | some address =>
          let node ← memory (map.heap.get address)
          if val.length ≤ node.item.total.toNat then memory (overwrite map address node val)
          else
            let map ← memory (unlink map index prev address node)
            memory (pushNode map index key hc val)

/-- The bytes at the pointer returned, also copied to `val`, and `*vlen`. -/
def hashmapGet (map : HashMap) (key : List UInt8) : Except MapFault (Option (List UInt8) × Nat) :=
  let hc := hash key 0
  let index := hc.toNat % map.bucketCount
  do
    match ← findPrevPointer map index key hc with
    | none => return (none, 0)
    | some prev =>
      match ← memory (Linked.nextOf map.heap (map.bucket index) prev) with
      | none => .error (.memory .dead)
      | some address =>
        let node ← memory (map.heap.get address)
        let bytes ← memory (Heap.fetch node.item.val node.item.vlen)
        return (some bytes, node.item.vlen)

def closeFrom (bucket : Nat → Option Nat) : List Nat → Heap.Blocks (Link Node) →
    Except MapFault (List Nat × Heap.Blocks (Link Node))
  | [], heap => .ok ([], heap)
  | index :: rest, heap => do
    let (freed, heap) ← traversal (Linked.freeAll heap.next heap (bucket index))
    let (later, heap) ← closeFrom bucket rest heap
    return (freed ++ later, heap)

def hashmapClose (map : HashMap) : Except MapFault (List Nat × Heap.Blocks (Link Node)) :=
  closeFrom map.bucket (List.range map.bucketCount) map.heap

def setStep (map : HashMap) (input : List UInt8 × List UInt8) : Except MapFault (HashMap × Unit) :=
  (hashmapSet map input.1 input.2).map fun next => (next, ())

def Node.keyOf (node : Node) : List UInt8 := node.key.take node.klen

def Node.valueOf (node : Node) : List UInt8 := node.val.take node.vlen

structure Node.Sound (node : Node) : Prop where
  hash : node.hash = Supex.hash node.keyOf 0
  klen : node.keyOf.length = node.klen
  vlen : node.vlen ≤ node.val.length
  total : node.total.toNat ≤ node.val.length

def bucketOf (key : List UInt8) : Nat := (hash key 0).toNat % defaultBucketSize

/-- Each node in the bucket of its key, one for a key; `others` are not ours. -/
structure Rep (others : Nat → Option (Link Node)) (map : HashMap) (chains : Nat → List (Nat × Node)) : Prop where
  count : map.bucketCount = defaultBucketSize
  chain : ∀ index, Chain map.heap.block (map.bucket index) (chains index)
  sound : ∀ index, ∀ entry ∈ chains index, entry.2.Sound ∧ bucketOf entry.2.keyOf = index
  keys : ∀ index, ((chains index).map fun entry => entry.2.keyOf).Nodup
  fresh : ∀ index, ∀ place ∈ addresses (chains index), others place = none
  rest : ∀ place, (∀ index, place ∉ addresses (chains index)) → map.heap.block place = others place

theorem rep_open (heap : Heap.Blocks (Link Node)) : Rep heap.block (hashmapOpen heap) fun _ => [] where
  count := rfl
  chain := fun _ => rfl
  sound := fun _ _ mem => by cases mem
  keys := fun _ => nodup_nil
  fresh := fun _ _ mem => by cases mem
  rest := fun _ _ => rfl

variable {others : Nat → Option (Link Node)} {map : HashMap} {chains : Nat → List (Nat × Node)} {index : Nat}
  {key val : List UInt8} {node : Node}

theorem Node.Sound.sameKey_iff (sound : node.Sound) : sameKey key (Supex.hash key 0) node = true ↔
    node.keyOf = key := by
  simp only [sameKey, decide_eq_true_eq]
  constructor
  · rintro ⟨-, size, same⟩
    rw [Node.keyOf, size, same]
  · rintro rfl
    exact ⟨sound.hash, sound.klen.symm, by rw [sound.klen]; rfl⟩

theorem Node.Sound.length_valueOf (sound : node.Sound) : node.valueOf.length = node.vlen := by
  rw [Node.valueOf, length_take, Nat.min_eq_left sound.vlen]

variable {entries : List (Nat × Node)}

section

variable (rep : Rep others map chains)

include rep

theorem Rep.unique {first second : Nat} {left right : Nat × Node}
    (leftMem : left ∈ chains first) (rightMem : right ∈ chains second) (same : left.1 = right.1) :
    left = right ∧ first = second := by
  obtain ⟨_, leftLive⟩ := (rep.chain first).live leftMem
  obtain ⟨_, rightLive⟩ := (rep.chain second).live rightMem
  rw [same, rightLive] at leftLive
  have item : right.2 = left.2 := by
    simp only [Option.some.injEq, Link.mk.injEq] at leftLive
    exact leftLive.2
  refine ⟨Prod.ext same item.symm, ?_⟩
  rw [← (rep.sound first left leftMem).2, ← (rep.sound second right rightMem).2, item]

theorem Rep.apart (index : Nat) : (addresses (chains index)).Nodup := by
  refine List.Nodup.map_on (fun left leftMem right rightMem same => ?_) (List.Nodup.of_map _ (rep.keys index))
  exact (rep.unique leftMem rightMem same).1

theorem Rep.disjoint {first second place : Nat} (ne : first ≠ second)
    (mem : place ∈ addresses (chains first)) : place ∉ addresses (chains second) := by
  intro other
  obtain ⟨left, leftMem, rfl⟩ := mem_map.mp mem
  obtain ⟨right, rightMem, same⟩ := mem_map.mp other
  exact ne (rep.unique leftMem rightMem same.symm).2

theorem Rep.live {place : Nat} (mem : place ∈ addresses (chains index)) : map.heap.block place ≠ none := by
  obtain ⟨entry, inside, rfl⟩ := mem_map.mp mem
  obtain ⟨next, live⟩ := (rep.chain index).live inside
  simp [live]

theorem Rep.change {heap : Heap.Blocks (Link Node)} {head : Option Nat}
    (index nodeCount : Nat) (chain : Chain heap.block head entries)
    (frame : ∀ place, place ∉ addresses (chains index) → place ∉ addresses entries →
      heap.block place = map.heap.block place)
    (gone : ∀ place ∈ addresses (chains index), place ∉ addresses entries → heap.block place = none)
    (added : ∀ place ∈ addresses entries, place ∈ addresses (chains index) ∨ map.heap.block place = none)
    (sound : ∀ entry ∈ entries, entry.2.Sound ∧ bucketOf entry.2.keyOf = index)
    (keys : (entries.map fun entry => entry.2.keyOf).Nodup) :
    Rep others { map with heap, bucket := Function.update map.bucket index head, nodeCount }
      (Function.update chains index entries) := by
  -- a block of another list is neither one of this list's nor a new one
  have outside : ∀ other, other ≠ index → ∀ place ∈ addresses (chains other), place ∉ addresses entries := by
    intro other ne place mem inside
    rcases added place inside with old | new
    · exact rep.disjoint ne mem old
    · exact rep.live mem new
  have fresh : ∀ place ∈ addresses entries, others place = none := by
    intro place mem
    by_cases known : ∃ other, place ∈ addresses (chains other)
    · obtain ⟨other, old⟩ := known
      exact rep.fresh other place old
    · rw [← rep.rest place fun other old => known ⟨other, old⟩]
      exact (added place mem).resolve_left fun old => known ⟨index, old⟩
  refine {
    count := rep.count
    chain := fun other => ?_
    sound := (Function.forall_update_iff chains fun other list =>
      ∀ entry ∈ list, entry.2.Sound ∧ bucketOf entry.2.keyOf = other).mpr ⟨sound, fun other _ => rep.sound other⟩
    keys := (Function.forall_update_iff chains fun _ list =>
      (list.map fun entry => entry.2.keyOf).Nodup).mpr ⟨keys, fun other _ => rep.keys other⟩
    fresh := (Function.forall_update_iff chains fun _ list =>
      ∀ place ∈ addresses list, others place = none).mpr ⟨fresh, fun other _ => rep.fresh other⟩
    rest := fun place absent => ?_ }
  · by_cases same : other = index
    · subst same
      simpa only [Function.update_self] using chain
    · simp only [Function.update_of_ne same]
      exact (rep.chain other).congr fun place mem => frame place (rep.disjoint same mem) (outside other same place mem)
  · obtain ⟨absentNew, absentOld⟩ := (Function.forall_update_iff chains fun _ list => place ∉ addresses list).mp absent
    by_cases old : place ∈ addresses (chains index)
    · rw [rep.fresh index place old]
      exact gone place old absentNew
    · refine (frame place old absentNew).trans (rep.rest place fun other => ?_)
      by_cases same : other = index
      · rwa [same]
      · exact absentOld other same

end

def nodeAt (chains : Nat → List (Nat × Node)) (key : List UInt8) : Option Node :=
  ((chains (bucketOf key)).find? fun entry => entry.2.keyOf = key).map Prod.snd

theorem Rep.search (rep : Rep others map chains) (key : List UInt8) :
    (nodeAt chains key = none ∧ findPrevPointer map (bucketOf key) key (hash key 0) = .ok none ∧
      ∀ entry ∈ chains (bucketOf key), entry.2.keyOf ≠ key) ∨
    ∃ before address node after, nodeAt chains key = some node ∧ node.keyOf = key ∧
      chains (bucketOf key) = before ++ (address, node) :: after ∧
      findPrevPointer map (bucketOf key) key (hash key 0) = .ok (some (Linked.lastOf none before)) := by
  have chain := rep.chain (bucketOf key)
  have enough := chain.length_le (rep.apart (bucketOf key))
  have testEq : ∀ entry ∈ chains (bucketOf key), sameKey key (hash key 0) entry.2 = true ↔ entry.2.keyOf = key :=
    fun entry mem => (rep.sound _ entry mem).1.sameKey_iff
  cases found : (chains (bucketOf key)).find? fun entry => entry.2.keyOf = key with
  | none =>
    have absent : ∀ entry ∈ chains (bucketOf key), entry.2.keyOf ≠ key := by
      simpa using found
    refine .inl ⟨by rw [nodeAt, found]; rfl, ?_, absent⟩
    rw [findPrevPointer, Linked.findPrev_none chain enough]
    · rfl
    · intro entry mem
      rw [Bool.eq_false_iff, ne_eq, testEq entry mem]
      exact absent entry mem
  | some entry =>
    obtain ⟨same, before, after, split, absent⟩ := List.find?_eq_some_iff_append.mp found
    simp only [decide_eq_true_eq] at same
    refine .inr ⟨before, entry.1, entry.2, after, by rw [nodeAt, found]; rfl, same, split, ?_⟩
    rw [split] at chain enough testEq
    rw [length_append, length_cons] at enough
    rw [findPrevPointer, Linked.findPrev_some chain (by omega)]
    · rfl
    · intro other mem
      rw [Bool.eq_false_iff, ne_eq, testEq other (mem_append_left _ mem)]
      simpa using absent other mem
    · exact (testEq entry (by simp)).mpr same

def answered (value : Option (List UInt8)) : Option (List UInt8) × Nat := (value, (value.map List.length).getD 0)

theorem Rep.hashmapGet (rep : Rep others map chains) (key : List UInt8) :
    hashmapGet map key = .ok (answered ((nodeAt chains key).map Node.valueOf)) := by
  simp only [Supex.hashmapGet, rep.count]
  rw [← bucketOf]
  rcases rep.search key with ⟨absent, search, -⟩ | ⟨before, address, node, after, found, -, split, search⟩
  · rw [search, absent]
    rfl
  · have chain := rep.chain (bucketOf key)
    have sound := (rep.sound (bucketOf key) (address, node) (by rw [split]; simp)).1
    rw [split] at chain
    obtain ⟨next, live, -⟩ := chain.behind
    have fetched : Heap.fetch node.val node.vlen = .ok node.valueOf := if_pos sound.vlen
    simp only [search, chain.nextOf_lastOf, Heap.Blocks.get_live live, fetched, memory, bind, Except.bind, pure,
      Except.pure, found, answered, Option.map_some, Option.getD_some, sound.length_valueOf]

def newNode (key val : List UInt8) : Node where
  klen := key.length
  vlen := val.length
  hash := hash key 0
  total := UInt32.ofNat val.length
  key := Heap.padded 0 hashMapMaxKey key
  val := val

@[simp] theorem newNode_keyOf (key val : List UInt8) : (newNode key val).keyOf = key := Heap.padded_take

@[simp] theorem newNode_valueOf (key val : List UInt8) : (newNode key val).valueOf = val := take_length

theorem newNode_sound (key val : List UInt8) : (newNode key val).Sound where
  hash := by rw [newNode_keyOf]; rfl
  klen := by rw [newNode_keyOf]; rfl
  vlen := Nat.le_refl _
  total := by
    rw [newNode, UInt32.toNat_ofNat']
    exact Nat.mod_le _ _

section

variable (rep : Rep others map chains)

include rep

theorem Rep.pushNode (short : key.length ≤ hashMapMaxKey)
    (absent : ∀ entry ∈ chains (bucketOf key), entry.2.keyOf ≠ key) (val : List UInt8) :
    ∃ next address, pushNode map (bucketOf key) key (hash key 0) val = .ok next ∧ Rep others next
        (Function.update chains (bucketOf key) ((address, newNode key val) :: chains (bucketOf key))) ∧
      next.nodeCount = map.nodeCount + 1 := by
  have unused : map.heap.block map.heap.next = none := map.heap.unused _ (Nat.le_refl _)
  have outside : map.heap.next ∉ addresses (chains (bucketOf key)) := fun mem => rep.live mem unused
  have patched := @Heap.patch_blank UInt8 0 hashMapMaxKey key short
  refine ⟨{ map with
      heap := (map.heap.malloc ⟨map.bucket (bucketOf key), newNode key val⟩).2
      bucket := Function.update map.bucket (bucketOf key) (some map.heap.next)
      nodeCount := map.nodeCount + 1 }, map.heap.next, ?_, ?_, rfl⟩
  · simp only [Supex.pushNode, patched, bind, Except.bind, pure, Except.pure]
    rfl
  · refine rep.change (bucketOf key) _ ((rep.chain (bucketOf key)).push outside) ?_ ?_ ?_ ?_ ?_
    · intro place _ new
      exact Function.update_of_ne (fun same => new (by simp [same])) _ _
    · intro place old new
      exact absurd (mem_cons_of_mem _ old) new
    · intro place mem
      rcases mem_cons.mp mem with rfl | old
      · exact .inr unused
      · exact .inl old
    · intro entry mem
      rcases mem_cons.mp mem with rfl | old
      · exact ⟨newNode_sound key val, by rw [newNode_keyOf]⟩
      · exact rep.sound _ entry old
    · simp only [map_cons, newNode_keyOf, nodup_cons, mem_map, not_exists, not_and]
      exact ⟨absent, rep.keys _⟩

theorem Rep.split (split : chains index = before ++ (address, node) :: after)
    (live : map.heap.block address = some ⟨link, node⟩) :
    Chain map.heap.block link after ∧ address ∉ addresses before ∧ address ∉ addresses after := by
  have chain := rep.chain index
  have apart := rep.apart index
  rw [split] at chain apart
  rw [Linked.addresses_append, Linked.addresses_cons, nodup_append, nodup_cons] at apart
  obtain ⟨_, found, tail⟩ := chain.behind
  rw [live] at found
  cases found
  exact ⟨tail, fun mem => apart.2.2 address mem address mem_cons_self rfl, apart.2.1.1⟩

theorem Rep.overwrite (split : chains index = before ++ (address, node) :: after)
    (live : map.heap.block address = some ⟨link, node⟩) (fits : val.length ≤ node.total.toNat) :
    ∃ next changed, overwrite map address ⟨link, node⟩ val = .ok next ∧
      Rep others next (Function.update chains index (before ++ (address, changed) :: after)) ∧
      next.nodeCount = map.nodeCount ∧ changed.keyOf = node.keyOf ∧ changed.valueOf = val ∧
      changed.total = node.total := by
  obtain ⟨tail, notBefore, notAfter⟩ := rep.split split live
  have chain := rep.chain index
  have keys := rep.keys index
  have sounds := rep.sound index
  rw [split] at chain keys sounds
  obtain ⟨sound, inside⟩ := sounds (address, node) (by simp)
  obtain ⟨bytes, patched, front, size⟩ := Heap.patch_front (Nat.le_trans fits sound.total)
  obtain ⟨heap, put, blocks, -⟩ := Heap.Blocks.replace_live live
    (some ⟨link, { node with val := bytes, vlen := val.length }⟩)
  have changed := rep.change index map.nodeCount (blocks ▸ chain.update notBefore tail notAfter) ?_ ?_ ?_ ?_ ?_
  · refine ⟨_, _, ?_, changed, rfl, rfl, front, rfl⟩
    rw [Function.update_eq_self]
    simp only [Supex.overwrite, patched, Heap.Blocks.put, put, bind, Except.bind, pure, Except.pure]
  · intro place old new
    rw [blocks]
    refine Function.update_of_ne (fun here => old ?_) _ _
    simp [split, here]
  · intro place old new
    exact absurd (by simpa [split] using old) new
  · intro place new
    exact .inl (by simpa [split] using new)
  · intro entry mem
    rw [mem_append, mem_cons] at mem
    rcases mem with first | rfl | last
    · exact sounds entry (by simp [first])
    · refine ⟨⟨sound.hash, sound.klen, ?_, ?_⟩, inside⟩
      · exact size ▸ Nat.le_trans fits sound.total
      · exact size ▸ sound.total
    · exact sounds entry (by simp [last])
  · rw [map_append, map_cons] at keys ⊢
    exact keys

theorem Rep.unlink (split : chains index = before ++ (address, node) :: after)
    (live : map.heap.block address = some ⟨link, node⟩) :
    ∃ next, unlink map index (Linked.lastOf none before) address ⟨link, node⟩ = .ok next ∧
      Rep others next (Function.update chains index (before ++ after)) ∧ next.nodeCount = map.nodeCount := by
  obtain ⟨tail, notBefore, notAfter⟩ := rep.split split live
  have chain := rep.chain index
  have apart := rep.apart index
  have sounds := rep.sound index
  have keys := rep.keys index
  rw [split] at chain apart sounds keys
  obtain ⟨middle, head, linked, shorter, frame⟩ := chain.setNext_lastOf apart live
  obtain ⟨heap, freed, blocks, -⟩ := Heap.Blocks.replace_live ((frame address notBefore).trans live) none
  have outside : address ∉ addresses (before ++ after) := by simp [notBefore, notAfter]
  have kept : Chain heap.block head (before ++ after) := by
    refine shorter.congr fun place mem => ?_
    rw [blocks, Function.update_of_ne (by rintro rfl; exact outside mem)]
  have changed := rep.change index map.nodeCount kept ?_ ?_ ?_ ?_ ?_
  · refine ⟨_, ?_, changed, rfl⟩
    simp only [Supex.unlink, linked, Heap.Blocks.free, freed, bind, Except.bind, pure, Except.pure]
  · intro place old new
    simp only [split, Linked.addresses_append, Linked.addresses_cons, mem_append, mem_cons, not_or] at old
    rw [blocks, Function.update_of_ne old.2.1, frame place old.1]
  · intro place old new
    have here : place = address := by
      simp only [split, Linked.addresses_append, Linked.addresses_cons, mem_append, mem_cons] at old new
      grind
    rw [blocks, here, Function.update_self]
  · intro place new
    refine .inl ?_
    rw [split]
    simp only [Linked.addresses_append, Linked.addresses_cons, mem_append, mem_cons] at new ⊢
    grind
  · intro entry mem
    refine sounds entry ?_
    simp only [mem_append, mem_cons] at mem ⊢
    grind
  · refine keys.sublist (List.Sublist.map _ ?_)
    exact List.Sublist.append_left (sublist_cons_self _ _) _

end

structure Entry where
  value : List UInt8
  total : UInt32

structure Contents where
  entry : List UInt8 → Option Entry
  count : Nat

def Contents.empty : Contents := ⟨fun _ => none, 0⟩

def Contents.renew (contents : Contents) (key val : List UInt8) : Contents where
  entry := Function.update contents.entry key (some ⟨val, UInt32.ofNat val.length⟩)
  count := contents.count + 1

def Contents.set (contents : Contents) (input : List UInt8 × List UInt8) : Contents :=
  match contents.entry input.1 with
  | none => contents.renew input.1 input.2
  | some old =>
    if input.2.length ≤ old.total.toNat then
      { contents with entry := Function.update contents.entry input.1 (some ⟨input.2, old.total⟩) }
    else contents.renew input.1 input.2

def Node.entry (node : Node) : Entry := ⟨node.valueOf, node.total⟩

theorem newNode_entry (key val : List UInt8) : (newNode key val).entry = ⟨val, UInt32.ofNat val.length⟩ := by
  rw [Node.entry, newNode_valueOf]
  rfl

structure Refines (others : Nat → Option (Link Node)) (map : HashMap) (chains : Nat → List (Nat × Node))
    (contents : Contents) : Prop where
  rep : Rep others map chains
  entry : (fun key => (nodeAt chains key).map Node.entry) = contents.entry
  count : map.nodeCount = contents.count

theorem refines_open (heap : Heap.Blocks (Link Node)) :
    Refines heap.block (hashmapOpen heap) (fun _ => []) Contents.empty := ⟨rep_open heap, rfl, rfl⟩

theorem nodeAt_update {changed : Node}
    (here : entries.find? (fun entry => entry.2.keyOf = key) = some (address, changed))
    (elsewhere : ∀ other, other ≠ key → entries.find? (fun entry => entry.2.keyOf = other) =
      (chains (bucketOf key)).find? fun entry => entry.2.keyOf = other) :
    nodeAt (Function.update chains (bucketOf key) entries) = Function.update (nodeAt chains) key (some changed) := by
  funext other
  by_cases same : other = key
  · rw [same, Function.update_self, nodeAt, Function.update_self, here]
    rfl
  · rw [Function.update_of_ne same, nodeAt, nodeAt]
    by_cases bucket : bucketOf other = bucketOf key
    · rw [bucket, Function.update_self, elsewhere other same]
    · rw [Function.update_of_ne bucket]

variable {contents : Contents}

theorem Refines.update (refines : Refines others map chains contents) {next : HashMap}
    {address : Nat} {changed : Node}
    (rep : Rep others next (Function.update chains (bucketOf key) entries))
    (here : entries.find? (fun entry => entry.2.keyOf = key) = some (address, changed))
    (elsewhere : ∀ other, other ≠ key → entries.find? (fun entry => entry.2.keyOf = other) =
      (chains (bucketOf key)).find? fun entry => entry.2.keyOf = other) :
    Refines others next (Function.update chains (bucketOf key) entries)
      ⟨Function.update contents.entry key (some changed.entry), next.nodeCount⟩ := by
  refine ⟨rep, ?_, rfl⟩
  rw [nodeAt_update here elsewhere, ← refines.entry]
  funext other
  by_cases same : other = key
  · simp [same]
  · simp [same]

theorem Refines.pushNode (refines : Refines others map chains contents) {middle : HashMap}
    (rep : Rep others middle (Function.update chains (bucketOf key) entries))
    (count : middle.nodeCount = map.nodeCount) (short : key.length ≤ hashMapMaxKey)
    (absent : ∀ entry ∈ entries, entry.2.keyOf ≠ key)
    (elsewhere : ∀ other, other ≠ key → entries.find? (fun entry => entry.2.keyOf = other) =
      (chains (bucketOf key)).find? fun entry => entry.2.keyOf = other) (val : List UInt8) :
    ∃ next changed, Supex.pushNode middle (bucketOf key) key (hash key 0) val = .ok next ∧
      Refines others next changed (contents.renew key val) := by
  obtain ⟨next, address, pushed, repNext, countNext⟩ := rep.pushNode short (by rwa [Function.update_self]) val
  rw [Function.update_self, Function.update_idem] at repNext
  have renewed := refines.update repNext (show _ = some (address, newNode key val) by simp) fun other ne => by
    rw [← elsewhere other ne, List.find?_cons_of_neg (by simpa using ne.symm)]
  rw [countNext, count, refines.count] at renewed
  rw [newNode_entry] at renewed
  exact ⟨next, _, pushed, renewed⟩

theorem find_elsewhere {other : List UInt8} (ne : other ≠ key) (same : node.keyOf = key) :
    (before ++ (address, node) :: after).find? (fun entry => entry.2.keyOf = other) =
      (before ++ after).find? fun entry => entry.2.keyOf = other := by
  rw [List.find?_append, List.find?_append, List.find?_cons_of_neg (by simpa [same] using ne.symm)]

section

variable (refines : Refines others map chains contents)

include refines

theorem Refines.overwrite (split : chains (bucketOf key) = before ++ (address, node) :: after)
    (live : map.heap.block address = some ⟨link, node⟩) (keyEq : node.keyOf = key)
    (absent : ∀ entry ∈ before ++ after, entry.2.keyOf ≠ key) (fits : val.length ≤ node.total.toNat) :
    ∃ next changed, Supex.overwrite map address ⟨link, node⟩ val = .ok next ∧ Refines others next changed
      { contents with entry := Function.update contents.entry key (some ⟨val, node.total⟩) } := by
  obtain ⟨next, changed, written, repNext, count, sameKey, value, total⟩ := refines.rep.overwrite split live fits
  have changedKey := sameKey.trans keyEq
  have here : (before ++ (address, changed) :: after).find? (fun entry => entry.2.keyOf = key) =
      some (address, changed) := by
    rw [List.find?_append, List.find?_eq_none.mpr, List.find?_cons_of_pos (by simpa using changedKey)]
    · rfl
    · intro entry mem
      simpa using absent entry (mem_append_left _ mem)
  have updated := refines.update repNext here fun other ne => by
    rw [split, find_elsewhere ne changedKey, find_elsewhere ne keyEq]
  rw [count, refines.count, Node.entry, value, total] at updated
  exact ⟨next, _, written, updated⟩

theorem Refines.hashmapSet (short : key.length ≤ hashMapMaxKey) (val : List UInt8) :
    ∃ next changed, hashmapSet map key val = .ok next ∧ Refines others next changed (contents.set (key, val)) := by
  have rep := refines.rep
  have entryEq : contents.entry key = (nodeAt chains key).map Node.entry := by rw [← refines.entry]
  simp only [Supex.hashmapSet, rep.count, Nat.not_lt.mpr short, if_false]
  rw [← bucketOf]
  rcases rep.search key with ⟨missing, search, absent⟩ | ⟨before, address, node, after, found, keyEq, split, search⟩
  · obtain ⟨next, changed, pushed, refinesNext⟩ := refines.pushNode (by rwa [Function.update_eq_self]) rfl short absent
      (fun _ _ => rfl) val
    refine ⟨next, changed, ?_, ?_⟩
    · simp only [search, pushed, memory, bind, Except.bind]
    · rw [Contents.set, entryEq, missing]
      exact refinesNext
  · have chain := rep.chain (bucketOf key)
    have keys := rep.keys (bucketOf key)
    rw [split] at chain keys
    obtain ⟨link, live, -⟩ := chain.behind
    have absent : ∀ entry ∈ before ++ after, entry.2.keyOf ≠ key := by
      rw [map_append, map_cons, nodup_middle, nodup_cons, ← map_append] at keys
      rintro entry mem same
      exact keys.1 (mem_map.mpr ⟨entry, mem, same.trans keyEq.symm⟩)
    rw [found, Option.map_some] at entryEq
    by_cases fits : val.length ≤ node.total.toNat
    · obtain ⟨next, changed, written, refinesNext⟩ := refines.overwrite split live keyEq absent fits
      refine ⟨next, changed, ?_, ?_⟩
      · simp only [search, chain.nextOf_lastOf, Heap.Blocks.get_live live, fits, if_true, written, memory, bind,
          Except.bind]
      · simp only [Contents.set, entryEq, Node.entry, fits, if_true]
        exact refinesNext
    · obtain ⟨middle, unlinked, repMiddle, count⟩ := rep.unlink split live
      obtain ⟨next, changed, pushed, refinesNext⟩ := refines.pushNode repMiddle count short absent
        (fun other ne => by rw [split, find_elsewhere ne keyEq]) val
      refine ⟨next, changed, ?_, ?_⟩
      · simp only [search, chain.nextOf_lastOf, Heap.Blocks.get_live live, fits, if_false, unlinked, pushed, memory,
          bind,
          Except.bind]
      · simp only [Contents.set, entryEq, Node.entry, fits, if_false]
        exact refinesNext

theorem Refines.run {sets : List (List UInt8 × List UInt8)} (short : ∀ input ∈ sets, input.1.length ≤ hashMapMaxKey) :
    ∃ final answers changed, Machine.run setStep map sets = .ok (final, answers) ∧
      Refines others final changed (sets.foldl Contents.set contents) := by
  induction sets generalizing map chains contents with
  | nil => exact ⟨map, [], chains, rfl, refines⟩
  | cons input rest ih =>
    obtain ⟨next, changed, set, refinesNext⟩ := refines.hashmapSet (short input mem_cons_self) input.2
    obtain ⟨final, answers, last, runEq, refinesFinal⟩ := ih refinesNext
      fun other mem => short other (mem_cons_of_mem _ mem)
    refine ⟨final, () :: answers, last, Machine.run_cons ?_ runEq, refinesFinal⟩
    rw [setStep, set]
    rfl

end

def lastSet (sets : List (List UInt8 × List UInt8)) (key : List UInt8) : Option (List UInt8) :=
  (sets.reverse.find? fun input => input.1 = key).map Prod.snd

theorem Contents.set_entry (contents : Contents) (input : List UInt8 × List UInt8) :
    ∃ total, (contents.set input).entry = Function.update contents.entry input.1 (some ⟨input.2, total⟩) := by
  rw [Contents.set]
  split
  · exact ⟨_, rfl⟩
  · split
    · exact ⟨_, rfl⟩
    · exact ⟨_, rfl⟩

def contentsOf (sets : List (List UInt8 × List UInt8)) : Contents := sets.foldl Contents.set Contents.empty

theorem contentsOf_concat (sets : List (List UInt8 × List UInt8)) (input : List UInt8 × List UInt8) :
    contentsOf (sets ++ [input]) = (contentsOf sets).set input := by
  rw [contentsOf, foldl_append]
  rfl

theorem entry_eq_lastSet (sets : List (List UInt8 × List UInt8)) (key : List UInt8) :
    ((contentsOf sets).entry key).map Entry.value = lastSet sets key := by
  induction sets using List.reverseRecOn with
  | nil => rfl
  | append_singleton sets input ih =>
    obtain ⟨total, entryEq⟩ := (contentsOf sets).set_entry input
    rw [contentsOf_concat, entryEq, lastSet, reverse_append, reverse_singleton, singleton_append]
    by_cases same : input.1 = key
    · simp [same]
    · rw [List.find?_cons_of_neg (by simpa using same), Function.update_of_ne (Ne.symm same), ih, lastSet]

theorem refines_run (heap : Heap.Blocks (Link Node)) {sets : List (List UInt8 × List UInt8)}
    (short : ∀ input ∈ sets, input.1.length ≤ hashMapMaxKey) :
    ∃ final answers chains, Machine.run setStep (hashmapOpen heap) sets = .ok (final, answers) ∧
      Refines heap.block final chains (contentsOf sets) := (refines_open heap).run short

theorem Refines.hashmapGet (refines : Refines others map chains contents) (key : List UInt8) :
    hashmapGet map key = .ok (answered ((contents.entry key).map Entry.value)) := by
  rw [refines.rep.hashmapGet, ← refines.entry, Option.map_map]
  rfl

/-- A key is answered with the value it was last set to, and a set changes no other key. -/
theorem hashmap_get_lastSet (heap : Heap.Blocks (Link Node)) {sets : List (List UInt8 × List UInt8)}
    (short : ∀ input ∈ sets, input.1.length ≤ hashMapMaxKey) :
    ∃ final answers, Machine.run setStep (hashmapOpen heap) sets = .ok (final, answers) ∧
      (∀ key, hashmapGet final key = .ok (answered (lastSet sets key))) ∧
      ∀ key val, key.length ≤ hashMapMaxKey → ∃ next, hashmapSet final key val = .ok next ∧
        ∀ other, other ≠ key → hashmapGet next other = hashmapGet final other := by
  obtain ⟨final, answers, chains, runEq, refines⟩ := refines_run heap short
  refine ⟨final, answers, runEq, fun key => ?_, fun key val keyShort => ?_⟩
  · rw [refines.hashmapGet, entry_eq_lastSet]
  · obtain ⟨next, changed, set, refinesNext⟩ := refines.hashmapSet keyShort val
    refine ⟨next, set, fun other ne => ?_⟩
    obtain ⟨total, entryEq⟩ := (contentsOf sets).set_entry (key, val)
    rw [refinesNext.hashmapGet, refines.hashmapGet, entryEq, Function.update_of_ne ne]

theorem hashmap_get_lastSet_longer :
    ∃ final answers, Machine.run setStep (hashmapOpen Heap.Blocks.empty)
      [([97], [1]), ([98], [2, 3]), ([97], [4, 5, 6])] =
        .ok (final, answers) ∧
      hashmapGet final [97] = .ok (some [4, 5, 6], 3) ∧ hashmapGet final [98] = .ok (some [2, 3], 2) ∧
      hashmapGet final [99] = .ok (none, 0) := by
  obtain ⟨final, answers, runEq, gets, -⟩ :=
    @hashmap_get_lastSet Heap.Blocks.empty [([97], [1]), ([98], [2, 3]), ([97], [4, 5, 6])] (by decide)
  exact ⟨final, answers, runEq, gets [97], gets [98], gets [99]⟩

end Libucmq.Supex
