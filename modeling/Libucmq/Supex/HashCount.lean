import Mathlib.Data.List.Dedup
import Libucmq.Supex.HashMap

/-! `node_count` against the keys of the map and the nodes that `hashmap_close` frees. -/

namespace Libucmq.Supex

open List Machine

open Linked (Link Chain addresses Reachable)

variable {others : Nat → Option (Link Node)} {map : HashMap} {chains : Nat → List (Nat × Node)}
  {sets : List (List UInt8 × List UInt8)} {input : List UInt8 × List UInt8} {contents : Contents}

theorem Rep.index_lt (rep : Rep others map chains) {index place : Nat} (mem : place ∈ addresses (chains index)) :
    index < defaultBucketSize := by
  obtain ⟨entry, inside, -⟩ := mem_map.mp mem
  rw [← (rep.sound index entry inside).2]
  exact Nat.mod_lt _ (by decide)

def nodesOf (chains : Nat → List (Nat × Node)) (indices : List Nat) : List Nat :=
  indices.flatMap fun index => addresses (chains index)

theorem Rep.nodesOf_nodup (rep : Rep others map chains) {indices : List Nat} (apart : indices.Nodup) :
    (nodesOf chains indices).Nodup := by
  refine nodup_flatMap.mpr ⟨fun index _ => rep.apart index, apart.imp fun ne place left right => ?_⟩
  exact rep.disjoint ne left right

theorem closeFrom_ok {bucket : Nat → Option Nat} {indices : List Nat} {heap : Heap.Blocks (Link Node)}
    (chain : ∀ index ∈ indices, Chain heap.block (bucket index) (chains index))
    (apart : (nodesOf chains indices).Nodup) :
    ∃ left, closeFrom bucket indices heap = .ok (nodesOf chains indices, left) ∧
      left.block = fun place => if place ∈ nodesOf chains indices then none else heap.block place := by
  induction indices generalizing heap with
  | nil => exact ⟨heap, rfl, by simp [nodesOf]⟩
  | cons index rest ih =>
    rw [nodesOf, flatMap_cons, nodup_append] at apart
    obtain ⟨here, later, disjoint⟩ := apart
    have first := chain index mem_cons_self
    obtain ⟨middle, freed, -, blocks⟩ := first.freeAll here (first.length_le here)
    have kept : ∀ other ∈ rest, Chain middle.block (bucket other) (chains other) := by
      intro other mem
      refine (chain other (mem_cons_of_mem _ mem)).congr fun place inside => ?_
      have outside : place ∉ addresses (chains index) := by
        intro shared
        exact disjoint place shared place (mem_flatMap.mpr ⟨other, mem, inside⟩) rfl
      simp only [blocks, outside, if_false]
    obtain ⟨left, closed, leftBlocks⟩ := ih kept later
    refine ⟨left, ?_, ?_⟩
    · simp only [closeFrom, freed, closed, traversal, bind, Except.bind, pure, Except.pure]
      rfl
    · rw [leftBlocks, blocks]
      funext place
      by_cases inside : place ∈ addresses (chains index)
      · simp [nodesOf, inside]
      · simp [nodesOf, inside]

theorem Rep.hashmapClose (rep : Rep others map chains) :
    ∃ left, hashmapClose map = .ok (nodesOf chains (List.range defaultBucketSize), left) ∧ left.block = others := by
  obtain ⟨left, closed, blocks⟩ := closeFrom_ok (fun index _ => rep.chain index)
    (rep.nodesOf_nodup (nodup_range (n := defaultBucketSize)))
  refine ⟨left, ?_, ?_⟩
  · rw [Supex.hashmapClose, rep.count, closed]
  · rw [blocks]
    funext place
    by_cases inside : place ∈ nodesOf chains (List.range defaultBucketSize)
    · obtain ⟨index, -, mem⟩ := mem_flatMap.mp inside
      rw [if_pos inside, rep.fresh index place mem]
    · rw [if_neg inside]
      refine rep.rest place fun index mem => inside (mem_flatMap.mpr ⟨index, ?_, mem⟩)
      exact mem_range.mpr (rep.index_lt mem)

theorem Rep.mem_nodesOf (rep : Rep others map chains) {place : Nat} :
    place ∈ nodesOf chains (List.range defaultBucketSize) ↔
      ∃ index, index < map.bucketCount ∧ Reachable map.heap.block (map.bucket index) place := by
  simp only [nodesOf, mem_flatMap, mem_range, rep.count, (rep.chain _).reachable_iff]

def distinctKeys (sets : List (List UInt8 × List UInt8)) : Nat := (sets.map Prod.fst).dedup.length

variable {key : List UInt8}

theorem lastSet_isSome : (lastSet sets key).isSome ↔ key ∈ sets.map Prod.fst := by
  simp [lastSet]

theorem nodeAt_isSome (rep : Rep others map chains) :
    (nodeAt chains key).isSome ↔ ∃ index, ∃ entry ∈ chains index, entry.2.keyOf = key := by
  simp only [nodeAt, Option.isSome_map, List.find?_isSome, decide_eq_true_eq]
  constructor
  · rintro ⟨entry, mem, same⟩
    exact ⟨_, entry, mem, same⟩
  · rintro ⟨index, entry, mem, rfl⟩
    exact ⟨entry, by rwa [(rep.sound index entry mem).2], rfl⟩

theorem Refines.nodesOf_length {map : HashMap} (refines : Refines others map chains (contentsOf sets)) :
    (nodesOf chains (List.range defaultBucketSize)).length = distinctKeys sets := by
  let keys := (List.range defaultBucketSize).flatMap fun index => (chains index).map fun entry => entry.2.keyOf
  have size : (nodesOf chains (List.range defaultBucketSize)).length = keys.length := by
    simp [keys, nodesOf, addresses, length_flatMap]
  have rep := refines.rep
  have apart : keys.Nodup := by
    refine nodup_flatMap.mpr ⟨fun index _ => rep.keys index, nodup_range.imp fun ne key left right => ?_⟩
    obtain ⟨first, firstMem, rfl⟩ := mem_map.mp left
    obtain ⟨second, secondMem, same⟩ := mem_map.mp right
    exact ne ((rep.sound _ first firstMem).2.symm.trans (same ▸ (rep.sound _ second secondMem).2))
  have same : ∀ key, key ∈ keys ↔ key ∈ (sets.map Prod.fst).dedup := by
    intro key
    rw [mem_dedup, ← lastSet_isSome, ← entry_eq_lastSet, ← refines.entry, Option.isSome_map, Option.isSome_map,
      nodeAt_isSome rep]
    simp only [keys, mem_flatMap, mem_range, mem_map]
    constructor
    · rintro ⟨index, -, entry, mem, rfl⟩
      exact ⟨index, entry, mem, rfl⟩
    · rintro ⟨index, entry, mem, rfl⟩
      exact ⟨index, rep.index_lt (mem_map_of_mem mem), entry, mem, rfl⟩
  rw [size, distinctKeys]
  exact ((perm_ext_iff_of_nodup apart (nodup_dedup _)).mpr same).length_eq

def firstSet (sets : List (List UInt8 × List UInt8)) (key : List UInt8) : Option (List UInt8) :=
  (sets.find? fun input => input.1 = key).map Prod.snd

/-- No value outgrows the first one of its key, a 32 bit number. -/
def NoneGrows (sets : List (List UInt8 × List UInt8)) : Prop :=
  ∀ before input after, sets = before ++ input :: after →
    ∀ first, firstSet before input.1 = some first → input.2.length ≤ first.length % 4294967296

theorem noneGrows_concat : NoneGrows (sets ++ [input]) ↔
    NoneGrows sets ∧ ∀ first, firstSet sets input.1 = some first → input.2.length ≤ first.length % 4294967296 := by
  constructor
  · intro missing
    refine ⟨fun before other after split => missing before other (after ++ [input]) ?_, missing sets input [] rfl⟩
    rw [split, append_assoc, cons_append]
  · rintro ⟨missing, last⟩ before other after split
    rcases eq_nil_or_concat after with rfl | ⟨init, final, rfl⟩
    · obtain ⟨rfl, same⟩ := append_inj' split rfl
      cases same
      exact last
    · rw [concat_eq_append, ← cons_append, ← append_assoc] at split
      exact missing before other init (append_inj' split rfl).1

theorem firstSet_concat (key : List UInt8) : firstSet (sets ++ [input]) key =
    (firstSet sets key).or (if input.1 = key then some input.2 else none) := by
  rw [firstSet, List.find?_append, firstSet]
  cases sets.find? fun input => input.1 = key with
  | some found => rfl
  | none =>
    by_cases same : input.1 = key
    · simp [same]
    · simp [same]

theorem firstSet_isSome : (firstSet sets key).isSome ↔ key ∈ sets.map Prod.fst := by
  simp [firstSet]

theorem distinctKeys_concat (known : Bool) (knownEq : known = true ↔ input.1 ∈ sets.map Prod.fst) :
    distinctKeys (sets ++ [input]) = distinctKeys sets + if known then 0 else 1 := by
  have moved : (sets.map Prod.fst ++ [input.1]).Perm (input.1 :: sets.map Prod.fst) := perm_append_singleton _ _
  rw [distinctKeys, map_append, map_singleton, moved.dedup.length_eq, distinctKeys]
  cases known with
  | true => rw [dedup_cons_of_mem (knownEq.mp rfl), if_pos rfl, Nat.add_zero]
  | false => rw [dedup_cons_of_notMem (by simpa using knownEq), length_cons, if_neg (by decide)]

structure Counted (sets : List (List UInt8 × List UInt8)) : Prop where
  le : distinctKeys sets ≤ (contentsOf sets).count
  precise : (contentsOf sets).count = distinctKeys sets ↔ NoneGrows sets
  rooms : NoneGrows sets → ∀ key, ((contentsOf sets).entry key).map Entry.total =
    (firstSet sets key).map fun first => UInt32.ofNat first.length

theorem entry_isSome : ((contentsOf sets).entry key).isSome ↔ key ∈ sets.map Prod.fst := by
  rw [← lastSet_isSome, ← entry_eq_lastSet, Option.isSome_map]

theorem Counted.fresh (counted : Counted sets) (new : (contentsOf sets).entry input.1 = none) :
    Counted (sets ++ [input]) := by
  obtain ⟨le, precise, rooms⟩ := counted
  have absent : input.1 ∉ sets.map Prod.fst := by simp [← entry_isSome, new]
  have first : firstSet sets input.1 = none := by simpa [← firstSet_isSome] using absent
  have more := distinctKeys_concat false (by simpa using absent)
  have set : (contentsOf sets).set input = (contentsOf sets).renew input.1 input.2 := by simp only [Contents.set, new]
  have missing : NoneGrows (sets ++ [input]) ↔ NoneGrows sets := by simp [noneGrows_concat, first]
  rw [if_neg (by decide)] at more
  refine ⟨?_, ?_, fun all key => ?_⟩
  · rw [contentsOf_concat, set, more]
    exact Nat.succ_le_succ le
  · rw [contentsOf_concat, set, more, missing, ← precise]
    exact Nat.succ_inj
  · rw [contentsOf_concat, set, firstSet_concat, Contents.renew]
    by_cases same : input.1 = key
    · subst same
      simp [first]
    · simp [same, Ne.symm same, rooms (missing.mp all)]

theorem distinctKeys_known {entry : Entry} (old : (contentsOf sets).entry input.1 = some entry) :
    distinctKeys (sets ++ [input]) = distinctKeys sets :=
  distinctKeys_concat true (by simp [← entry_isSome, old])

section

variable (counted : Counted sets) {entry : Entry} (old : (contentsOf sets).entry input.1 = some entry)
include counted old

theorem Counted.firstSet_eq (missing : NoneGrows sets) :
    ∃ first, firstSet sets input.1 = some first ∧ entry.total = UInt32.ofNat first.length := by
  have room := counted.rooms missing input.1
  rw [old, Option.map_some, eq_comm, Option.map_eq_some_iff] at room
  obtain ⟨first, found, size⟩ := room
  exact ⟨first, found, size.symm⟩

theorem Counted.noneGrows_iff :
    NoneGrows (sets ++ [input]) ↔ NoneGrows sets ∧ input.2.length ≤ entry.total.toNat := by
  rw [noneGrows_concat]
  refine and_congr_right fun missing => ?_
  obtain ⟨first, found, size⟩ := counted.firstSet_eq old missing
  simp [found, size]

theorem Counted.kept (fits : input.2.length ≤ entry.total.toNat) : Counted (sets ++ [input]) := by
  have set : (contentsOf sets).set input = { contentsOf sets with
      entry := Function.update (contentsOf sets).entry input.1 (some ⟨input.2, entry.total⟩) } := by
    simp only [Contents.set, old, fits, if_true]
  refine ⟨?_, ?_, fun all key => ?_⟩
  · rw [contentsOf_concat, set, distinctKeys_known old]
    exact counted.le
  · rw [contentsOf_concat, set, distinctKeys_known old, counted.noneGrows_iff old, ← counted.precise]
    simp [fits]
  · have missing := ((counted.noneGrows_iff old).mp all).1
    rw [contentsOf_concat, set, firstSet_concat]
    by_cases same : input.1 = key
    · obtain ⟨first, found, size⟩ := counted.firstSet_eq old missing
      subst same
      simp [found, size]
    · simp [same, Ne.symm same, counted.rooms missing]

theorem Counted.grown (large : ¬ input.2.length ≤ entry.total.toNat) : Counted (sets ++ [input]) := by
  have set : (contentsOf sets).set input = (contentsOf sets).renew input.1 input.2 := by
    simp only [Contents.set, old, large, if_false]
  have grows : ¬ NoneGrows (sets ++ [input]) := by
    rw [counted.noneGrows_iff old]
    exact fun all => large all.2
  have le := counted.le
  refine ⟨?_, iff_of_false ?_ grows, fun all => absurd all grows⟩
  · rw [contentsOf_concat, set, distinctKeys_known old]
    exact Nat.le_succ_of_le le
  · rw [contentsOf_concat, set, distinctKeys_known old]
    exact Nat.ne_of_gt (Nat.lt_succ_of_le le)

end

theorem counted (sets : List (List UInt8 × List UInt8)) : Counted sets := by
  induction sets using List.reverseRecOn with
  | nil =>
    refine ⟨Nat.le_refl _, iff_of_true rfl fun before input after split => ?_, fun _ _ => rfl⟩
    simp at split
  | append_singleton sets input ih =>
    cases old : (contentsOf sets).entry input.1 with
    | none => exact ih.fresh old
    | some entry =>
      by_cases fits : input.2.length ≤ entry.total.toNat
      · exact ih.kept old fits
      · exact ih.grown old fits

def ExactSize (heap : Heap.Blocks (Link Node)) (sets : List (List UInt8 × List UInt8)) : Prop :=
  ∃ final answers freed left, run setStep (hashmapOpen heap) sets = .ok (final, answers) ∧
    hashmapClose final = .ok (freed, left) ∧ left.block = heap.block ∧ freed.Nodup ∧
    (∀ place, place ∈ freed ↔
      ∃ index, index < final.bucketCount ∧ Reachable final.heap.block (final.bucket index) place) ∧
    freed.length = distinctKeys sets ∧ final.nodeCount = distinctKeys sets

/-- The size counts the keys exactly if no value grows. -/
theorem hashmap_size_iff (heap : Heap.Blocks (Link Node)) {sets : List (List UInt8 × List UInt8)}
    (short : ∀ input ∈ sets, input.1.length ≤ hashMapMaxKey) : ExactSize heap sets ↔ NoneGrows sets := by
  obtain ⟨final, answers, chains, runEq, refines⟩ := refines_run heap short
  rw [← (counted sets).precise, ← refines.count]
  constructor
  · rintro ⟨other, same, freed, left, otherEq, -, -, -, -, -, count⟩
    rw [runEq] at otherEq
    cases otherEq
    exact count
  · intro count
    obtain ⟨left, closed, blocks⟩ := refines.rep.hashmapClose
    exact ⟨final, answers, _, left, runEq, closed, blocks, refines.rep.nodesOf_nodup nodup_range,
      fun _ => refines.rep.mem_nodesOf, refines.nodesOf_length, count⟩

theorem hashmap_size_shorter : ExactSize Heap.Blocks.empty [([97], [1, 2]), ([98], [3]), ([97], [4])] := by
  refine (hashmap_size_iff Heap.Blocks.empty (by decide)).mpr ?_
  rw [← (counted _).precise]
  decide

theorem hashmap_size_longer :
    ∃ final answers, run setStep (hashmapOpen Heap.Blocks.empty) [([97], [1]), ([97], [1, 2])] =
        .ok (final, answers) ∧ final.nodeCount = 2 ∧ distinctKeys [([97], [1]), ([97], [1, 2])] = 1 ∧
      ¬ ExactSize Heap.Blocks.empty [([97], [1]), ([97], [1, 2])] := by
  obtain ⟨final, answers, chains, runEq, refines⟩ :=
    @refines_run Heap.Blocks.empty [([97], [1]), ([97], [1, 2])] (by decide)
  have two : final.nodeCount = 2 := refines.count
  refine ⟨final, answers, runEq, two, by decide, ?_⟩
  rintro ⟨other, same, freed, left, otherEq, -, -, -, -, -, count⟩
  rw [runEq] at otherEq
  cases otherEq
  rw [two] at count
  exact absurd count (by decide)

end Libucmq.Supex
