import Libucmq.Library.CString
import Libucmq.Topo.Make

/-! The queries of `topo_api.c` that walk the ring of a node. -/

namespace Libucmq.Topo

open List Function CString

open Circle (Links Round)

variable {topo : Network} {graph : Graph} {edge : Edge}

def maxErrorMessageSize : Nat := 32

def message (text : List UInt8) : List UInt8 := text.take (maxErrorMessageSize - 1)

def errorQueryNoId (idx : Nat) : List UInt8 := message (ascii "No this id " ++ Decimal.numeral idx)

def errorPeakIsSmall : List UInt8 := message (ascii "Peak is small")

structure QueryArgs where
  idx : Nat
  data : List UInt8
  len : Nat
  peak : Nat
  size : Int
  erro : List UInt8
  buf : Nat → Option Nat

def topoPullLine (topo : Network) (idx : Nat) : Except Fault (Option Place) :=
  if membtGood topo.lines idx then do
    let (line, _) ← membtGain topo.lines idx
    .ok (if 0 < topo.id line then some line else none)
  else .ok none

def listRing (topo : Network) (links : Links Place) (head : Place) :
    Nat → Option Place → Nat → QueryArgs → Except Fault (Bool × QueryArgs)
  | 0, _, _, info => .ok (false, { info with erro := errorPeakIsSmall })
  | _ + 1, none, _, _ => .error .null
  | room + 1, some line, i, info =>
    let info := { info with buf := update info.buf i (some (topo.id line)), size := i + 1 }
    if links.next line = some head then .ok (true, info)
    else listRing topo links head room (links.next line) (i + 1) info

def listRoads (topo : Network) (node : Place → Option Place) (ends : Ends) (info : QueryArgs) :
    Except Fault (Bool × QueryArgs) := do
  match ← topoPullLine topo info.idx with
  | none => .ok (false, { info with erro := errorQueryNoId info.idx })
  | some line =>
    match node line with
    | none => .error .null
    | some node =>
      match ends.head node with
      | none => .ok (true, { info with size := 0 })
      | some head => listRing topo ends.links head info.peak (some head) 0 info

def getExportRoadByRoad (topo : Network) (info : QueryArgs) : Except Fault (Bool × QueryArgs) :=
  listRoads topo topo.gotoNode topo.exports info

def getImportRoadByRoad (topo : Network) (info : QueryArgs) : Except Fault (Bool × QueryArgs) :=
  listRoads topo topo.fromNode topo.imports info

theorem Made.topoPullLine {id : Nat} (made : Made topo graph)
    (found : graph id = some edge) : topoPullLine topo id = .ok (some (topo.lines.place id)) := by
  obtain ⟨positive, inside⟩ := made.inside id edge found
  have number : topo.id (topo.lines.place id) = id := by simp [made.id, found]
  rw [Topo.topoPullLine, membtGood_eq inside, made.allocated id edge found, if_pos rfl, membtGain_eq inside,
    Outcome.ok_bind]
  simp only [number, if_pos positive]

def Answers (result : Except Fault (Bool × QueryArgs)) (info : QueryArgs) (ids : List Nat) : Prop :=
  (ids.length ≤ info.peak → ∃ reply, result = .ok (true, reply) ∧ reply.size = ids.length ∧
    ∀ index < ids.length, reply.buf index = ids[index]?) ∧
  (info.peak < ids.length → ∃ reply, result = .ok (false, reply) ∧ reply.erro = errorPeakIsSmall)

theorem listRing_answers {topo : Network} {links : Links Place} {head line : Place} {front back : List Place}
    {room : Nat} {info : QueryArgs} (path : Circle.Path links (front ++ line :: back ++ [head]))
    (apart : head ∉ back) :
    (back.length < room → ∃ reply, listRing topo links head room (some line) front.length info = .ok (true, reply) ∧
      reply.size = front.length + back.length + 1 ∧ (∀ index < front.length, reply.buf index = info.buf index) ∧
      ∀ index < back.length + 1, reply.buf (front.length + index) = ((line :: back).map topo.id)[index]?) ∧
    (room ≤ back.length → ∃ reply, listRing topo links head room (some line) front.length info = .ok (false, reply) ∧
      reply.erro = errorPeakIsSmall) := by
  induction back generalizing front line room info with
  | nil =>
    have last : links.next line = some head := (@Circle.Path.joined _ links front [] line head (by simpa using path)).1
    cases room with
    | zero => exact ⟨fun short => absurd short (by simp), fun _ => ⟨_, rfl, rfl⟩⟩
    | succ room =>
      refine ⟨fun _ => ⟨_, by rw [listRing, if_pos last], by simp, ?_, ?_⟩, fun long => absurd long (by simp)⟩
      · intro index early
        exact update_of_ne (Nat.ne_of_lt early) ..
      · intro index bound
        obtain rfl : index = 0 := by simpa using bound
        simp
  | cons next back ih =>
    have following : links.next line = some next :=
      (@Circle.Path.joined _ links front (back ++ [head]) line next (by simpa using path)).1
    simp only [mem_cons, not_or] at apart
    cases room with
    | zero => exact ⟨fun short => absurd short (by simp), fun _ => ⟨_, rfl, rfl⟩⟩
    | succ room =>
      have other : links.next line ≠ some head := by
        rw [following]
        simpa using Ne.symm apart.1
      rw [listRing, if_neg other, following]
      have turn := @ih next (front ++ [line]) room
        { info with buf := update info.buf front.length (some (topo.id line)), size := front.length + 1 }
        (by simpa using path) apart.2
      rw [length_append, length_singleton] at turn
      refine ⟨fun short => ?_, fun long => turn.2 (by simpa using long)⟩
      obtain ⟨reply, returned, size, before, behind⟩ := turn.1 (by simpa using short)
      refine ⟨reply, returned, ?_, ?_, ?_⟩
      · rw [size, length_cons]
        push_cast
        omega
      · intro index early
        rw [before index (by omega)]
        exact update_of_ne (Nat.ne_of_lt early) ..
      · intro index bound
        cases index with
        | zero =>
          rw [Nat.add_zero, before front.length (by omega)]
          simp
        | succ index =>
          rw [Nat.add_comm index 1, ← Nat.add_assoc, behind index (by simpa using bound), Nat.add_comm 1 index]
          rfl

theorem listRoads_answers {node : Place → Option Place} {ends : Ends}
    {info : QueryArgs} {place : Place} {ids : List Nat} (made : Made topo graph)
    (found : graph info.idx = some edge) (owner : node (topo.lines.place info.idx) = some place)
    (lists : ends.Lists place (ids.map topo.lines.place)) (loaded : ∀ id ∈ ids, (graph id).isSome) :
    Answers (listRoads topo node ends info) info ids := by
  have numbers : (ids.map topo.lines.place).map topo.id = ids := by
    rw [map_map]
    conv_rhs => rw [← map_id ids]
    refine map_congr_left ?_
    intro id member
    simp [made.id, loaded id member]
  rw [listRoads, made.topoPullLine found, Outcome.ok_bind]
  simp only [owner]
  cases ids with
  | nil =>
    rw [show ends.head place = none from lists]
    exact ⟨fun _ => ⟨_, rfl, rfl, by simp⟩, fun long => absurd long (by simp)⟩
  | cons first rest =>
    obtain ⟨head, round⟩ := lists
    have apart : topo.lines.place first ∉ rest.map topo.lines.place := (nodup_cons.mp round.distinct).1
    have answers := @listRing_answers topo ends.links (topo.lines.place first) (topo.lines.place first) []
      (rest.map topo.lines.place) info.peak info (by simpa using round.path) apart
    simp only [head]
    rw [length_map] at answers
    rw [Answers, length_cons]
    refine ⟨fun short => ?_, fun long => answers.2 (Nat.le_of_lt_succ long)⟩
    obtain ⟨reply, returned, size, _, entries⟩ := answers.1 short
    refine ⟨reply, returned, by simpa using size, ?_⟩
    intro index bound
    have entry := entries index (by simpa using bound)
    rw [← map_cons, numbers] at entry
    simpa using entry

theorem Graph.loaded_of_leaving {bound node id : Nat} (member : id ∈ graph.leaving bound node) :
    (graph id).isSome := by
  have leaves := of_mem_filter member
  cases found : graph id with
  | none => simp [found] at leaves
  | some edge => rfl

theorem Graph.loaded_of_entering {bound node id : Nat} (member : id ∈ graph.entering bound node) :
    (graph id).isSome := by
  have enters := of_mem_filter member
  cases found : graph id with
  | none => simp [found] at enters
  | some edge => rfl

theorem Made.getExportRoadByRoad {info : QueryArgs} (made : Made topo graph) (found : graph info.idx = some edge) :
    Answers (getExportRoadByRoad topo info) info (graph.leaving topo.lines.peakCount edge.eNode) :=
  listRoads_answers made found (by rw [made.gotoNode, found, Option.map_some]) (made.exports edge.eNode)
    fun _ => Graph.loaded_of_leaving

theorem Made.getImportRoadByRoad {info : QueryArgs} (made : Made topo graph) (found : graph info.idx = some edge) :
    Answers (getImportRoadByRoad topo info) info (graph.entering topo.lines.peakCount edge.fNode) :=
  listRoads_answers made found (by rw [made.fromNode, found, Option.map_some]) (made.imports edge.fNode)
    fun _ => Graph.loaded_of_entering

/-- The rings `topo_make` builds, and what the queries answer on them. -/
theorem topoMake_rings {pageSize maxNodes maxLines : Nat} (fits : 0 < pageSize * memStepPageCount / 80)
    {rows : List Row} {topo : Network} (loaded : topoLoad (topoInit pageSize maxNodes maxLines fits) rows = .ok topo) :
    ∃ made, topoMake topo = .ok made ∧ (∀ node, made.exports.Lists (made.nodes.place node)
        (((graphOf rows).leaving maxLines node).map made.lines.place)) ∧
      (∀ node, made.imports.Lists (made.nodes.place node)
        (((graphOf rows).entering maxLines node).map made.lines.place)) ∧
      ∀ info edge, graphOf rows info.idx = some edge →
        Answers (getExportRoadByRoad made info) info ((graphOf rows).leaving maxLines edge.eNode) ∧
        Answers (getImportRoadByRoad made info) info ((graphOf rows).entering maxLines edge.fNode) := by
  obtain ⟨made, result, rings, lines⟩ := ((stores_init fits).topoLoad loaded).topoMake
  have bound : made.lines.peakCount = maxLines := by rw [lines, topoLoad_peakCount loaded]; rfl
  refine ⟨made, result, ?_, ?_, ?_⟩
  · rw [← bound]
    exact rings.exports
  · rw [← bound]
    exact rings.imports
  · intro info edge found
    rw [← bound]
    exact ⟨rings.getExportRoadByRoad found, rings.getImportRoadByRoad found⟩

theorem topoMake_rings_return : ∃ topo made, topoLoad (topoInit 4096 10 10 (by decide))
        [.node 1, .node 2, .line 7 1 2 30, .line 4 1 2 50, .line 5 2 1 20] = .ok topo ∧ topoMake topo = .ok made ∧
      Answers (getExportRoadByRoad made ⟨5, [], 0, 8, 0, [], fun _ => none⟩)
        ⟨5, [], 0, 8, 0, [], fun _ => none⟩ [4, 7] := by
  obtain ⟨topo, loaded⟩ : ∃ topo, topoLoad (topoInit 4096 10 10 (by decide))
      [.node 1, .node 2, .line 7 1 2 30, .line 4 1 2 50, .line 5 2 1 20] = .ok topo := ⟨_, rfl⟩
  obtain ⟨made, result, _, _, answers⟩ := topoMake_rings (by decide) loaded
  exact ⟨topo, made, loaded, result, (answers ⟨5, [], 0, 8, 0, [], fun _ => none⟩ ⟨2, 1, 20⟩ rfl).1⟩

end Libucmq.Topo
