import Mathlib.Data.List.Range
import Libucmq.Library.Outcome
import Libucmq.Library.Circle

/-! The road topology of `topo.c` and its baths. -/

namespace Libucmq.Topo

open List Function

open Circle (Links Round)

variable {list : MemList} {index : Nat} {topo next : Network} {ends : Ends}

inductive Fault
  | assertion
  | null
  | outside
deriving DecidableEq, Repr

def memStepPageCount : Nat := 32

def getNeedCount (idx div : Nat) : Nat := idx / div + if 1 ≤ idx % div then 1 else 0

structure MemList where
  peakCount : Nat
  stepCount : Nat
  slot : Nat → Bool
  positive : 0 < stepCount

structure Place where
  bath : Nat
  item : Nat
deriving DecidableEq, Repr

def membtInit (typeSize pageSize peakCount : Nat) (fits : 0 < pageSize * memStepPageCount / typeSize) : MemList where
  peakCount := peakCount
  stepCount := pageSize * memStepPageCount / typeSize
  slot := fun _ => false
  positive := fits

def membtGain (list : MemList) (index : Nat) : Except Fault (Place × MemList) :=
  if index < list.peakCount then
    let divisor := (index + 1) / list.stepCount
    let remainder := (index + 1) % list.stepCount
    let offset := divisor + (if 1 ≤ remainder then 1 else 0) - 1
    let list := if list.slot offset then list else { list with slot := update list.slot offset true }
    let remainder := if remainder = 0 then list.stepCount else remainder
    .ok (⟨offset, remainder - 1⟩, list)
  else .error .assertion

def membtGood (list : MemList) (index : Nat) : Bool :=
  if list.peakCount ≤ index then false else list.slot (getNeedCount (index + 1) list.stepCount - 1)

structure Ends where
  head : Place → Option Place
  links : Links Place

/-- `exports` has `hept_line` and its rings, `imports` has `hipt_line`. -/
structure Network where
  nodes : MemList
  lines : MemList
  id : Place → Nat
  length : Place → Nat
  fromNode : Place → Option Place
  gotoNode : Place → Option Place
  exports : Ends
  imports : Ends

def emptyEnds : Ends := ⟨fun _ => none, fun _ => none, fun _ => none⟩

def topoInit (pageSize maxNodes maxLines : Nat) (fits : 0 < pageSize * memStepPageCount / 80) : Network where
  nodes := membtInit 40 pageSize maxNodes (by
    exact Nat.lt_of_lt_of_le fits (Nat.div_le_div_left (by decide) (by decide)))
  lines := membtInit 80 pageSize maxLines fits
  id := fun _ => 0
  length := fun _ => 0
  fromNode := fun _ => none
  gotoNode := fun _ => none
  exports := emptyEnds
  imports := emptyEnds

def topoPushNode (topo : Network) (idx : Nat) : Except Fault Network := do
  let (node, nodes) ← membtGain topo.nodes idx
  .ok { topo with
    nodes := nodes
    exports := { topo.exports with head := update topo.exports.head node none }
    imports := { topo.imports with head := update topo.imports.head node none } }

structure LineObj where
  id : Nat
  length : Nat
  fromNode : Place
  gotoNode : Place

def topoPushLine (topo : Network) (obj : LineObj) (idx : Nat) : Except Fault Network := do
  let (line, lines) ← membtGain topo.lines idx
  .ok { topo with
    lines := lines
    id := update topo.id line obj.id
    length := update topo.length line obj.length
    fromNode := update topo.fromNode line (some obj.fromNode)
    gotoNode := update topo.gotoNode line (some obj.gotoNode)
    exports := { topo.exports with links := topo.exports.links.clear line }
    imports := { topo.imports with links := topo.imports.links.clear line } }

/-- The length of a line is computed from the coordinates of its nodes. -/
inductive Row
  | node (id : Nat)
  | line (id fNode eNode length : Nat)

def fetchNodeCb (topo : Network) (id : Nat) : Except Fault Network :=
  if 0 < id then topoPushNode topo id else .error .assertion

def fetchLineCb (topo : Network) (id fNode eNode length : Nat) : Except Fault Network := do
  let (fromNode, nodes) ← membtGain topo.nodes fNode
  let (gotoNode, nodes) ← membtGain nodes eNode
  if 0 < id then topoPushLine { topo with nodes := nodes } ⟨id, length, fromNode, gotoNode⟩ id
  else .error .assertion

def fetchRow (topo : Network) : Row → Except Fault Network
  | .node id => fetchNodeCb topo id
  | .line id fNode eNode length => fetchLineCb topo id fNode eNode length

def topoLoad (topo : Network) (rows : List Row) : Except Fault Network := rows.foldlM fetchRow topo

def Ends.append (ends : Ends) (node line : Place) : Except Fault Ends :=
  match ends.head node with
  | none => .ok ⟨update ends.head node (some line), ends.links.join line line⟩
  | some head =>
    match ends.links.pushBack head line with
    | none => .error .null
    | some links => .ok { ends with links := links }

def topoMakeTurn (topo : Network) (i : Nat) : Except Fault Network :=
  if membtGood topo.lines i then do
    let (line, lines) ← membtGain topo.lines i
    let topo := { topo with lines := lines }
    match topo.fromNode line, topo.gotoNode line with
    | some fromNode, some gotoNode =>
      if topo.id line ≠ i then .ok topo
      else do
        let exports ← topo.exports.append fromNode line
        let imports ← topo.imports.append gotoNode line
        .ok { topo with exports := exports, imports := imports }
    | _, _ => .ok topo
  else .ok topo

def topoMake (topo : Network) : Except Fault Network := (List.range topo.lines.peakCount).foldlM topoMakeTurn topo

def MemList.place (list : MemList) (index : Nat) : Place := ⟨index / list.stepCount, index % list.stepCount⟩

def MemList.allocate (list : MemList) (index : Nat) : MemList :=
  { list with slot := update list.slot (index / list.stepCount) true }

theorem succ_div_mod {step : Nat} (positive : 0 < step) (index : Nat) :
    ((index + 1) / step = index / step ∧ (index + 1) % step = index % step + 1) ∨
      ((index + 1) / step = index / step + 1 ∧ (index + 1) % step = 0 ∧ index % step + 1 = step) := by
  have split := Nat.mod_add_div index step
  have bound := Nat.mod_lt index positive
  by_cases last : index % step + 1 = step
  · have next : (index + 1) / step = index / step + 1 ∧ (index + 1) % step = 0 :=
      (Nat.div_mod_unique positive).mpr ⟨by rw [Nat.mul_add]; omega, positive⟩
    exact Or.inr ⟨next.1, next.2, last⟩
  · have next : (index + 1) / step = index / step ∧ (index + 1) % step = index % step + 1 :=
      (Nat.div_mod_unique positive).mpr ⟨by omega, by omega⟩
    exact Or.inl next

theorem getNeedCount_succ {step : Nat} (positive : 0 < step) (index : Nat) :
    getNeedCount (index + 1) step - 1 = index / step := by
  rw [getNeedCount]
  obtain ⟨quotient, remainder⟩ | ⟨quotient, remainder, _⟩ := succ_div_mod positive index
  · simp [quotient, remainder]
  · simp [quotient, remainder]

theorem allocate_present (present : list.slot (index / list.stepCount) = true) : list.allocate index = list := by
  rw [MemList.allocate, ← present, update_eq_self]

theorem membtGain_eq (inside : index < list.peakCount) :
    membtGain list index = .ok (list.place index, list.allocate index) := by
  have offset : (index + 1) / list.stepCount + (if 1 ≤ (index + 1) % list.stepCount then 1 else 0) - 1 =
      index / list.stepCount := getNeedCount_succ list.positive index
  have allocated : (if list.slot (index / list.stepCount) then list
      else { list with slot := update list.slot (index / list.stepCount) true }) = list.allocate index := by
    split
    · rename_i present
      rw [allocate_present present]
    · rfl
  have item : (if (index + 1) % list.stepCount = 0 then (list.allocate index).stepCount
      else (index + 1) % list.stepCount) - 1 = index % list.stepCount := by
    obtain ⟨_, remainder⟩ | ⟨_, remainder, last⟩ := succ_div_mod list.positive index
    · simp [remainder]
    · rw [if_pos remainder]
      exact Nat.sub_eq_of_eq_add last.symm
  rw [membtGain, if_pos inside]
  simp only [offset, allocated, item]
  rfl

theorem membtGain_ok {result : Place × MemList} (gained : membtGain list index = .ok result) :
    index < list.peakCount ∧ result = (list.place index, list.allocate index) := by
  by_cases inside : index < list.peakCount
  · rw [membtGain_eq inside] at gained
    exact ⟨inside, (Except.ok.inj gained).symm⟩
  · rw [membtGain, if_neg inside] at gained
    cases gained

theorem membtGood_eq (inside : index < list.peakCount) :
    membtGood list index = list.slot (index / list.stepCount) := by
  rw [membtGood, if_neg (by omega), getNeedCount_succ list.positive]

theorem MemList.place_injective (list : MemList) : Function.Injective list.place := by
  intro left right same
  rw [MemList.place, MemList.place, Place.mk.injEq] at same
  rw [← Nat.mod_add_div left list.stepCount, ← Nat.mod_add_div right list.stepCount, same.1, same.2]

theorem MemList.update_place {α : Type} (list : MemList) (field : Place → α) (index other : Nat) (value : α) :
    update field (list.place index) value (list.place other) =
      if other = index then value else field (list.place other) := by
  rw [update_apply]
  simp only [list.place_injective.eq_iff]

structure Edge where
  fNode : Nat
  eNode : Nat
  length : Nat
deriving DecidableEq, Repr

abbrev Graph := Nat → Option Edge

variable {graph : Graph}

def Graph.add (graph : Graph) : Row → Graph
  | .node _ => graph
  | .line id fNode eNode length => update graph id (some ⟨fNode, eNode, length⟩)

def graphOf (rows : List Row) : Graph := rows.foldl Graph.add fun _ => none

structure Stores (topo : Network) (graph : Graph) : Prop where
  inside : ∀ id edge, graph id = some edge → 0 < id ∧ id < topo.lines.peakCount ∧
    edge.fNode < topo.nodes.peakCount ∧ edge.eNode < topo.nodes.peakCount
  allocated : ∀ id edge, graph id = some edge → topo.lines.slot (id / topo.lines.stepCount) = true
  id : ∀ id, topo.id (topo.lines.place id) = if (graph id).isSome then id else 0
  length : ∀ id edge, graph id = some edge → topo.length (topo.lines.place id) = edge.length
  fromNode : ∀ id, topo.fromNode (topo.lines.place id) = (graph id).map fun edge => topo.nodes.place edge.fNode
  gotoNode : ∀ id, topo.gotoNode (topo.lines.place id) = (graph id).map fun edge => topo.nodes.place edge.eNode
  noExport : ∀ node, topo.exports.head node = none
  noImport : ∀ node, topo.imports.head node = none

theorem stores_init {pageSize maxNodes maxLines : Nat} (fits : 0 < pageSize * memStepPageCount / 80) :
    Stores (topoInit pageSize maxNodes maxLines fits) fun _ => none := by
  constructor <;> simp [topoInit, emptyEnds]

theorem Stores.fetchNodeCb {id : Nat} (stores : Stores topo graph)
    (fetched : fetchNodeCb topo id = .ok next) : Stores next graph := by
  rw [Topo.fetchNodeCb] at fetched
  split at fetched
  · obtain ⟨gained, done, result⟩ := Outcome.bind_ok_iff.mp fetched
    obtain ⟨_, rfl⟩ := membtGain_ok done
    cases result
    refine ⟨stores.inside, stores.allocated, stores.id, stores.length, stores.fromNode, stores.gotoNode, ?_, ?_⟩
    · intro node
      simp [update_apply, stores.noExport]
    · intro node
      simp [update_apply, stores.noImport]
  · cases fetched

def Network.putLine (topo : Network) (id : Nat) (edge : Edge) : Network where
  nodes := (topo.nodes.allocate edge.fNode).allocate edge.eNode
  lines := topo.lines.allocate id
  id := update topo.id (topo.lines.place id) id
  length := update topo.length (topo.lines.place id) edge.length
  fromNode := update topo.fromNode (topo.lines.place id) (some (topo.nodes.place edge.fNode))
  gotoNode := update topo.gotoNode (topo.lines.place id) (some (topo.nodes.place edge.eNode))
  exports := { topo.exports with links := topo.exports.links.clear (topo.lines.place id) }
  imports := { topo.imports with links := topo.imports.links.clear (topo.lines.place id) }

theorem fetchLineCb_ok {id fNode eNode length : Nat} (fetched : fetchLineCb topo id fNode eNode length = .ok next) :
    0 < id ∧ id < topo.lines.peakCount ∧ fNode < topo.nodes.peakCount ∧ eNode < topo.nodes.peakCount ∧
      next = topo.putLine id ⟨fNode, eNode, length⟩ := by
  obtain ⟨gained, first, fetched⟩ := Outcome.bind_ok_iff.mp fetched
  obtain ⟨fInside, rfl⟩ := membtGain_ok first
  obtain ⟨gained, second, fetched⟩ := Outcome.bind_ok_iff.mp fetched
  obtain ⟨eInside, rfl⟩ := membtGain_ok second
  dsimp only at fetched
  split at fetched
  · rename_i positive
    obtain ⟨gained, third, result⟩ := Outcome.bind_ok_iff.mp fetched
    obtain ⟨inside, rfl⟩ := membtGain_ok third
    exact ⟨positive, inside, fInside, eInside, (Except.ok.inj result).symm⟩
  · cases fetched

theorem Stores.putLine {id : Nat} {edge : Edge} (stores : Stores topo graph)
    (inside : 0 < id ∧ id < topo.lines.peakCount ∧ edge.fNode < topo.nodes.peakCount ∧
      edge.eNode < topo.nodes.peakCount) : Stores (topo.putLine id edge) (update graph id (some edge)) := by
  have found_cases : ∀ {other found}, update graph id (some edge) other = some found →
      other = id ∧ found = edge ∨ other ≠ id ∧ graph other = some found := by
    intro other found
    rw [update_apply]
    split
    · rename_i here
      exact fun same => Or.inl ⟨here, (Option.some.inj same).symm⟩
    · rename_i apart
      exact fun same => Or.inr ⟨apart, same⟩
  refine ⟨?_, ?_, ?_, ?_, ?_, ?_, stores.noExport, stores.noImport⟩
  · intro other found place
    obtain ⟨rfl, rfl⟩ | ⟨_, place⟩ := found_cases place
    · exact inside
    · exact stores.inside other found place
  · intro other found place
    show update topo.lines.slot (id / topo.lines.stepCount) true (other / topo.lines.stepCount) = true
    rw [update_apply]
    obtain ⟨rfl, rfl⟩ | ⟨_, place⟩ := found_cases place
    · exact if_pos rfl
    · rw [stores.allocated other found place, ite_self]
  · intro other
    show update topo.id (topo.lines.place id) id (topo.lines.place other) = _
    rw [topo.lines.update_place, update_apply]
    split
    · rename_i here
      simp [here]
    · exact stores.id other
  · intro other found place
    show update topo.length (topo.lines.place id) edge.length (topo.lines.place other) = _
    rw [topo.lines.update_place]
    obtain ⟨rfl, rfl⟩ | ⟨apart, place⟩ := found_cases place
    · exact if_pos rfl
    · rw [if_neg apart, stores.length other found place]
  · intro other
    show update topo.fromNode (topo.lines.place id) _ (topo.lines.place other) = _
    rw [topo.lines.update_place, update_apply]
    split
    · rfl
    · exact stores.fromNode other
  · intro other
    show update topo.gotoNode (topo.lines.place id) _ (topo.lines.place other) = _
    rw [topo.lines.update_place, update_apply]
    split
    · rfl
    · exact stores.gotoNode other

theorem Stores.fetchRow {row : Row} (stores : Stores topo graph)
    (fetched : fetchRow topo row = .ok next) : Stores next (graph.add row) := by
  cases row with
  | node id => exact stores.fetchNodeCb fetched
  | line id fNode eNode length =>
    obtain ⟨positive, idInside, fInside, eInside, rfl⟩ := fetchLineCb_ok fetched
    exact stores.putLine ⟨positive, idInside, fInside, eInside⟩

theorem Stores.topoLoad {final : Network} {rows : List Row} (stores : Stores topo graph)
    (loaded : topoLoad topo rows = .ok final) : Stores final (rows.foldl Graph.add graph) := by
  induction rows generalizing topo graph with
  | nil =>
    cases loaded
    exact stores
  | cons row rows ih =>
    rw [Topo.topoLoad, foldlM_cons] at loaded
    obtain ⟨next, fetched, loaded⟩ := Outcome.bind_ok_iff.mp loaded
    exact ih (stores.fetchRow fetched) loaded

theorem fetchRow_peakCount {row : Row} (fetched : fetchRow topo row = .ok next) :
    next.lines.peakCount = topo.lines.peakCount := by
  cases row with
  | node id =>
    rw [fetchRow, Topo.fetchNodeCb] at fetched
    split at fetched
    · obtain ⟨gained, _, result⟩ := Outcome.bind_ok_iff.mp fetched
      cases result
      rfl
    · cases fetched
  | line id fNode eNode length =>
    obtain ⟨_, _, _, _, rfl⟩ := fetchLineCb_ok fetched
    rfl

theorem topoLoad_peakCount {final : Network} {rows : List Row} (loaded : topoLoad topo rows = .ok final) :
    final.lines.peakCount = topo.lines.peakCount := by
  induction rows generalizing topo with
  | nil =>
    cases loaded
    rfl
  | cons row rows ih =>
    rw [topoLoad, foldlM_cons] at loaded
    obtain ⟨next, fetched, loaded⟩ := Outcome.bind_ok_iff.mp loaded
    exact (ih loaded).trans (fetchRow_peakCount fetched)

def Ends.Lists (ends : Ends) (node : Place) : List Place → Prop
  | [] => ends.head node = none
  | first :: rest => ends.head node = some first ∧ Round ends.links first rest

def Ends.Holds (ends : Ends) (owner : Place → Option Place) (lines : List Place) : Prop :=
  ∀ node, ends.Lists node (lines.filter fun line => owner line = some node)

variable {lines : List Place}

theorem Ends.Lists.congr {other : Ends} {node : Place} (lists : ends.Lists node lines)
    (head : other.head node = ends.head node)
    (same : ∀ line ∈ lines, other.links.next line = ends.links.next line ∧
        other.links.prev line = ends.links.prev line) : other.Lists node lines := by
  cases lines with
  | nil => exact head.trans lists
  | cons first rest =>
    exact ⟨head.trans lists.1, lists.2.congr (fun line member => (same line member).1) fun line member =>
      (same line member).2⟩

theorem Ends.Lists.append {node line : Place} (lists : ends.Lists node lines)
    (fresh : line ∉ lines) : ∃ changed, ends.append node line = .ok changed ∧ changed.Lists node (lines ++ [line]) ∧
      (∀ other, other ≠ node → changed.head other = ends.head other) ∧ ∀ other, other ≠ line → other ∉ lines →
        changed.links.next other = ends.links.next other ∧ changed.links.prev other = ends.links.prev other := by
  cases lines with
  | nil =>
    refine ⟨_, by rw [Ends.append, lists], ⟨update_self .., Circle.round_single ..⟩, ?_, ?_⟩
    · intro other apart
      exact update_of_ne apart ..
    · intro other apart _
      exact ⟨update_of_ne apart .., update_of_ne apart ..⟩
  | cons first rest =>
    obtain ⟨head, round⟩ := lists
    obtain ⟨links, pushed, longer, frame⟩ := round.pushBack fresh
    refine ⟨{ ends with links := links }, by rw [Ends.append, head]; simp only [pushed], ⟨head, longer⟩, ?_, frame⟩
    exact fun _ _ => rfl

theorem Ends.Holds.append {owner : Place → Option Place} {node line : Place}
    (holds : ends.Holds owner lines) (fresh : line ∉ lines) (owned : owner line = some node) :
    ∃ changed, ends.append node line = .ok changed ∧ changed.Holds owner (lines ++ [line]) := by
  obtain ⟨changed, appended, lists, heads, frame⟩ :=
    (holds node).append fun member => fresh (mem_of_mem_filter member)
  refine ⟨changed, appended, ?_⟩
  intro other
  rw [filter_append]
  by_cases same : other = node
  · subst same
    simpa [owned] using lists
  · have skipped : [line].filter (fun line => owner line = some other) = [] := by
      simpa [owned] using Ne.symm same
    rw [skipped, append_nil]
    refine (holds other).congr (heads other same) ?_
    intro member inside
    have ownedBy : owner member = some other := by simpa using of_mem_filter inside
    refine frame member ?_ ?_
    · rintro rfl
      exact fresh (mem_of_mem_filter inside)
    · intro elsewhere
      have ownedElse : owner member = some node := by simpa using of_mem_filter elsewhere
      rw [ownedBy] at ownedElse
      exact same (Option.some.inj ownedElse)

def Graph.below (graph : Graph) (bound : Nat) : List Nat := (List.range bound).filter fun id => (graph id).isSome

section make

variable {topo : Network} {graph : Graph}

theorem Graph.below_succ (graph : Graph) (bound : Nat) :
    graph.below (bound + 1) = graph.below bound ++ if (graph bound).isSome then [bound] else [] := by
  rw [Graph.below, range_succ, filter_append]
  cases found : graph bound <;> simp [Graph.below, found]

theorem Stores.topoMakeTurn {exports imports : Ends} {i : Nat} (stores : Stores topo graph)
    (inside : i < topo.lines.peakCount)
    (exported : exports.Holds topo.fromNode ((graph.below i).map topo.lines.place))
    (imported : imports.Holds topo.gotoNode ((graph.below i).map topo.lines.place)) : ∃ exports' imports',
      topoMakeTurn { topo with exports := exports, imports := imports } i =
        .ok { topo with exports := exports', imports := imports' } ∧
      exports'.Holds topo.fromNode ((graph.below (i + 1)).map topo.lines.place) ∧
      imports'.Holds topo.gotoNode ((graph.below (i + 1)).map topo.lines.place) := by
  have good := membtGood_eq inside
  cases found : graph i with
  | none =>
    have unset : topo.fromNode (topo.lines.place i) = none := by rw [stores.fromNode, found, Option.map_none]
    refine ⟨exports, imports, ?_, ?_, ?_⟩
    · rw [Topo.topoMakeTurn]
      cases present : topo.lines.slot (i / topo.lines.stepCount) with
      | false => simp only [good, present, Bool.false_eq_true, if_false]
      | true =>
        simp only [good, present, if_true, membtGain_eq inside, allocate_present present, Outcome.ok_bind, unset]
    · simpa [Graph.below_succ, found] using exported
    · simpa [Graph.below_succ, found] using imported
  | some edge =>
    have present := stores.allocated i edge found
    have id : topo.id (topo.lines.place i) = i := by simp [stores.id, found]
    have fromNode : topo.fromNode (topo.lines.place i) = some (topo.nodes.place edge.fNode) := by
      rw [stores.fromNode, found, Option.map_some]
    have gotoNode : topo.gotoNode (topo.lines.place i) = some (topo.nodes.place edge.eNode) := by
      rw [stores.gotoNode, found, Option.map_some]
    have fresh : topo.lines.place i ∉ (graph.below i).map topo.lines.place := by
      rw [mem_map_of_injective topo.lines.place_injective]
      simp [Graph.below]
    obtain ⟨exports', exporting, exported⟩ := exported.append fresh fromNode
    obtain ⟨imports', importing, imported⟩ := imported.append fresh gotoNode
    refine ⟨exports', imports', ?_, ?_, ?_⟩
    · rw [Topo.topoMakeTurn]
      simp only [good, present, if_true, membtGain_eq inside, allocate_present present, Outcome.ok_bind, fromNode,
        gotoNode, id, ne_eq, not_true_eq_false, if_false, exporting, importing]
    · simpa [Graph.below_succ, found] using exported
    · simpa [Graph.below_succ, found] using imported

theorem Stores.makeUpTo {bound : Nat} (stores : Stores topo graph) (inside : bound ≤ topo.lines.peakCount) :
    ∃ exports imports,
      (List.range bound).foldlM Topo.topoMakeTurn topo = .ok { topo with exports := exports, imports := imports } ∧
      exports.Holds topo.fromNode ((graph.below bound).map topo.lines.place) ∧
      imports.Holds topo.gotoNode ((graph.below bound).map topo.lines.place) := by
  induction bound with
  | zero => exact ⟨topo.exports, topo.imports, rfl, stores.noExport, stores.noImport⟩
  | succ bound ih =>
    obtain ⟨exports, imports, made, exported, imported⟩ := ih (by omega)
    obtain ⟨exports', imports', turn, exported, imported⟩ := stores.topoMakeTurn (by omega) exported imported
    refine ⟨exports', imports', ?_, exported, imported⟩
    rw [range_succ, foldlM_append, made, Outcome.ok_bind, foldlM_cons, turn]
    rfl

end make

def Graph.leaving (graph : Graph) (bound node : Nat) : List Nat :=
  (List.range bound).filter fun id => (graph id).any fun edge => edge.fNode = node

def Graph.entering (graph : Graph) (bound node : Nat) : List Nat :=
  (List.range bound).filter fun id => (graph id).any fun edge => edge.eNode = node

structure Made (topo : Network) (graph : Graph) : Prop where
  inside : ∀ id edge, graph id = some edge → 0 < id ∧ id < topo.lines.peakCount
  allocated : ∀ id edge, graph id = some edge → topo.lines.slot (id / topo.lines.stepCount) = true
  id : ∀ id, topo.id (topo.lines.place id) = if (graph id).isSome then id else 0
  length : ∀ id edge, graph id = some edge → topo.length (topo.lines.place id) = edge.length
  fromNode : ∀ id, topo.fromNode (topo.lines.place id) = (graph id).map fun edge => topo.nodes.place edge.fNode
  gotoNode : ∀ id, topo.gotoNode (topo.lines.place id) = (graph id).map fun edge => topo.nodes.place edge.eNode
  exports : ∀ node, topo.exports.Lists (topo.nodes.place node)
    ((graph.leaving topo.lines.peakCount node).map topo.lines.place)
  imports : ∀ node, topo.imports.Lists (topo.nodes.place node)
    ((graph.entering topo.lines.peakCount node).map topo.lines.place)

theorem Ends.Holds.lists {owner : Place → Option Place} {lines nodes : MemList}
    {bound : Nat} {role : Edge → Nat} (holds : ends.Holds owner ((graph.below bound).map lines.place))
    (owned : ∀ id, owner (lines.place id) = (graph id).map fun edge => nodes.place (role edge)) (node : Nat) :
    ends.Lists (nodes.place node)
      (((List.range bound).filter fun id => (graph id).any fun edge => role edge = node).map lines.place) := by
  have lists := holds (nodes.place node)
  rw [filter_map, Graph.below, filter_filter] at lists
  refine Eq.mp ?_ lists
  congr 2
  refine filter_congr ?_
  intro id _
  cases found : graph id with
  | none => simp
  | some edge => simp [owned, found, nodes.place_injective.eq_iff]

theorem Stores.topoMake (stores : Stores topo graph) :
    ∃ made, topoMake topo = .ok made ∧ Made made graph ∧ made.lines = topo.lines := by
  obtain ⟨exports, imports, made, exported, imported⟩ := stores.makeUpTo (Nat.le_refl topo.lines.peakCount)
  refine ⟨_, made, ⟨?_, stores.allocated, stores.id, stores.length, stores.fromNode, stores.gotoNode,
    exported.lists stores.fromNode, imported.lists stores.gotoNode⟩, rfl⟩
  intro id edge found
  obtain ⟨positive, inside, _⟩ := stores.inside id edge found
  exact ⟨positive, inside⟩

end Libucmq.Topo
