import Mathlib.Data.List.Chain
import Mathlib.Data.List.Nodup

/-! Doubly linked lists and rings. -/

namespace Circle

open List Function

variable {α : Type}

structure Links (α : Type) where
  next : α → Option α
  prev : α → Option α

def Joined (links : Links α) (left right : α) : Prop := links.next left = some right ∧ links.prev right = some left

def Path (links : Links α) (items : List α) : Prop := items.IsChain (Joined links)

structure Round (links : Links α) (head : α) (rest : List α) : Prop where
  distinct : (head :: rest).Nodup
  path : Path links (head :: rest ++ [head])

structure Line (links : Links α) (items : List α) : Prop where
  distinct : items.Nodup
  path : Path links items
  ended : ∀ last, items.getLast? = some last → links.next last = none

namespace Links

variable [DecidableEq α]

def join (links : Links α) (left right : α) : Links α where
  next := update links.next left (some right)
  prev := update links.prev right (some left)

def clear (links : Links α) (item : α) : Links α where
  next := update links.next item none
  prev := update links.prev item none

def pushBack (links : Links α) (head item : α) : Option (Links α) :=
  (links.prev head).map fun last => (links.join last item).join item head

def remove (links : Links α) (item : α) : Option (Links α) :=
  match links.next item, links.prev item with
  | some next, some prev => some ((links.join prev next).clear item)
  | _, _ => none

end Links

variable {links other : Links α} {items front back rest : List α} {head item left right : α}

theorem Path.congr (path : Path links items) (next : ∀ item ∈ items.dropLast, other.next item = links.next item)
    (prev : ∀ item ∈ items.tail, other.prev item = links.prev item) : Path other items := by
  induction items with
  | nil => exact isChain_nil
  | cons first items ih =>
    cases items with
    | nil => exact isChain_singleton first
    | cons second items =>
      obtain ⟨joined, path⟩ := isChain_cons_cons.mp path
      refine isChain_cons_cons.mpr ⟨⟨?_, ?_⟩, ih path ?_ ?_⟩
      · rw [next first (by simp)]
        exact joined.1
      · rw [prev second (by simp)]
        exact joined.2
      · intro item member
        exact next item (mem_cons_of_mem first member)
      · intro item member
        exact prev item (mem_cons_of_mem second member)

theorem Path.joined (path : Path links (front ++ left :: right :: back)) : Joined links left right :=
  (isChain_append_cons_cons.mp path).2.1

theorem Round.congr (round : Round links head rest) (next : ∀ item ∈ head :: rest, other.next item = links.next item)
    (prev : ∀ item ∈ head :: rest, other.prev item = links.prev item) : Round other head rest := by
  refine ⟨round.distinct, round.path.congr ?_ ?_⟩
  · intro item member
    rw [dropLast_concat] at member
    exact next item member
  · intro item member
    rw [cons_append, tail_cons, mem_append, mem_singleton] at member
    exact prev item (by simpa [or_comm] using member)

theorem Round.joined (round : Round links head rest) (place : head :: rest ++ [head] = front ++ left :: right :: back) :
    Joined links left right :=
  Path.joined (place ▸ round.path)

theorem Line.next (line : Line links (front ++ left :: right :: back)) : links.next left = some right :=
  line.path.joined.1

theorem Line.last (line : Line links (front ++ [left])) : links.next left = none := line.ended left (by simp)

theorem Line.tail (line : Line links (left :: right :: back)) : Line links (right :: back) :=
  ⟨(nodup_cons.mp line.distinct).2, (isChain_cons_cons.mp line.path).2, fun last ends =>
    line.ended last (by simpa using ends)⟩

theorem Line.unique (line : Line links (head :: items)) (same : Line links (head :: rest)) : items = rest := by
  induction items generalizing head rest with
  | nil =>
    cases rest with
    | nil => rfl
    | cons second rest =>
      have ends := @Line.last _ links [] head line
      rw [@Line.next _ links [] rest head second same] at ends
      cases ends
  | cons first items ih =>
    have next := @Line.next _ links [] items head first line
    cases rest with
    | nil =>
      rw [@Line.last _ links [] head same] at next
      cases next
    | cons second rest =>
      rw [@Line.next _ links [] rest head second same] at next
      obtain rfl := Option.some.inj next
      rw [ih line.tail same.tail]

section join

variable [DecidableEq α]

theorem joined_join (links : Links α) (left right : α) : Joined (links.join left right) left right :=
  ⟨update_self .., update_self ..⟩

theorem Path.join (path : Path links items) (source : left ∉ items.dropLast) (target : right ∉ items.tail) :
    Path (links.join left right) items := by
  refine path.congr ?_ ?_
  · intro item member
    exact update_of_ne (ne_of_mem_of_not_mem member source) ..
  · intro item member
    exact update_of_ne (ne_of_mem_of_not_mem member target) ..

theorem Path.insert (path : Path links (front ++ left :: right :: back)) (fresh : item ∉ front ++ left :: right :: back)
    (sources : left ∉ front ∧ left ∉ (right :: back).dropLast)
    (targets : right ∉ (front ++ [left]).tail ∧ right ∉ back) :
    Path ((links.join left item).join item right) (front ++ left :: item :: right :: back) := by
  obtain ⟨before, _, behind⟩ := isChain_append_cons_cons.mp path
  simp only [mem_append, mem_cons, not_or] at fresh
  have absent : item ∉ (front ++ [left]).tail := fun member => by
    simpa [fresh] using mem_of_mem_tail member
  have absentBack : item ∉ (right :: back).dropLast := fun member => by
    simpa [fresh] using dropLast_subset _ member
  refine isChain_append_cons_cons.mpr ⟨?_, ?_, isChain_cons_cons.mpr ⟨joined_join .., ?_⟩⟩
  · refine Path.join (Path.join before ?_ absent) ?_ targets.1
    · simpa using sources.1
    · simpa using fresh.1
  · refine ⟨?_, ?_⟩
    · exact (update_of_ne (Ne.symm fresh.2.1) ..).trans (update_self ..)
    · exact (update_of_ne fresh.2.2.1 ..).trans (update_self ..)
  · exact Path.join (Path.join behind sources.2 (by simpa using fresh.2.2.2)) absentBack (by simpa using targets.2)

theorem Path.append (path : Path links (front ++ [left])) (fresh : item ∉ front ++ [left]) (source : left ∉ front) :
    Path (links.join left item) (front ++ [left, item]) := by
  refine isChain_append_cons_cons.mpr ⟨path.join (by simpa using source) ?_, joined_join .., ?_⟩
  · exact fun member => fresh (mem_of_mem_tail member)
  · exact isChain_singleton item

theorem Line.insert (line : Line links (front ++ left :: right :: back)) (fresh : item ∉ front ++ left :: right :: back) :
    Line ((links.join left item).join item right) (front ++ left :: item :: right :: back) := by
  obtain ⟨_, second, apart⟩ := nodup_append.mp line.distinct
  obtain ⟨leftBack, second⟩ := nodup_cons.mp second
  refine ⟨?_, line.path.insert fresh ⟨?_, ?_⟩ ⟨?_, (nodup_cons.mp second).1⟩, ?_⟩
  · rw [← singleton_append, ← append_assoc, nodup_middle, append_assoc]
    exact nodup_cons.mpr ⟨fresh, line.distinct⟩
  · exact fun member => apart left member left mem_cons_self rfl
  · exact fun member => leftBack (dropLast_subset _ member)
  · intro member
    obtain member | same := mem_append.mp (mem_of_mem_tail member)
    · exact apart right member right (by simp) rfl
    · exact leftBack (mem_singleton.mp same ▸ mem_cons_self)
  · intro last ends
    have place : (right :: back).getLast? = some last := by simpa using ends
    have member : last ∈ right :: back := mem_of_getLast? place
    have kept := line.ended last (by simpa using place)
    rw [← kept]
    simp only [mem_append, mem_cons, not_or] at fresh
    have lastItem : last ≠ item := by
      rintro rfl
      simp [fresh] at member
    have lastLeft : last ≠ left := by
      rintro rfl
      exact leftBack member
    simp [Links.join, update_of_ne, lastItem, lastLeft]

theorem Line.append (line : Line links (front ++ [left])) (fresh : item ∉ front ++ [left])
    (unlinked : links.next item = none) : Line (links.join left item) (front ++ [left, item]) := by
  have apart : item ≠ left := fun same => fresh (by simp [same])
  refine ⟨?_, line.path.append fresh ?_, ?_⟩
  · rw [← singleton_append, ← append_assoc, nodup_append_comm]
    exact nodup_cons.mpr ⟨fresh, line.distinct⟩
  · exact fun member => disjoint_of_nodup_append line.distinct member (by simp)
  · intro last ends
    obtain rfl : item = last := by simpa using ends
    exact (update_of_ne apart ..).trans unlinked

theorem round_single (links : Links α) (item : α) : Round (links.join item item) item [] :=
  ⟨by simp, isChain_cons_cons.mpr ⟨joined_join .., isChain_singleton item⟩⟩

theorem Path.bypass (path : Path links (front ++ left :: item :: right :: back))
    (sources : left ∉ front ∧ left ∉ (right :: back).dropLast)
    (targets : right ∉ (front ++ [left]).tail ∧ right ∉ back) :
    Path (links.join left right) (front ++ left :: right :: back) := by
  obtain ⟨before, _, behind⟩ := isChain_append_cons_cons.mp path
  refine isChain_append_cons_cons.mpr ⟨Path.join before ?_ targets.1, joined_join .., ?_⟩
  · simpa using sources.1
  · exact Path.join (isChain_cons_cons.mp behind).2 sources.2 (by simpa using targets.2)

theorem Path.clear (path : Path links items) (absent : item ∉ items) : Path (links.clear item) items := by
  refine path.congr ?_ ?_
  · intro other member
    exact update_of_ne (ne_of_mem_of_not_mem (dropLast_subset _ member) absent) ..
  · intro other member
    exact update_of_ne (ne_of_mem_of_not_mem (mem_of_mem_tail member) absent) ..

theorem Line.clear (line : Line links items) (absent : item ∉ items) : Line (links.clear item) items := by
  refine ⟨line.distinct, line.path.clear absent, ?_⟩
  intro last ends
  have other : last ≠ item := ne_of_mem_of_not_mem (mem_of_getLast? ends) absent
  exact (update_of_ne other ..).trans (line.ended last ends)

theorem Round.pushBack (round : Round links head rest) (fresh : item ∉ head :: rest) :
    ∃ changed, links.pushBack head item = some changed ∧ Round changed head (rest ++ [item]) ∧
      ∀ apart, apart ≠ item → apart ∉ head :: rest →
        changed.next apart = links.next apart ∧ changed.prev apart = links.prev apart := by
  obtain ⟨front, last, place⟩ : ∃ front last, head :: rest = front ++ [last] :=
    ⟨_, _, (dropLast_append_getLast (cons_ne_nil head rest)).symm⟩
  have path : Path links (front ++ last :: head :: []) := by
    have path := round.path
    rwa [place, append_assoc] at path
  have distinct := round.distinct
  have lastMember : last ∈ head :: rest := place ▸ mem_concat_self
  refine ⟨(links.join last item).join item head, by rw [Links.pushBack, path.joined.2]; rfl, ⟨?_, ?_⟩, ?_⟩
  · rw [← cons_append, nodup_append_comm]
    exact nodup_cons.mpr ⟨fresh, distinct⟩
  · have inserted := @Path.insert α links front [] item last head _ path ?_ ⟨?_, by simp⟩ ⟨?_, by simp⟩
    · rwa [← cons_append, place, append_assoc, append_assoc]
    · rw [← singleton_append, ← append_assoc, ← place]
      simpa [or_comm] using fresh
    · rw [place] at distinct
      exact fun member => disjoint_of_nodup_append distinct member (by simp)
    · rw [← place, tail_cons]
      exact (nodup_cons.mp distinct).1
  · intro apart other outside
    have apartLast : apart ≠ last := fun same => outside (same ▸ lastMember)
    have apartHead : apart ≠ head := fun same => outside (same ▸ mem_cons_self)
    simp [Links.join, update_of_ne, other, apartLast, apartHead]

theorem Round.remove (round : Round links head (front ++ item :: back)) :
    ∃ changed, links.remove item = some changed ∧ Round changed head (front ++ back) ∧
      changed.next item = none ∧ changed.prev item = none ∧ ∀ apart, apart ∉ head :: front ++ item :: back →
        changed.next apart = links.next apart ∧ changed.prev apart = links.prev apart := by
  obtain ⟨start, prev, before⟩ : ∃ start prev, head :: front = start ++ [prev] :=
    ⟨_, _, (dropLast_append_getLast (cons_ne_nil head front)).symm⟩
  obtain ⟨next, ending, behind⟩ : ∃ next ending, back ++ [head] = next :: ending :=
    exists_cons_of_ne_nil (by simp)
  have distinct := round.distinct
  have path : Path links (start ++ prev :: item :: next :: ending) := by
    have path := round.path
    rw [← cons_append, before] at path
    simpa [behind] using path
  have second : Joined links item next := by
    refine @Path.joined α links (start ++ [prev]) ending item next ?_
    simpa using path
  rw [← cons_append] at distinct
  obtain ⟨distinctFront, distinctItem, disjoint⟩ := nodup_append.mp distinct
  obtain ⟨itemBack, distinctBack⟩ := nodup_cons.mp distinctItem
  have itemFront : item ∉ head :: front := fun member => disjoint item member item (by simp) rfl
  have prevFront : prev ∈ head :: front := before ▸ mem_concat_self
  have nextBack : next ∈ back ++ [head] := behind ▸ mem_cons_self
  have itemPrev : prev ≠ item := ne_of_mem_of_not_mem prevFront itemFront
  have itemNext : next ≠ item := by
    refine ne_of_mem_of_not_mem nextBack ?_
    simp only [mem_append, mem_singleton, not_or]
    exact ⟨itemBack, fun same => itemFront (same ▸ mem_cons_self)⟩
  refine ⟨(links.join prev next).clear item, ?_, ⟨?_, ?_⟩, ?_, ?_, ?_⟩
  · rw [Links.remove, second.1, path.joined.2]
  · exact distinct.sublist ((sublist_cons_self item back).append_left (head :: front))
  · have headBack : head ∉ back := fun member => disjoint head (by simp) head (mem_cons_of_mem item member) rfl
    have ring : (back ++ [head]).Nodup := nodup_append_comm.mp (nodup_cons.mpr ⟨headBack, distinctBack⟩)
    have joined : Path (links.join prev next) (start ++ prev :: next :: ending) := by
      refine path.bypass ⟨?_, ?_⟩ ⟨?_, (nodup_cons.mp (behind ▸ ring)).1⟩
      · rw [before] at distinctFront
        exact fun member => disjoint_of_nodup_append distinctFront member (by simp)
      · rw [← behind, dropLast_concat]
        exact fun member => disjoint prev prevFront prev (mem_cons_of_mem item member) rfl
      · rw [← before, tail_cons]
        intro member
        obtain inBack | isHead := mem_append.mp nextBack
        · exact disjoint next (mem_cons_of_mem head member) next (mem_cons_of_mem item inBack) rfl
        · exact (nodup_cons.mp distinctFront).1 (mem_singleton.mp isHead ▸ member)
    have place : head :: (front ++ back) ++ [head] = start ++ prev :: next :: ending := by
      rw [← cons_append, before, append_assoc, behind, append_assoc]
      rfl
    rw [place]
    refine joined.clear ?_
    rw [← place]
    simp only [mem_cons, not_or] at itemFront
    simp [itemFront, itemBack]
  · exact update_self ..
  · exact update_self ..
  · intro apart outside
    rw [mem_append, not_or] at outside
    have apartPrev : apart ≠ prev := fun same => outside.1 (same ▸ prevFront)
    have apartItem : apart ≠ item := fun same => outside.2 (same ▸ mem_cons_self)
    have apartNext : apart ≠ next := by
      rintro rfl
      obtain inBack | isHead := mem_append.mp nextBack
      · exact outside.2 (mem_cons_of_mem item inBack)
      · exact outside.1 (mem_singleton.mp isHead ▸ mem_cons_self)
    simp [Links.join, Links.clear, update_of_ne, apartPrev, apartNext, apartItem]

end join

end Circle
