import Libucmq.Http.Isolation

/-! Which API a request reaches. -/

namespace Libucmq.Http

open Net List CString

variable {parser : HttpParser}

def urlPath (url : List UInt8) : List UInt8 := url.takeWhile (· ≠ 63)

theorem takeWhile_string {url rest : List UInt8} (text : 0 ∉ url) :
    (url ++ rest).takeWhile (· ≠ 0) = url ++ rest.takeWhile (· ≠ 0) := by
  rw [takeWhile_append_of_pos]
  intro byte member
  simp only [decide_eq_true_eq]
  rintro rfl
  exact text member

theorem findIdx_mark (url : List UInt8) :
    url.findIdx? (· = 63) = if 63 ∈ url then some (urlPath url).length else none := by
  induction url with
  | nil => rfl
  | cons byte url ih =>
    rw [List.findIdx?_cons, ih]
    by_cases mark : byte = 63
    · simp [urlPath, mark]
    · by_cases later : 63 ∈ url <;> simp [urlPath, mark, later, Ne.symm mark]

theorem urlPath_length_lt {url : List UInt8} (mark : 63 ∈ url) : (urlPath url).length < url.length := by
  have found := findIdx_mark url
  rw [if_pos mark] at found
  exact (List.findIdx?_eq_some_iff_getElem.mp found).1

theorem xStrstr_append {url rest : List UInt8} (text : 0 ∉ url) :
    xStrstr (url ++ rest) 63 url.length = if 63 ∈ url then some (urlPath url).length else none := by
  rw [xStrstr, takeWhile_string text, List.findIdx?_append, findIdx_mark url]
  by_cases mark : 63 ∈ url
  · have inside := urlPath_length_lt mark
    simp only [mark, ↓reduceIte, Option.some_or]
    rw [if_pos (Nat.succ_le_of_lt inside)]
  · cases (rest.takeWhile (· ≠ 0)).findIdx? (· = 63) with
    | none => simp [mark]
    | some place =>
      simp only [mark, ↓reduceIte, Option.map_some, Option.none_or]
      rw [if_neg (by omega)]

/-- Accepted with this URL, which was in the buffer and holds no zero byte. -/
structure Accepted (node : DataNode parser) (url : List UInt8) : Prop where
  plain : node.hs.err = 0
  text : 0 ∉ url
  short : url.length < 65536
  parsed : ∃ (received : List UInt8) (stat : HttpStatus) (method httpMajor httpMinor : Nat) (keepAlive : Bool)
    (head rest : List UInt8),
    received <+: node.recv.data ∧ received = head ++ url ++ rest ∧ stat.urlOffset = head.length ∧
      stat.urlLen = url.length ∧
      node.hs.pathOffset = (headersCompleteCb received stat method httpMajor httpMinor keepAlive).pathOffset ∧
      node.hs.pathLen = (headersCompleteCb received stat method httpMajor httpMinor keepAlive).pathLen

variable {node : DataNode parser}

theorem Accepted.path {url : List UInt8} (accepted : Accepted node url) :
    urlPath url <+: node.recv.data.drop node.hs.pathOffset ∧ node.hs.pathLen = (urlPath url).length := by
  obtain ⟨received, stat, method, httpMajor, httpMinor, keepAlive, head, rest, ⟨later, data⟩, rfl, offset, length,
    pathOffset, pathLen⟩ := accepted.parsed
  have short := accepted.short
  have place : (head ++ url ++ rest).drop stat.urlOffset = url ++ rest := by
    simp [offset, append_assoc]
  simp only [headersCompleteCb, place, length, xStrstr_append accepted.text] at pathOffset pathLen
  constructor
  · have path : urlPath url <+: url := takeWhile_prefix _
    have start : node.hs.pathOffset = head.length := by
      rw [pathOffset, ← offset]
      split <;> rfl
    rw [start, ← data]
    simpa [append_assoc] using path.trans (prefix_append url (rest ++ later))
  · rw [pathLen]
    by_cases mark : 63 ∈ url
    · have inside := urlPath_length_lt mark
      simp only [mark, ↓reduceIte]
      omega
    · have whole : urlPath url = url := takeWhile_eq_self_iff.mpr fun byte member => by
        simp only [decide_eq_true_eq]
        rintro rfl
        exact mark member
      simp only [mark, ↓reduceIte, whole]
      omega

/-- `strncmp` takes the name for the path: it starts it, and is long or ended. -/
def Taken (bytes : List UInt8) (offset : Nat) (name : List UInt8) : Prop :=
  name <+: bytes ∧ (offset ≤ name.length ∨ (bytes.drop name.length).headD 0 = 0)

theorem sameUpTo_taken (entry : ApiEntry) (bytes : List UInt8) (offset : Nat) :
    sameUpTo (max offset entry.name.length) entry.name bytes = true ↔ Taken bytes offset entry.name := by
  rw [sameUpTo_iff entry.text (Nat.le_max_right _ _), Taken, lt_max_iff]
  refine and_congr_right fun _ => ⟨fun ends => ?_, fun ends short => ?_⟩
  · by_cases long : offset ≤ entry.name.length
    · exact Or.inl long
    · exact Or.inr (ends (Or.inl (by omega)))
  · rcases ends with long | zero
    · omega
    · exact zero

variable {apis : List ApiEntry}

theorem lookup_some {bytes : List UInt8} {offset : Nat} {entry : ApiEntry} :
    swiftHttpApiLookup apis bytes offset = some entry ↔ ∃ front back, apis = front ++ entry :: back ∧
      Taken bytes offset entry.name ∧ ∀ other ∈ front, ¬ Taken bytes offset other.name := by
  rw [swiftHttpApiLookup, List.find?_eq_some_iff_append]
  simp only [sameUpTo_taken, Bool.not_eq_eq_eq_not, Bool.not_true, ← Bool.not_eq_true]
  constructor
  · rintro ⟨taken, front, back, same, clear⟩
    exact ⟨front, back, same, taken, clear⟩
  · rintro ⟨front, back, same, taken, clear⟩
    exact ⟨taken, front, back, same, clear⟩

theorem lookup_none {bytes : List UInt8} {offset : Nat} :
    swiftHttpApiLookup apis bytes offset = none ↔ ∀ entry ∈ apis, ¬ Taken bytes offset entry.name := by
  rw [swiftHttpApiLookup, List.find?_eq_none]
  simp only [sameUpTo_taken]

def Dispatches (apis : List ApiEntry) (node : DataNode parser) (name : List UInt8) : Prop :=
  ∃ entry bodyOffset bodySize, entry.name = name ∧
    (requestDone apis node).2 = .call entry node.hs.pathOffset node.hs.pathLen bodyOffset bodySize

theorem requestDone_outcome (apis : List ApiEntry) (plain : node.hs.err = 0) :
    (requestDone apis node).2 =
      match swiftHttpApiLookup apis (node.recv.data.drop node.hs.pathOffset) node.hs.pathOffset with
      | none => .answer 400
      | some entry => .call entry node.hs.pathOffset node.hs.pathLen node.hs.bodyOffset node.hs.bodySize := by
  rw [requestDone, if_neg (not_not.mpr plain)]
  cases swiftHttpApiLookup apis (node.recv.data.drop node.hs.pathOffset) node.hs.pathOffset <;> rfl

theorem dispatches_iff (plain : node.hs.err = 0) (name : List UInt8) :
    Dispatches apis node name ↔ ∃ entry, entry.name = name ∧
      swiftHttpApiLookup apis (node.recv.data.drop node.hs.pathOffset) node.hs.pathOffset = some entry := by
  rw [Dispatches, requestDone_outcome apis plain]
  constructor
  · rintro ⟨entry, bodyOffset, bodySize, same, outcome⟩
    refine ⟨entry, same, ?_⟩
    split at outcome
    · cases outcome
    · rename_i found
      cases outcome
      exact found
  · rintro ⟨entry, same, found⟩
    exact ⟨entry, _, _, same, by rw [found]⟩

/-- The dispatch is exact iff the first name taken for the path is the path. -/
theorem api_dispatch {node : DataNode parser} {url : List UInt8} (accepted : Accepted node url)
    (apis : List ApiEntry) : ((∀ name ∈ apis.map ApiEntry.name, (Dispatches apis node name ↔ name = urlPath url)) ∧
      (urlPath url ∉ apis.map ApiEntry.name → (requestDone apis node).2 = .answer 400)) ↔
    (∀ front entry back, apis = front ++ entry :: back →
        Taken (node.recv.data.drop node.hs.pathOffset) node.hs.pathOffset entry.name →
        (∀ other ∈ front, ¬ Taken (node.recv.data.drop node.hs.pathOffset) node.hs.pathOffset other.name) →
        entry.name = urlPath url) ∧
      (urlPath url ∈ apis.map ApiEntry.name → node.hs.pathOffset ≤ (urlPath url).length ∨
        ((node.recv.data.drop node.hs.pathOffset).drop (urlPath url).length).headD 0 = 0) := by
  simp only [dispatches_iff accepted.plain]
  constructor
  · rintro ⟨precise, _⟩
    constructor
    · rintro front entry back rfl taken clear
      exact (precise entry.name (by simp)).mp ⟨entry, rfl, lookup_some.mpr ⟨front, back, rfl, taken, clear⟩⟩
    · intro listed
      obtain ⟨entry, same, found⟩ := (precise _ listed).mpr rfl
      obtain ⟨_, _, _, taken, _⟩ := lookup_some.mp found
      exact same ▸ taken.2
  · rintro ⟨first, itself⟩
    have named : ∀ entry, swiftHttpApiLookup apis (node.recv.data.drop node.hs.pathOffset) node.hs.pathOffset =
        some entry → entry.name = urlPath url := by
      intro entry found
      obtain ⟨front, back, same, taken, clear⟩ := lookup_some.mp found
      exact first front entry back same taken clear
    constructor
    · refine fun name listed => ⟨fun ⟨entry, same, found⟩ => same ▸ named entry found, ?_⟩
      rintro rfl
      obtain ⟨entry, member, same⟩ := mem_map.mp listed
      cases found : swiftHttpApiLookup apis (node.recv.data.drop node.hs.pathOffset) node.hs.pathOffset with
      | none => exact absurd ⟨same ▸ accepted.path.1, same ▸ itself listed⟩ (lookup_none.mp found entry member)
      | some chosen => exact ⟨chosen, named chosen found, rfl⟩
    · intro absent
      rw [requestDone_outcome apis accepted.plain]
      cases found : swiftHttpApiLookup apis (node.recv.data.drop node.hs.pathOffset) node.hs.pathOffset with
      | none => rfl
      | some chosen =>
        obtain ⟨front, back, same, _⟩ := lookup_some.mp found
        exact absurd (named chosen found ▸ mem_map_of_mem (by simp [same])) absent

def received (path : List UInt8) : DataNode (getParser path) := { recv := { data := getRequest path } }

theorem accepted_get {path : List UInt8} (plain : node.hs.err = 0) (text : 0 ∉ path)
    (short : path.length < 65536) (data : node.recv.data = getRequest path) (offset : node.hs.pathOffset = 4)
    (length : node.hs.pathLen =
      (headersCompleteCb (getRequest path) { urlOffset := 4, urlLen := path.length } 1 1 0 false).pathLen) :
    Accepted node path := by
  refine ⟨plain, text, short, getRequest path, { urlOffset := 4, urlLen := path.length }, 1, 1, 0, false,
    ascii "GET ", ascii " HTTP/1.0\r\n\r\n", data ▸ prefix_rfl, rfl, rfl, rfl, ?_, length⟩
  rw [offset, headersCompleteCb]
  split <;> rfl

theorem api_dispatch_abc : ∃ node, httpHandle (received abcPath) = .ok (true, node) ∧
    (∀ name ∈ [abcEntry].map ApiEntry.name, (Dispatches [abcEntry] node name ↔ name = abcPath)) ∧
    (abcPath ∉ [abcEntry].map ApiEntry.name → (requestDone [abcEntry] node).2 = .answer 400) := by
  refine ⟨_, rfl, (@api_dispatch _ _ abcPath (accepted_get rfl (by decide) (by decide) rfl rfl rfl)
    [abcEntry]).mpr ⟨?_, fun _ => Or.inl (by decide)⟩⟩
  intro front entry back same _ _
  have member : entry ∈ [abcEntry] := by simp [same]
  rw [mem_singleton.mp member]
  decide

def xPath : List UInt8 := ascii "/x"

def xEntry : ApiEntry := { type := bit8TaskTypeAlone, name := xPath, text := by decide }

def abcdPath : List UInt8 := ascii "/abcd"

theorem api_dispatch_inexact : (∃ node, httpHandle (received xPath) = .ok (true, node) ∧ Accepted node xPath ∧
      (requestDone [xEntry] node).2 = .answer 400) ∧
    ∃ node, httpHandle (received abcdPath) = .ok (true, node) ∧ Accepted node abcdPath ∧
      Dispatches [abcEntry] node abcPath := by
  refine ⟨⟨_, rfl, accepted_get rfl (by decide) (by decide) rfl rfl rfl, rfl⟩, _, rfl,
    accepted_get rfl (by decide) (by decide) rfl rfl rfl, abcEntry, 0, 0, rfl, rfl⟩

end Libucmq.Http
