import Libucmq.Store.File

/-! The search for the files of a queue at start-up. -/

namespace Libucmq

open CString List Decimal

def FileName.index : FileName → UInt64
  | .db index => index
  | .tag _ index => index

def FileName.word : FileName → List UInt8
  | .db _ => [100, 98]
  | .tag .rtag _ => [114, 116, 97, 103]
  | .tag .wtag _ => [119, 116, 97, 103]

def FileName.Fits (name : FileName) : Prop := name.index.toNat < 10 ^ 12

variable {name : FileName}

theorem FileName.Fits.text_eq (fits : name.Fits) :
    name.text = name.word ++ 95 :: fixedDigits 12 name.index.toNat := by
  have padded := padded_of_fits (show 0 < 12 by omega) fits
  cases name with
  | db index => exact congrArg (ascii "db_" ++ ·) padded
  | tag kind index =>
    cases kind with
    | rtag => exact congrArg (ascii "rtag_" ++ ·) padded
    | wtag => exact congrArg (ascii "wtag_" ++ ·) padded

theorem FileName.word_clear (name : FileName) : name.word ≠ [] ∧ ∀ char ∈ name.word, char ≠ 0 ∧ char ≠ 95 := by
  cases name with
  | db index => simp [word]
  | tag kind index => cases kind <;> simp [word]

theorem FileName.Fits.id_eq (fits : name.Fits) : getIdByFname name.text = name.index := by
  obtain ⟨nonempty, clear⟩ := name.word_clear
  have split : tokens 95 name.text = [name.word, fixedDigits 12 name.index.toNat] := by
    rw [fits.text_eq, tokens, tokensFrom_run _ _ clear, tokensFrom, if_neg (by decide), if_pos rfl,
      nil_append, if_neg nonempty, ← append_nil (fixedDigits 12 name.index.toNat),
      tokensFrom_run _ _ (digits_clear (by decide))]
    simp [tokensFrom, fixedDigits_ne_nil]
  have small : name.index.toNat ≤ 9223372036854775807 := by
    rw [FileName.Fits] at fits
    omega
  rw [getIdByFname, split]
  simp only [foldl_cons, foldl_nil, atoll_digits (show 0 < 12 by omega) fits small]
  apply UInt64.toNat_inj.mp
  simp only [UInt64.ofInt, UInt64.toNat_ofNat']
  omega

theorem append_lt_append {word left right : List UInt8} : word ++ left < word ++ right ↔ left < right := by
  induction word with
  | nil => rfl
  | cons char word ih => simp [ih]

theorem FileName.Fits.text_lt {left right : FileName} (leftFits : left.Fits) (rightFits : right.Fits)
    (same : left.word = right.word) : left.text < right.text ↔ left.index.toNat < right.index.toNat := by
  rw [leftFits.text_eq, rightFits.text_eq, same, append_lt_append, cons_lt_cons_iff,
    fixedDigits_lt, Nat.mod_eq_of_lt leftFits, Nat.mod_eq_of_lt rightFits]
  simp

def pickBest (better : FileName → FileName → Bool) (kept : Option FileName) (ent : FileName) :
    Option FileName :=
  some (match kept with
    | none => ent
    | some kept => if better ent kept then ent else kept)

variable {better : FileName → FileName → Bool}

theorem pickBest_some {best : FileName} {listing : List FileName} (wins : ∀ ent ∈ listing, better ent best = false) :
    listing.foldl (pickBest better) (some best) = some best := by
  induction listing with
  | nil => rfl
  | cons ent listing ih =>
    simp only [foldl_cons, pickBest, wins ent mem_cons_self]
    exact ih fun later member => wins later (mem_cons_of_mem _ member)

theorem pickBest_best {best : FileName} {listing : List FileName} (member : best ∈ listing)
    (wins : ∀ ent ∈ listing, better ent best = false) (beats : ∀ ent ∈ listing, ent ≠ best → better best ent = true)
    (kept : Option FileName) (worse : ∀ ent, kept = some ent → ent ≠ best → better best ent = true) :
    listing.foldl (pickBest better) kept = some best := by
  induction listing generalizing kept with
  | nil => simp at member
  | cons ent listing ih =>
    have later := fun other member => wins other (mem_cons_of_mem ent member)
    rcases mem_cons.mp member with rfl | inside
    · have now : pickBest better kept best = some best := by
        cases kept with
        | none => rfl
        | some other =>
          by_cases same : other = best
          · simp [pickBest, same]
          · simp [pickBest, worse other rfl same]
      rw [foldl_cons, now, pickBest_some later]
    · refine ih inside later (fun other member => beats other (mem_cons_of_mem ent member)) _ ?_
      intro other chosen different
      cases kept with
      | none =>
        simp only [pickBest, Option.some.injEq] at chosen
        exact chosen ▸ beats ent mem_cons_self (chosen ▸ different)
      | some previous =>
        simp only [pickBest, Option.some.injEq] at chosen
        split at chosen
        · exact chosen ▸ beats ent mem_cons_self (chosen ▸ different)
        · exact worse other (by rw [chosen]) different

def FileName.isDb : FileName → Bool
  | .db _ => true
  | .tag _ _ => false

def FileName.isTag (kind : TagKind) : FileName → Bool
  | .db _ => false
  | .tag other _ => kind = other

variable (cwd : FileName → Bool)

theorem fold_readFname (listing : List FileName) (found : QueueFile) :
    (listing.foldl (findHandleStep cwd) found).readFname =
      (listing.filter FileName.isDb).foldl (pickBest fun ent kept => ent.text < kept.text)
        found.readFname := by
  induction listing generalizing found with
  | nil => rfl
  | cons ent listing ih =>
    rw [foldl_cons, ih]
    cases ent with
    | db index =>
      rw [filter_cons_of_pos rfl, foldl_cons]
      congr 1
      cases kept : found.readFname <;> simp [findHandleStep, pickBest, kept]
    | tag kind index =>
      rw [filter_cons_of_neg (by simp [FileName.isDb])]
      cases kind <;> rfl

theorem fold_writeFname (listing : List FileName) (found : QueueFile) :
    (listing.foldl (findHandleStep cwd) found).writeFname =
      (listing.filter FileName.isDb).foldl (pickBest fun ent kept => kept.text < ent.text)
        found.writeFname := by
  induction listing generalizing found with
  | nil => rfl
  | cons ent listing ih =>
    rw [foldl_cons, ih]
    cases ent with
    | db index =>
      rw [filter_cons_of_pos rfl, foldl_cons]
      congr 1
      cases kept : found.writeFname <;> simp [findHandleStep, pickBest, kept]
    | tag kind index =>
      rw [filter_cons_of_neg (by simp [FileName.isDb])]
      cases kind <;> rfl

def QueueFile.tagFname (found : QueueFile) : TagKind → Option FileName
  | .rtag => found.rtagFname
  | .wtag => found.wtagFname

theorem fold_tagFname (kind : TagKind) (listing : List FileName) (found : QueueFile) :
    (listing.foldl (findHandleStep cwd) found).tagFname kind = (listing.filter (FileName.isTag kind)).foldl
        (pickBest fun ent kept => cwd ent && decide (kept.text < ent.text)) (found.tagFname kind) := by
  induction listing generalizing found with
  | nil => rfl
  | cons ent listing ih =>
    rw [foldl_cons, ih]
    cases ent with
    | db index =>
      rw [filter_cons_of_neg (by simp [FileName.isTag])]
      cases kind <;> rfl
    | tag other index =>
      by_cases same : kind = other
      · subst same
        rw [filter_cons_of_pos (by simp [FileName.isTag]), foldl_cons]
        congr 1
        cases kind
        · cases kept : found.rtagFname <;>
            simp [findHandleStep, QueueFile.tagFname, pickBest, pickTag, kept]
        · cases kept : found.wtagFname <;>
            simp [findHandleStep, QueueFile.tagFname, pickBest, pickTag, kept]
      · rw [filter_cons_of_neg (by simp [FileName.isTag, same])]
        cases kind <;> cases other <;> first | rfl | exact absurd rfl same

structure Lists (dir : QueueDir) (listing : List FileName) : Prop where
  db : ∀ index, .db index ∈ listing ↔ dir.db index ≠ none
  tag : ∀ kind index, .tag kind index ∈ listing ↔ dir.tag kind index ≠ none
  nodup : listing.Nodup

def firstTag (kind : TagKind) (listing : List FileName) : Option FileName :=
  (listing.filter (FileName.isTag kind)).head?

variable {cwd : FileName → Bool} {dir : QueueDir} {listing : List FileName}

theorem mem_filter_db {ent : FileName} (member : ent ∈ listing.filter FileName.isDb) :
    ∃ index, ent = .db index ∧ .db index ∈ listing := by
  obtain ⟨inside, isDb⟩ := mem_filter.mp member
  cases ent with
  | db index => exact ⟨index, rfl, inside⟩
  | tag kind index => simp [FileName.isDb] at isDb

theorem Lists.find_db (lists : Lists dir listing) {first last : UInt64}
    (firstIn : dir.db first ≠ none) (lastIn : dir.db last ≠ none)
    (range : ∀ index, dir.db index ≠ none → first.toNat ≤ index.toNat ∧ index.toNat ≤ last.toNat)
    (fits : last.toNat < 10 ^ 12) (found : QueueFile) (fresh : found.readFname = none)
    (freshWrite : found.writeFname = none) : (listing.foldl (findHandleStep cwd) found).readFname = some (.db first) ∧
      (listing.foldl (findHandleStep cwd) found).writeFname = some (.db last) := by
  have ordered : ∀ left right, dir.db left ≠ none → dir.db right ≠ none →
      ((FileName.db left).text < (FileName.db right).text ↔ left.toNat < right.toNat) := by
    intro left right leftIn rightIn
    have leftBound := (range left leftIn).2
    have rightBound := (range right rightIn).2
    exact FileName.Fits.text_lt (show left.toNat < 10 ^ 12 by omega)
      (show right.toNat < 10 ^ 12 by omega) rfl
  have member : ∀ index, dir.db index ≠ none → .db index ∈ listing.filter FileName.isDb :=
    fun index present => mem_filter.mpr ⟨(lists.db index).mpr present, rfl⟩
  rw [fold_readFname, fold_writeFname, fresh, freshWrite]
  constructor
  · apply pickBest_best (member first firstIn)
    · intro ent inside
      obtain ⟨index, rfl, listed⟩ := mem_filter_db inside
      have present := (lists.db index).mp listed
      simpa [ordered index first present firstIn] using (range index present).1
    · intro ent inside different
      obtain ⟨index, rfl, listed⟩ := mem_filter_db inside
      have present := (lists.db index).mp listed
      have lower := (range index present).1
      have apart : first.toNat ≠ index.toNat := fun same => different (by rw [UInt64.toNat_inj.mp same])
      simp [ordered first index firstIn present]
      omega
    · simp
  · apply pickBest_best (member last lastIn)
    · intro ent inside
      obtain ⟨index, rfl, listed⟩ := mem_filter_db inside
      have present := (lists.db index).mp listed
      simpa [ordered last index lastIn present] using (range index present).2
    · intro ent inside different
      obtain ⟨index, rfl, listed⟩ := mem_filter_db inside
      have present := (lists.db index).mp listed
      have upper := (range index present).2
      have apart : last.toNat ≠ index.toNat := fun same => different (by rw [UInt64.toNat_inj.mp same])
      simp [ordered index last present lastIn]
      omega
    · simp

theorem find_firstTag (kind : TagKind) (found : QueueFile) (fresh : found.tagFname kind = none)
    (elsewhere : ∀ name, cwd name = false) :
    (listing.foldl (findHandleStep cwd) found).tagFname kind = firstTag kind listing := by
  rw [fold_tagFname, fresh, firstTag]
  cases listing.filter (FileName.isTag kind) with
  | nil => rfl
  | cons ent later =>
    rw [foldl_cons]
    exact pickBest_some (fun other _ => by simp [elsewhere])

theorem Lists.find_tag (lists : Lists dir listing) (kind : TagKind) {index : UInt64}
    (present : dir.tag kind index ≠ none) (alone : ∀ other, other ≠ index → dir.tag kind other = none)
    (found : QueueFile) (fresh : found.tagFname kind = none) :
    (listing.foldl (findHandleStep cwd) found).tagFname kind = some (.tag kind index) := by
  have only : ∀ ent ∈ listing.filter (FileName.isTag kind), ent = .tag kind index := by
    intro ent member
    obtain ⟨inside, isTag⟩ := mem_filter.mp member
    cases ent with
    | db index => simp [FileName.isTag] at isTag
    | tag other place =>
      simp only [FileName.isTag, decide_eq_true_eq] at isTag
      subst isTag
      by_contra different
      have absent := alone place (fun same => different (by rw [same]))
      exact (lists.tag kind place).mp inside absent
  rw [fold_tagFname, fresh]
  apply pickBest_best
    (mem_filter.mpr ⟨(lists.tag kind index).mpr present, by simp [FileName.isTag]⟩)
  · intro ent member
    simp [only ent member]
  · intro ent member different
    exact absurd (only ent member) different
  · simp

def handleOf (first last : UInt64) : Handle where
  readFname := .db first
  writeFname := .db last
  rtagFname := .tag .rtag first
  wtagFname := .tag .wtag last
  readFid := first
  writeFid := last

theorem findHandleFile_eq {first last rtag wtag : UInt64} (found : QueueFile)
    (scan : listing.foldl (findHandleStep cwd) {} = found) (read : found.readFname = some (.db first))
    (write : found.writeFname = some (.db last)) (rtagFound : found.tagFname .rtag = some (.tag .rtag rtag))
    (wtagFound : found.tagFname .wtag = some (.tag .wtag wtag)) (firstFits : first.toNat < 10 ^ 12)
    (lastFits : last.toNat < 10 ^ 12) (rtagFits : rtag.toNat < 10 ^ 12) (wtagFits : wtag.toNat < 10 ^ 12) :
    findHandleFile cwd listing =
      if rtag = first ∧ wtag = last then some (handleOf first last) else none := by
  have firstId := FileName.Fits.id_eq (show (FileName.db first).Fits from firstFits)
  have lastId := FileName.Fits.id_eq (show (FileName.db last).Fits from lastFits)
  have rtagId := FileName.Fits.id_eq (show (FileName.tag .rtag rtag).Fits from rtagFits)
  have wtagId := FileName.Fits.id_eq (show (FileName.tag .wtag wtag).Fits from wtagFits)
  obtain ⟨readFname, writeFname, rtagFname, wtagFname⟩ := found
  simp only [QueueFile.tagFname] at read write rtagFound wtagFound
  subst read write rtagFound wtagFound
  rw [findHandleFile, scan]
  simp only [firstId, lastId, rtagId, wtagId, FileName.index]
  by_cases readSame : rtag = first <;> by_cases writeSame : wtag = last <;>
    simp [readSame, writeSame, handleOf]

theorem Lists.findHandleFile_whole (lists : Lists dir listing) {first last : UInt64}
    (firstIn : dir.db first ≠ none) (lastIn : dir.db last ≠ none)
    (range : ∀ index, dir.db index ≠ none → first.toNat ≤ index.toNat ∧ index.toNat ≤ last.toNat)
    (fits : last.toNat < 10 ^ 12) (rtagIn : dir.tag .rtag first ≠ none)
    (rtagAlone : ∀ other, other ≠ first → dir.tag .rtag other = none) (wtagIn : dir.tag .wtag last ≠ none)
    (wtagAlone : ∀ other, other ≠ last → dir.tag .wtag other = none) :
    findHandleFile cwd listing = some (handleOf first last) := by
  obtain ⟨read, write⟩ := @Lists.find_db cwd dir listing lists first last firstIn lastIn range fits {} rfl rfl
  have firstFits := (range first firstIn).2
  rw [findHandleFile_eq _ rfl read write (lists.find_tag .rtag rtagIn rtagAlone {} rfl)
    (lists.find_tag .wtag wtagIn wtagAlone {} rfl) (by omega) fits (by omega) fits]
  simp

structure Settles (dir : QueueDir) (found : QueueFile) : Prop where
  read : ∀ name, found.readFname = some name ↔ ∃ index, name = .db index ∧ dir.db index ≠ none ∧
    ∀ other, dir.db other ≠ none → index.toNat ≤ other.toNat
  write : ∀ name, found.writeFname = some name ↔ ∃ index, name = .db index ∧ dir.db index ≠ none ∧
    ∀ other, dir.db other ≠ none → other.toNat ≤ index.toNat
  tag : ∀ kind name, found.tagFname kind = some name ↔ ∃ index, name = .tag kind index ∧
    dir.tag kind index ≠ none ∧ ∀ other, dir.tag kind other ≠ none → other.toNat ≤ index.toNat

theorem some_iff_of_unique {α : Type} {chosen : Option α} {best : α} {good : α → Prop} (found : chosen = some best)
    (fits : good best) (unique : ∀ other, good other → other = best) (name : α) : chosen = some name ↔ good name := by
  rw [found, Option.some.injEq]
  constructor
  · rintro rfl
    exact fits
  · intro same
    exact (unique name same).symm

theorem Settles.unique {left right : QueueFile} (first : Settles dir left) (second : Settles dir right) :
    left = right := by
  have read : left.readFname = right.readFname := Option.ext fun name => (first.read name).trans (second.read name).symm
  have write : left.writeFname = right.writeFname :=
    Option.ext fun name => (first.write name).trans (second.write name).symm
  have rtag : left.rtagFname = right.rtagFname :=
    Option.ext fun name => (first.tag .rtag name).trans (second.tag .rtag name).symm
  have wtag : left.wtagFname = right.wtagFname :=
    Option.ext fun name => (first.tag .wtag name).trans (second.tag .wtag name).symm
  cases left
  cases right
  simp_all

theorem dir_ends (given : ∃ index, dir.db index ≠ none) : ∃ first last, dir.db first ≠ none ∧ dir.db last ≠ none ∧
      ∀ index, dir.db index ≠ none → first.toNat ≤ index.toNat ∧ index.toNat ≤ last.toNat := by
  obtain ⟨first, firstIn, least⟩ :=
    WellFounded.has_min (measure UInt64.toNat).wf {index | dir.db index ≠ none} given
  obtain ⟨last, lastIn, greatest⟩ :=
    WellFounded.has_min (measure fun index : UInt64 => 18446744073709551616 - index.toNat).wf
      {index | dir.db index ≠ none} given
  refine ⟨first, last, firstIn, lastIn, fun index present => ⟨?_, ?_⟩⟩
  · have notLess : ¬ index.toNat < first.toNat := least index present
    omega
  · have notLess : ¬ 18446744073709551616 - index.toNat < 18446744073709551616 - last.toNat :=
      greatest index present
    have bound := last.toNat_lt
    omega

theorem Lists.settles (lists : Lists dir listing) (fits : ∀ index, dir.db index ≠ none → index.toNat < 10 ^ 12)
    (alone : ∀ kind left right, dir.tag kind left ≠ none → dir.tag kind right ≠ none → left = right) :
    Settles dir (listing.foldl (findHandleStep cwd) {}) := by
  have tags : ∀ kind name, (listing.foldl (findHandleStep cwd) {}).tagFname kind = some name ↔
      ∃ index, name = .tag kind index ∧ dir.tag kind index ≠ none ∧
        ∀ other, dir.tag kind other ≠ none → other.toNat ≤ index.toNat := by
    intro kind
    by_cases given : ∃ index, dir.tag kind index ≠ none
    · obtain ⟨index, present⟩ := given
      refine some_iff_of_unique (lists.find_tag kind present (fun other different => ?_) {} (by cases kind <;> rfl))
        ⟨index, rfl, present, fun other there => by rw [alone kind other index there present]⟩ ?_
      · by_contra there
        exact different (alone kind other index there present)
      · rintro name ⟨other, rfl, there, _⟩
        rw [alone kind other index there present]
    · have nothing : listing.filter (FileName.isTag kind) = [] := by
        rw [filter_eq_nil_iff]
        rintro (index | ⟨other, index⟩) member isTag
        · simp [FileName.isTag] at isTag
        · simp only [FileName.isTag, decide_eq_true_eq] at isTag
          subst isTag
          exact given ⟨index, (lists.tag kind index).mp member⟩
      intro name
      rw [fold_tagFname, nothing]
      constructor
      · cases kind <;> simp [QueueFile.tagFname]
      · rintro ⟨index, _, present, _⟩
        exact absurd ⟨index, present⟩ given
  by_cases given : ∃ index, dir.db index ≠ none
  · obtain ⟨first, last, firstIn, lastIn, range⟩ := dir_ends given
    obtain ⟨read, write⟩ := @Lists.find_db cwd dir listing lists first last firstIn lastIn range (fits last lastIn)
      {} rfl rfl
    refine ⟨some_iff_of_unique read ⟨first, rfl, firstIn, fun other there => (range other there).1⟩ ?_,
      some_iff_of_unique write ⟨last, rfl, lastIn, fun other there => (range other there).2⟩ ?_, tags⟩
    · rintro name ⟨index, rfl, present, least⟩
      rw [UInt64.toNat_inj.mp (Nat.le_antisymm (least first firstIn) (range index present).1)]
    · rintro name ⟨index, rfl, present, greatest⟩
      rw [UInt64.toNat_inj.mp (Nat.le_antisymm (range index present).2 (greatest last lastIn))]
  · have nothing : listing.filter FileName.isDb = [] := by
      rw [filter_eq_nil_iff]
      rintro (index | ⟨kind, index⟩) member isDb
      · exact given ⟨index, (lists.db index).mp member⟩
      · simp [FileName.isDb] at isDb
    have absent : ∀ index, dir.db index = none := fun index => by
      by_contra present
      exact given ⟨index, present⟩
    refine ⟨fun name => ?_, fun name => ?_, tags⟩
    · rw [fold_readFname, nothing]
      simp [absent]
    · rw [fold_writeFname, nothing]
      simp [absent]

theorem Lists.front (lists : Lists dir listing) (member : name ∈ listing) :
    Lists dir (name :: listing.erase name) := by
  have perm := perm_cons_erase member
  exact ⟨fun index => by rw [← perm.mem_iff]; exact lists.db index,
    fun kind index => by rw [← perm.mem_iff]; exact lists.tag kind index, perm.nodup_iff.mp lists.nodup⟩

theorem first_of_two {kind : TagKind} {left right : UInt64} (lists : Lists dir listing)
    (elsewhere : ∀ name, cwd name = false) (leftIn : dir.tag kind left ≠ none) (rightIn : dir.tag kind right ≠ none)
    (less : left.toNat < right.toNat) :
    ∃ other, Lists dir other ∧ ¬ Settles dir (other.foldl (findHandleStep cwd) {}) := by
  refine ⟨_, lists.front ((lists.tag kind left).mpr leftIn), fun settles => ?_⟩
  have first := @find_firstTag cwd (.tag kind left :: listing.erase (.tag kind left)) kind {}
    (by cases kind <;> rfl) elsewhere
  rw [firstTag, filter_cons_of_pos (by simp [FileName.isTag]), List.head?_cons] at first
  obtain ⟨index, same, _, greatest⟩ := (settles.tag kind _).mp first
  cases same
  exact absurd (greatest right rightIn) (Nat.not_le_of_lt less)

/-- Right in every order exactly with at most one tag of each kind. -/
theorem search_anyOrder (cwd : FileName → Bool) (dir : QueueDir) (listing : List FileName) (lists : Lists dir listing)
    (elsewhere : ∀ name, cwd name = false) (fits : ∀ index, dir.db index ≠ none → index.toNat < 10 ^ 12) :
    (∀ other, Lists dir other → other.foldl (findHandleStep cwd) {} = listing.foldl (findHandleStep cwd) {} ∧
      findHandleFile cwd other = findHandleFile cwd listing ∧ Settles dir (other.foldl (findHandleStep cwd) {})) ↔
    ∀ kind left right, dir.tag kind left ≠ none → dir.tag kind right ≠ none → left = right := by
  constructor
  · intro same kind left right leftIn rightIn
    by_contra different
    have apart : left.toNat ≠ right.toNat := fun equal => different (UInt64.toNat_inj.mp equal)
    rcases Nat.lt_or_gt_of_ne apart with less | more
    · obtain ⟨other, listed, fails⟩ := first_of_two lists elsewhere leftIn rightIn less
      exact fails (same other listed).2.2
    · obtain ⟨other, listed, fails⟩ := first_of_two lists elsewhere rightIn leftIn more
      exact fails (same other listed).2.2
  · intro alone other listed
    have settles := @Lists.settles cwd dir other listed fits alone
    have equal := settles.unique (@Lists.settles cwd dir listing lists fits alone)
    exact ⟨equal, by rw [findHandleFile, findHandleFile, equal], settles⟩

def rolling (done : Bool) : QueueDir where
  db := fun index => if index = 1 ∨ index = 2 then some ⟨maxDbFileSize, fun _ => 0⟩ else none
  tag := fun
    | .rtag => fun index => if index = 1 then some [] else none
    | .wtag => fun index => if index = 2 ∨ index = 1 ∧ done = false then some [] else none

theorem rolling_lists {listing : List FileName} (done : Bool)
    (perm : listing.Perm ([.db 1, .db 2, .tag .rtag 1, .tag .wtag 2] ++ if done then [] else [.tag .wtag 1])) :
    Lists (rolling done) listing := by
  refine ⟨fun index => ?_, fun kind index => ?_, perm.nodup_iff.mpr (by cases done <;> decide)⟩
  · rw [perm.mem_iff]
    cases done <;> simp [rolling, or_iff_not_imp_left]
  · rw [perm.mem_iff]
    cases done <;> cases kind <;> simp [rolling, or_iff_not_imp_left]

theorem search_anyOrder_done : findHandleFile (fun _ => false) [.tag .wtag 2, .db 2, .tag .rtag 1, .db 1] =
      findHandleFile (fun _ => false) [.db 1, .db 2, .tag .rtag 1, .tag .wtag 2] := by
  have same := search_anyOrder (fun _ => false) (rolling true) [.db 1, .db 2, .tag .rtag 1, .tag .wtag 2]
    (rolling_lists true (by decide)) (fun _ => rfl) (fun index present => by
      simp only [rolling, ne_eq, ite_eq_right_iff, not_forall] at present
      rcases present.1 with rfl | rfl <;> decide)
  refine (same.mpr (fun kind left right leftIn rightIn => ?_) _ (rolling_lists true (by decide))).2.1
  cases kind <;> simp_all [rolling]

theorem search_anyOrder_fails : Lists (rolling false) [.db 1, .db 2, .tag .rtag 1, .tag .wtag 2, .tag .wtag 1] ∧
    Lists (rolling false) [.db 1, .db 2, .tag .rtag 1, .tag .wtag 1, .tag .wtag 2] ∧
    findHandleFile (fun _ => false) [.db 1, .db 2, .tag .rtag 1, .tag .wtag 2, .tag .wtag 1] = some (handleOf 1 2) ∧
    findHandleFile (fun _ => false) [.db 1, .db 2, .tag .rtag 1, .tag .wtag 1, .tag .wtag 2] = none :=
  ⟨rolling_lists false (by decide), rolling_lists false (by decide), by decide, by decide⟩

theorem pickBest_key {test : FileName → Bool} {key : FileName → Int}
    {listing : List FileName} {kept : Option FileName} {result : FileName}
    (spec : ∀ ent ∈ listing, ∀ other, other ∈ listing ∨ kept = some other →
      (better ent other = true ↔ test ent = true ∧ key other < key ent))
    (found : listing.foldl (pickBest better) kept = some result) :
    (result ∈ listing ∨ kept = some result) ∧ (∀ other, kept = some other → key other ≤ key result) ∧
      ∀ ent ∈ listing, test ent = true → key ent ≤ key result := by
  induction listing generalizing kept with
  | nil => exact ⟨.inr found, fun other same => by simp_all, by simp⟩
  | cons ent listing ih =>
    rw [foldl_cons] at found
    have chosen : pickBest better kept ent = some ent ∨ pickBest better kept ent = kept := by
      cases kept with
      | none => exact .inl rfl
      | some other => by_cases wins : better ent other = true <;> simp [pickBest, wins]
    have narrow : ∀ later ∈ listing, ∀ other, other ∈ listing ∨ pickBest better kept ent = some other →
        (better later other = true ↔ test later = true ∧ key other < key later) := by
      intro later member other place
      refine spec later (mem_cons_of_mem _ member) other ?_
      grind
    obtain ⟨inside, above, most⟩ := ih narrow found
    cases kept with
    | none => grind [pickBest]
    | some other =>
      have turn := spec ent mem_cons_self other (.inr rfl)
      by_cases wins : better ent other = true <;> grind [pickBest]

theorem FileName.word_db : name.isDb = true ↔ name.word = [100, 98] := by
  cases name with
  | db index => simp [isDb, word]
  | tag kind index => cases kind <;> simp [isDb, word]

theorem FileName.word_tag {kind : TagKind} (isTag : name.isTag kind = true) :
    name.word = (FileName.tag kind 0).word := by
  cases name with
  | db index => simp [FileName.isTag] at isTag
  | tag other index =>
    obtain rfl : kind = other := by simpa [FileName.isTag] using isTag
    cases kind <;> rfl

/-- Names give back their index and are ordered as the indexes. -/
theorem pickBest_ne_none {listing : List FileName} (nonempty : listing ≠ []) (kept : Option FileName) :
    listing.foldl (pickBest better) kept ≠ none := by
  induction listing generalizing kept with
  | nil => exact absurd rfl nonempty
  | cons ent listing ih =>
      rw [foldl_cons]
      cases listing with
      | nil => exact Option.some_ne_none _
      | cons next listing => exact ih (cons_ne_nil _ _) _

theorem fname_numeric :
    (∀ name : FileName, name.Fits → getIdByFname name.text = name.index) ∧
    (∀ left right : FileName, left.Fits → right.Fits → left.word = right.word →
      (left.text < right.text ↔ left.index.toNat < right.index.toNat) ∧
      (left.text = right.text ↔ left.index = right.index)) ∧
    ∀ (cwd : FileName → Bool) (listing : List FileName), (∀ name ∈ listing, name.Fits) →
      (listing.filter FileName.isDb ≠ [] →
        (listing.foldl (findHandleStep cwd) {}).readFname ≠ none ∧
        (listing.foldl (findHandleStep cwd) {}).writeFname ≠ none) ∧
      (∀ kind, listing.filter (FileName.isTag kind) ≠ [] →
        (listing.foldl (findHandleStep cwd) {}).tagFname kind ≠ none) ∧
      ∀ kept : FileName,
        ((listing.foldl (findHandleStep cwd) {}).readFname = some kept →
          kept ∈ listing.filter FileName.isDb ∧
          ∀ name ∈ listing.filter FileName.isDb, kept.index.toNat ≤ name.index.toNat) ∧
        ((listing.foldl (findHandleStep cwd) {}).writeFname = some kept →
          kept ∈ listing.filter FileName.isDb ∧
          ∀ name ∈ listing.filter FileName.isDb, name.index.toNat ≤ kept.index.toNat) ∧
        ∀ kind, (listing.foldl (findHandleStep cwd) {}).tagFname kind = some kept →
          kept ∈ listing.filter (FileName.isTag kind) ∧
          ∀ name ∈ listing.filter (FileName.isTag kind), cwd name = true → name.index.toNat ≤ kept.index.toNat := by
  refine ⟨fun name fits => fits.id_eq, ?_, ?_⟩
  · intro left right leftFits rightFits same
    refine ⟨leftFits.text_lt rightFits same, fun texts => ?_, fun indexes => ?_⟩
    · rw [← leftFits.id_eq, ← rightFits.id_eq, texts]
    · rw [leftFits.text_eq, rightFits.text_eq, same, indexes]
  · intro cwd listing fits
    simp only [fold_readFname, fold_writeFname, fold_tagFname]
    refine ⟨fun nonempty => ⟨pickBest_ne_none nonempty _, pickBest_ne_none nonempty _⟩,
      fun kind nonempty => pickBest_ne_none nonempty _, fun kept => ?_⟩
    have ordered : ∀ left right : FileName, left ∈ listing → right ∈ listing → left.word = right.word →
        (left.text < right.text ↔ left.index.toNat < right.index.toNat) :=
      fun left right leftIn rightIn same => (fits left leftIn).text_lt (fits right rightIn) same
    refine ⟨fun found => ?_, fun found => ?_, fun kind found => ?_⟩
    · have best := @pickBest_key _ (fun _ => true) (fun name => -(name.index.toNat : Int)) _ _ _ (by
        intro ent member other place
        simp only [mem_filter, FileName.word_db, reduceCtorEq, or_false] at member place
        simp [ordered ent other member.1 place.1 (member.2.trans place.2.symm)]) found
      exact ⟨by simpa using best.1, fun name member => by simpa using best.2.2 name member rfl⟩
    · have best := @pickBest_key _ (fun _ => true) (fun name => (name.index.toNat : Int)) _ _ _ (by
        intro ent member other place
        simp only [mem_filter, FileName.word_db, reduceCtorEq, or_false] at member place
        simp [ordered other ent place.1 member.1 (place.2.trans member.2.symm)]) found
      exact ⟨by simpa using best.1, fun name member => by simpa using best.2.2 name member rfl⟩
    · have fresh : QueueFile.tagFname {} kind = none := by cases kind <;> rfl
      rw [fresh] at found
      have best := @pickBest_key _ cwd (fun name => (name.index.toNat : Int)) _ _ _ (by
        intro ent member other place
        simp only [mem_filter, reduceCtorEq, or_false] at member place
        have same := (FileName.word_tag place.2).trans (FileName.word_tag member.2).symm
        simp [ordered other ent place.1 member.1 same]) found
      exact ⟨by simpa using best.1, fun name member there => by simpa using best.2.2 name member there⟩

theorem fname_numeric_two :
    ([FileName.db 30, .db 4].foldl (findHandleStep fun _ => false) {}).readFname = some (.db 4) ∧
      ([FileName.db 30, .db 4].foldl (findHandleStep fun _ => false) {}).writeFname = some (.db 30) := by
  have fits : ∀ name ∈ [FileName.db 30, .db 4], name.Fits := by
    intro name member
    simp only [mem_cons, not_mem_nil, or_false] at member
    rcases member with rfl | rfl <;> simp [FileName.Fits, FileName.index]
  obtain ⟨kept, -, chosen⟩ := fname_numeric.2.2 (fun _ => false) _ fits
  obtain ⟨oldest, newest⟩ := kept (by decide)
  obtain ⟨first, read⟩ := Option.ne_none_iff_exists'.mp oldest
  obtain ⟨last, write⟩ := Option.ne_none_iff_exists'.mp newest
  obtain ⟨firstIn, least⟩ := (chosen first).1 read
  obtain ⟨lastIn, most⟩ := (chosen last).2.1 write
  rw [read, write]
  simp only [filter_cons, FileName.isDb, if_true, filter_nil, mem_cons, not_mem_nil, or_false] at firstIn lastIn least most
  refine ⟨?_, ?_⟩
  · rcases firstIn with rfl | rfl
    · exact absurd (least (.db 4) (.inr rfl)) (by decide)
    · rfl
  · rcases lastIn with rfl | rfl
    · rfl
    · exact absurd (most (.db 30) (.inl rfl)) (by decide)

end Libucmq
