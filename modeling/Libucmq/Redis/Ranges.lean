import Libucmq.Redis.Dispatch

/-! The ranges of the arguments. -/

namespace Libucmq.Redis

open Net List Function CString

variable {node next : RedisNode}

def toSize (length : Int) : Nat := (length % 18446744073709551616).toNat

def CrlfAt (data : List UInt8) (index : Nat) : Prop := data[index]? = some 13 ∧ data[index + 1]? = some 10

instance (data : List UInt8) (index : Nat) : Decidable (CrlfAt data index) := inferInstanceAs (Decidable (_ ∧ _))

def Before (first second : Nat × Int) : Prop := first.1 + toSize first.2 ≤ second.1

structure ValidRanges (node : RedisNode) : Prop where
  counts : ∀ reg, (node.rs.stored reg).length ≤ maxKvPairs
  inside : ∀ reg, ∀ entry ∈ node.rs.stored reg, entry.1 + toSize entry.2 + 2 ≤ node.data.length
  closed : ∀ reg, ∀ entry ∈ node.rs.stored reg, CrlfAt node.data (entry.1 + toSize entry.2)
  increasing : ∀ reg, (node.rs.stored reg).Pairwise Before
  disjoint : ∀ reg other, reg ≠ other → ∀ entry ∈ node.rs.stored reg, ∀ later ∈ node.rs.stored other,
    Before entry later ∨ Before later entry

def Measured (node : RedisNode) : Prop :=
  ∀ reg, ∀ entry ∈ node.rs.stored reg, 0 ≤ entry.2 ∧ CrlfAt node.data (entry.1 + entry.2.toNat)

theorem toSize_of_nonneg {length : Int} (natural : 0 ≤ length) (small : length < 2147483648) :
    toSize length = length.toNat := by
  simp only [toSize]
  omega

theorem findCrlf_inside {text : List UInt8} {index : Nat} (found : findCrlf text = some index) :
    index + 2 ≤ text.length := by
  induction text generalizing index with
  | nil => simp [findCrlf] at found
  | cons byte rest ih =>
    simp only [findCrlf] at found
    split at found
    · simp at found
    · split at found
      · rename_i _ line
        cases rest with
        | nil => simp at line
        | cons other rest =>
          simp only [Option.some.injEq] at found
          simp [← found]
      · simp only [Option.map_eq_some_iff] at found
        obtain ⟨before, foundRest, rfl⟩ := found
        have := ih foundRest
        simp only [length_cons]
        omega

theorem checkBuffer_found {data : List UInt8} {x stop : Nat} {y : Int}
    (found : checkBuffer data x y = .ok (some stop)) :
    ¬ x + y < 0 ∧ ∃ index, findCrlf (data.drop (x + y).toNat) = some index ∧ (x + y).toNat + index + 2 = stop := by
  unfold checkBuffer at found
  split at found
  · simp at found
  split at found
  · simp at found
  rename_i natural
  simp only [Except.ok.injEq, Option.map_eq_some_iff] at found
  exact ⟨natural, found⟩

theorem checkBuffer_inside {data : List UInt8} {x stop : Nat} {y : Int}
    (found : checkBuffer data x y = .ok (some stop)) : 0 ≤ x + y ∧ x + y + 2 ≤ stop ∧ stop ≤ data.length := by
  obtain ⟨natural, index, line, rfl⟩ := checkBuffer_found found
  have bound := findCrlf_inside line
  rw [length_drop] at bound
  omega

def IsInt (value : Int) : Prop := -2147483648 ≤ value ∧ value < 2147483648

theorem isInt_zero : IsInt 0 := ⟨by decide, by decide⟩

theorem atoi_int (text : List UInt8) : IsInt (atoi text) := by
  have low := @Int.le_bmod (atoll text) 4294967296 (by decide)
  have high := @Int.bmod_lt (atoll text) 4294967296 (by decide)
  simp only [IsInt, atoi]
  omega

@[simp] theorem upperName_length (data : List UInt8) (start length : Nat) :
    (upperName data start length).length = data.length := by
  simp only [upperName, length_append, length_map, length_take, length_drop]
  omega

def Natural (node : RedisNode) : Prop := ∀ reg, ∀ entry ∈ node.rs.stored reg, 0 ≤ entry.2

structure Follow (node : RedisNode) : Prop where
  inside : node.rp.doptr ≤ node.data.length
  past : ∀ reg, ∀ entry ∈ node.rs.stored reg, (entry.1 : Int) + entry.2 + 2 ≤ node.rp.doptr
  increasing : ∀ reg, (node.rs.stored reg).Pairwise fun first second => (first.1 : Int) + first.2 ≤ second.1
  disjoint : ∀ reg other, reg ≠ other → ∀ entry ∈ node.rs.stored reg, ∀ later ∈ node.rs.stored other,
    (entry.1 : Int) + entry.2 ≤ later.1 ∨ (later.1 : Int) + later.2 ≤ entry.1

structure Laid (node : RedisNode) : Prop where
  counts : ∀ reg, (node.rs.stored reg).length ≤ maxKvPairs
  lens : ∀ reg, IsInt (node.rp.len reg)
  ints : ∀ reg, ∀ entry ∈ node.rs.stored reg, IsInt entry.2
  follow : Natural node → Follow node

theorem Follow.moved {node next : RedisNode} (follow : Follow node) (status : next.rs.stored = node.rs.stored)
    (forward : node.rp.doptr ≤ next.rp.doptr) (inside : next.rp.doptr ≤ next.data.length) : Follow next := by
  refine ⟨inside, fun reg entry member => ?_, ?_, ?_⟩
  · rw [status] at member
    have := follow.past reg entry member
    omega
  · rw [status]
    exact follow.increasing
  · rw [status]
    exact follow.disjoint

theorem parseLen_laid {reg : Reg} (laid : Laid node) (parsed : parseLen reg node = .ok next) : Laid next := by
  obtain ⟨-, rfl⟩ | ⟨-, -, stop, line, rfl⟩ := parseLen_ok parsed
  · exact laid
  have bound := checkBuffer_inside line
  refine ⟨laid.counts, fun other => ?_, laid.ints, fun natural => ?_⟩
  · by_cases same : other = reg
    · subst same
      simpa using atoi_int _
    · simpa [update_of_ne same] using laid.lens other
  · refine (laid.follow natural).moved rfl ?_ ?_
    · dsimp only
      omega
    · exact bound.2.2

theorem mem_append_stored {stored : Reg → List (Nat × Int)} {reg other : Reg} {entry new : Nat × Int} :
    entry ∈ update stored reg (stored reg ++ [new]) other ↔ entry ∈ stored other ∨ other = reg ∧ entry = new := by
  by_cases same : other = reg
  · subst same
    simp
  · simp [same]

theorem parseMember_laid {reg : Reg} (laid : Laid node) (parsed : parseMember reg node = .ok next) : Laid next := by
  obtain ⟨-, rfl⟩ | ⟨-, room, stop, body, rfl⟩ := parseMember_ok parsed
  · exact laid
  have bound := checkBuffer_inside body
  refine ⟨fun other => ?_, laid.lens, fun other entry member => ?_, fun natural => ?_⟩
  · by_cases same : other = reg
    · subst same
      simp only [update_self, length_append, length_singleton]
      omega
    · simpa [update_of_ne same] using laid.counts other
  · obtain old | ⟨-, rfl⟩ := mem_append_stored.mp member
    · exact laid.ints other entry old
    · exact laid.lens reg
  · have follow := laid.follow fun other entry member => natural other entry (mem_append_stored.mpr (.inl member))
    -- the new range starts where the parser stood and ends at most where it goes on
    have positive : 0 ≤ node.rp.len reg := natural reg (node.rp.doptr, node.rp.len reg) (by simp)
    refine ⟨bound.2.2, fun other entry member => ?_, fun other => ?_, fun first second apart entry member later
      memberLater => ?_⟩
    · dsimp only
      obtain old | ⟨-, rfl⟩ := mem_append_stored.mp member
      · have := follow.past other entry old
        omega
      · exact bound.2.1
    · by_cases same : other = reg
      · subst same
        simp only [update_self, pairwise_append, pairwise_singleton, mem_singleton,
          forall_eq, true_and]
        refine ⟨follow.increasing other, fun entry member => ?_⟩
        have := follow.past other entry member
        omega
      · simpa [update_of_ne same] using follow.increasing other
    · obtain old | ⟨rfl, rfl⟩ := mem_append_stored.mp member
      · obtain oldLater | ⟨-, rfl⟩ := mem_append_stored.mp memberLater
        · exact follow.disjoint first second apart entry old later oldLater
        · have := follow.past first entry old
          exact .inl (by dsimp only; omega)
      · obtain oldLater | ⟨same, -⟩ := mem_append_stored.mp memberLater
        · have := follow.past second later oldLater
          exact .inr (by dsimp only; omega)
        · exact absurd same.symm apart

theorem next_laid {regs : List Reg} (laid : Laid node) (parsed : argOp (.next regs) node = .ok next) : Laid next := by
  obtain rfl := Except.ok.inj parsed
  refine ⟨laid.counts, fun reg => ?_, laid.ints, fun natural => ?_⟩
  · dsimp only
    split
    · exact isInt_zero
    · exact laid.lens reg
  · exact (laid.follow natural).moved rfl le_rfl (laid.follow natural).inside

theorem parseCount_laid (reset : node.rp = {}) (parsed : parseCount node = .ok next) : Laid next := by
  obtain ⟨counted, rfl⟩ | ⟨-, stop, line, rfl⟩ := parseCount_ok parsed
  · exact absurd (by rw [reset]) counted
  · refine ⟨fun _ => by simp [maxKvPairs], fun _ => by rw [reset]; exact isInt_zero, by simp,
      fun _ => ⟨(checkBuffer_inside line).2.2, ?_, ?_, ?_⟩⟩
    · simp
    · simp
    · simp

theorem parseName_laid (laid : Laid node) (parsed : parseName node = .ok next) : Laid next := by
  obtain ⟨-, rfl⟩ | ⟨-, -, start, stop, length, line, -, body, rfl⟩ := parseName_ok parsed
  · exact laid
  · have first := checkBuffer_inside line
    have second := checkBuffer_inside body
    refine ⟨laid.counts, laid.lens, laid.ints, fun natural => (laid.follow natural).moved rfl ?_ ?_⟩
    · dsimp only
      omega
    · simpa using second.2.2

theorem call_all_laid (reset : node.rp = {}) (call : rdsCmdParse node = .ret .dataIsAll next) : Laid next := by
  obtain ⟨counted, named, -, countEq, nameEq, argsEq⟩ := rdsCmdParse_all call
  obtain ⟨command, middle, -, -, read, rfl⟩ := parseArgs_ok argsEq
  have laid := @argOps_keeps Laid (fun _ _ _ => parseLen_laid) (fun _ _ _ => parseMember_laid)
    _ (fun _ _ _ _ => next_laid) named middle (parseName_laid (parseCount_laid reset countEq) nameEq) read
  exact ⟨laid.counts, laid.lens, laid.ints, fun natural => (laid.follow natural).moved rfl le_rfl
    (laid.follow natural).inside⟩

theorem Laid.nonneg_of_inside (laid : Laid node) (fits : node.data.length < 2147483648)
    (inside : ∀ reg, ∀ entry ∈ node.rs.stored reg, entry.1 + toSize entry.2 + 2 ≤ node.data.length)
    {reg : Reg} {entry : Nat × Int} (member : entry ∈ node.rs.stored reg) :
    0 ≤ entry.2 ∧ toSize entry.2 = entry.2.toNat := by
  -- a negative length would be a `size_t` far beyond the buffer
  have bound := inside reg entry member
  obtain ⟨low, high⟩ := laid.ints reg entry member
  simp only [toSize] at bound ⊢
  omega

theorem Laid.validRanges_iff {final : RedisNode} (laid : Laid final) (fits : final.data.length < 2147483648) :
    ValidRanges final ↔ Measured final := by
  constructor
  · intro valid reg entry member
    obtain ⟨natural, same⟩ := laid.nonneg_of_inside fits valid.inside member
    exact ⟨natural, same ▸ valid.closed reg entry member⟩
  · intro measured
    have follow := laid.follow fun reg entry member => (measured reg entry member).1
    have size : ∀ reg, ∀ entry ∈ final.rs.stored reg, toSize entry.2 = entry.2.toNat ∧ 0 ≤ entry.2 := by
      intro reg entry member
      have natural := (measured reg entry member).1
      have past := follow.past reg entry member
      have inside := follow.inside
      exact ⟨toSize_of_nonneg natural (by omega), natural⟩
    refine ⟨laid.counts, fun reg entry member => ?_, fun reg entry member => ?_, fun reg => ?_,
      fun reg other apart entry member later memberLater => ?_⟩
    · have past := follow.past reg entry member
      have inside := follow.inside
      obtain ⟨same, natural⟩ := size reg entry member
      omega
    · rw [(size reg entry member).1]
      exact (measured reg entry member).2
    · refine (follow.increasing reg).imp_of_mem fun {first second} member _ order => ?_
      obtain ⟨same, natural⟩ := size reg first member
      simp only [Before]
      omega
    · obtain ⟨same, natural⟩ := size reg entry member
      obtain ⟨sameLater, naturalLater⟩ := size other later memberLater
      have order := follow.disjoint reg other apart entry member later memberLater
      simp only [Before]
      omega

/-- Behind the line that starts at `start`. -/
def lineEnd (data : List UInt8) (start : Nat) : Nat := start + (findCrlf (data.drop start)).getD 0 + 2

/-- The number on a line, behind its first byte. -/
def announced (data : List UInt8) (line : Nat) : Int := atoi (data.drop (line + 1))

/-- Behind the name of the command, where the lengths of the arguments begin. -/
def argumentLine (data : List UInt8) : Nat :=
  lineEnd data (lineEnd data (lineEnd data 1 + 1) + (announced data (lineEnd data 1)).toNat)

/-- From this line on each announced length is natural, with a line end that many bytes behind its line. -/
def Sized (data : List UInt8) : Nat → Nat → Prop
  | 0, _ => True
  | count + 1, line =>
    0 ≤ announced data line ∧
      CrlfAt data (lineEnd data (line + 1) + (announced data line).toNat) ∧
      Sized data count (lineEnd data (line + 1) + (announced data line).toNat + 2)

def RedisStatus.arguments (status : RedisStatus) : Nat :=
  (status.stored .key).length + (status.stored .val).length + (status.stored .fld).length

theorem checkBuffer_lineEnd {data : List UInt8} {start stop : Nat} (found : checkBuffer data start 0 = .ok (some stop)) :
    stop = lineEnd data start := by
  obtain ⟨-, index, line, rfl⟩ := checkBuffer_found found
  rw [Int.add_zero, Int.toNat_natCast] at line
  simp [lineEnd, line]

theorem checkBuffer_body {data : List UInt8} {start stop length : Nat}
    (found : checkBuffer data start length = .ok (some stop)) : stop = lineEnd data (start + length) := by
  obtain ⟨-, index, line, rfl⟩ := checkBuffer_found found
  rw [← Int.natCast_add, Int.toNat_natCast] at line ⊢
  simp [lineEnd, line]

theorem findCrlf_here {data : List UInt8} {index : Nat} (here : CrlfAt data index) :
    findCrlf (data.drop index) = some 0 := by
  obtain ⟨first, second⟩ := here
  obtain ⟨inside, byte⟩ := List.getElem?_eq_some_iff.mp first
  obtain ⟨more, other⟩ := List.getElem?_eq_some_iff.mp second
  rw [List.drop_eq_getElem_cons inside, List.drop_eq_getElem_cons more, byte, other]
  rfl

/-- The walk over the announced lengths has come as far as the parser, unless a stored length was wrong. -/
def Walked (start : Nat) (node : RedisNode) : Prop :=
  ∀ count, Sized node.data (node.rs.arguments + count) start ↔
    Measured node ∧ Sized node.data count node.rp.doptr

theorem Walked.arg {start : Nat} {reg : Reg} (walked : Walked start node) (unread : node.rp.len reg = 0)
    (unplaced : node.rp.pos reg = 0) (parsed : argOp (.arg reg) node = .ok next) :
    Walked start next ∧ ∀ other ≠ reg, next.rp.len other = node.rp.len other ∧ next.rp.pos other = node.rp.pos other := by
  rw [argOp_arg] at parsed
  obtain ⟨middle, lenEq, memberEq⟩ := Outcome.bind_ok_iff.mp parsed
  obtain ⟨known, -⟩ | ⟨-, -, body, line, rfl⟩ := parseLen_ok lenEq
  · exact absurd unread known
  obtain ⟨known, -⟩ | ⟨-, -, stop, found, rfl⟩ := parseMember_ok memberEq
  · exact absurd unplaced known
  refine ⟨fun count => ?_, fun other apart => ⟨update_of_ne apart .., update_of_ne apart ..⟩⟩
  obtain rfl := checkBuffer_lineEnd line
  simp only [update_self] at found ⊢
  have more : RedisStatus.arguments { node.rs with stored := update node.rs.stored reg (node.rs.stored reg ++
      [(lineEnd node.data (node.rp.doptr + 1), atoi (node.data.drop (node.rp.doptr + 1)))]) } =
      node.rs.arguments + 1 := by
    cases reg <;> simp [RedisStatus.arguments] <;> omega
  have measured : Measured { node with rs := { node.rs with stored := update node.rs.stored reg (node.rs.stored reg ++
      [(lineEnd node.data (node.rp.doptr + 1), atoi (node.data.drop (node.rp.doptr + 1)))]) } } ↔
      Measured node ∧ 0 ≤ announced node.data node.rp.doptr ∧
        CrlfAt node.data (lineEnd node.data (node.rp.doptr + 1) + (announced node.data node.rp.doptr).toNat) := by
    simp only [Measured, announced, mem_append_stored]
    constructor
    · exact fun all => ⟨fun other entry member => all other entry (.inl member), all reg _ (.inr ⟨rfl, rfl⟩)⟩
    · rintro ⟨old, here⟩ other entry (member | ⟨-, rfl⟩)
      · exact old other entry member
      · exact here
  rw [more, Nat.add_assoc, Nat.add_comm 1, walked (count + 1), Sized]
  refine Iff.trans ?_ (and_congr_left' measured.symm)
  rw [and_assoc]
  refine and_congr_right fun _ => ?_
  rw [and_assoc]
  refine and_congr_right fun natural => and_congr_right fun here => ?_
  -- the line end searched for is right where it was announced
  obtain ⟨-, index, line, rfl⟩ := checkBuffer_found found
  rw [announced] at natural here
  have place : ((lineEnd node.data (node.rp.doptr + 1) : Nat) + atoi (node.data.drop (node.rp.doptr + 1)) : Int).toNat =
      lineEnd node.data (node.rp.doptr + 1) + (atoi (node.data.drop (node.rp.doptr + 1))).toNat := by omega
  rw [place, findCrlf_here here] at line
  cases line
  rw [announced, place, Nat.add_zero]

/-- Each argument of a command is read into a register that is empty. -/
def Fresh : List Reg → List ArgOp → Prop
  | _, [] => True
  | used, .arg reg :: ops => reg ∉ used ∧ Fresh (reg :: used) ops
  | used, .next regs :: ops => Fresh (used.filter (· ∉ regs)) ops

theorem args_fresh (kvs : Int) (command : Command) : Fresh [] (command.args kvs) := by
  have pairs (count : Nat) :
      Fresh [] (List.replicate count [ArgOp.arg .key, .arg .val, .next [.key, .val]]).flatten := by
    induction count with
    | zero => trivial
    | succ count ih => exact ⟨by simp, by simp, ih⟩
  have keys (count : Nat) : Fresh [.fld] (List.replicate count [ArgOp.arg .key, .next [.key]]).flatten := by
    induction count with
    | zero => trivial
    | succ count ih => exact ⟨by simp, ih⟩
  cases command with
  | mset => exact pairs _
  | hmget => exact ⟨by simp, keys _⟩
  | _ => simp [Command.args, Fresh]

theorem argOps_walked {start : Nat} {ops : List ArgOp} {used : List Reg} (fresh : Fresh used ops)
    (walked : Walked start node) (unused : ∀ reg, reg ∉ used → node.rp.len reg = 0 ∧ node.rp.pos reg = 0)
    (parsed : argOps ops node = .ok next) : Walked start next := by
  induction ops generalizing node used with
  | nil => exact Except.ok.inj parsed ▸ walked
  | cons op ops ih =>
      rw [argOps_cons] at parsed
      obtain ⟨middle, stepEq, later⟩ := Outcome.bind_ok_iff.mp parsed
      cases op with
      | arg reg =>
          obtain ⟨unread, unplaced⟩ := unused reg fresh.1
          obtain ⟨kept, others⟩ := walked.arg unread unplaced stepEq
          refine ih fresh.2 kept (fun other new => ?_) later
          rw [mem_cons, not_or] at new
          rw [(others other new.1).1, (others other new.1).2]
          exact unused other new.2
      | next regs =>
          obtain rfl := Except.ok.inj stepEq
          refine ih fresh (by exact walked) (by
            intro reg new
            by_cases among : reg ∈ regs
            · simp [among]
            · simpa [among] using unused reg fun member => new (by simp [member, among])) later

theorem sized_congr {data other : List UInt8} {count line : Nat}
    (same : ∀ place, line ≤ place → data.drop place = other.drop place) :
    Sized data count line ↔ Sized other count line := by
  induction count generalizing line with
  | zero => rfl
  | succ count ih =>
      have number : announced data line = announced other line := by rw [announced, announced, same _ (by omega)]
      have behind : lineEnd data (line + 1) = lineEnd other (line + 1) := by
        rw [lineEnd, lineEnd, same _ (by omega)]
      have after : line ≤ lineEnd other (line + 1) := by
        rw [lineEnd]
        omega
      have crlf (place : Nat) (here : line ≤ place) : CrlfAt data place ↔ CrlfAt other place := by
        have byte (index : Nat) (here : line ≤ index) : data[index]? = other[index]? := by
          have first := congrArg (·[0]?) (same index here)
          simpa using first
        rw [CrlfAt, CrlfAt, byte _ here, byte _ (by omega)]
      rw [Sized, Sized, number, behind, crlf _ (by omega), ih fun place here => same place (by omega)]

theorem upperName_drop {data : List UInt8} {start length place : Nat} (behind : start + length ≤ place)
    (inside : start + length ≤ data.length) : (upperName data start length).drop place = data.drop place := by
  have front : (data.take start ++ ((data.drop start).take length).map upperByte).length = start + length := by
    simp
    omega
  rw [upperName, List.drop_append, front, List.drop_of_length_le (by rw [front]; exact behind), nil_append,
    List.drop_drop]
  congr 1
  omega

end Libucmq.Redis
