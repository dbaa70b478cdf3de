import Mathlib.Data.List.Forall2
import Libucmq.Redis.Format

/-! Requests made by `cmd_to_proto` are read back by `rds_cmd_parse`. -/

namespace Libucmq.Redis

open Net List Function Decimal CString

def RedisNode.on (node : RedisNode) (data : List UInt8) : RedisNode := { node with data := data }

@[simp] theorem RedisNode.on_data (node : RedisNode) (data : List UInt8) : (node.on data).data = data := rfl
@[simp] theorem RedisNode.on_rp (node : RedisNode) (data : List UInt8) : (node.on data).rp = node.rp := rfl
@[simp] theorem RedisNode.on_rs (node : RedisNode) (data : List UInt8) : (node.on data).rs = node.rs := rfl

def RedisNode.measured (node : RedisNode) (reg : Reg) (offset : Nat) (length : Int) : RedisNode :=
  { node with rp := { node.rp with len := update node.rp.len reg length, doptr := offset } }

def RedisNode.located (node : RedisNode) (reg : Reg) (stop : Nat) : RedisNode :=
  { node with
    rp := { node.rp with pos := update node.rp.pos reg node.rp.doptr, doptr := stop }
    rs := { node.rs with
      stored := update node.rs.stored reg (node.rs.stored reg ++ [(node.rp.doptr, node.rp.len reg)]) } }

theorem parseMember_located {node : RedisNode} {reg : Reg} {offset stop : Nat} {length : Int} {data : List UInt8}
    (unread : node.rp.pos reg = 0) (room : (node.rs.stored reg).length < maxKvPairs)
    (body : checkBuffer data offset length = .ok (some stop)) :
    parseMember reg ((node.measured reg offset length).on data) =
      .ok (((node.measured reg offset length).located reg stop).on data) := by
  have here : ((node.measured reg offset length).on data).rp.pos reg = 0 := unread
  have found : checkBuffer ((node.measured reg offset length).on data).data
      ((node.measured reg offset length).on data).rp.doptr
      (((node.measured reg offset length).on data).rp.len reg) = .ok (some stop) := by
    simpa [RedisNode.measured] using body
  have fits : ¬ (((node.measured reg offset length).on data).rs.stored reg).length > maxKvPairs - 1 := by
    show ¬ (node.rs.stored reg).length > maxKvPairs - 1
    simp only [maxKvPairs] at room ⊢
    omega
  rw [parseMember, if_neg (not_not.mpr here), found]
  dsimp only
  rw [if_neg fits]
  rfl

theorem atoi_numeral {value : Nat} (small : value < 2147483648) (rest : List UInt8) :
    atoi (numeral value ++ 13 :: rest) = value := by
  have nonempty : numeral value ≠ [] := length_pos_iff.mp (numeral_length_pos value)
  have blank := CString.atoi_blank nonempty (numeral_isDigit value) (show isDigit 13 = false by decide) rest
  have same : atoi (32 :: (numeral value ++ 13 :: rest)) =
      atoi (numeral value ++ 13 :: rest) := by
    rw [atoi, atoi, atoll, atoll, dropWhile_cons_of_pos (by decide)]
  rw [← same, blank, valueFrom_numeral, min_eq_right (by omega)]
  exact Int.bmod_eq_of_le (by omega) (by omega)

theorem checkBuffer_line {data front rest : List UInt8} {x y : Nat} (fits : data.length < 2147483648)
    (here : data.drop (x + y) = front ++ 13 :: 10 :: rest) (searchable : Searchable front) :
    checkBuffer data x y = .ok (some (x + y + front.length + 2)) := by
  have inside : x + y < data.length := by
    have length := congrArg List.length here
    simp only [length_drop, length_append, length_cons] at length
    omega
  have left : (((data.length : Int) - (x + (y : Int))).bmod 4294967296) = data.length - (x + (y : Int)) :=
    Int.bmod_eq_of_le (by omega) (by omega)
  have place : ((x : Int) + (y : Int)).toNat = x + y := by omega
  rw [checkBuffer, left, if_neg (by omega), if_neg (by omega), place, here, findCrlf_line searchable]
  rfl

def argsText : List (List UInt8) → List UInt8
  | [] => []
  | data :: rest => 36 :: (numeral data.length ++ 13 :: 10 :: (data ++ 13 :: 10 :: argsText rest))

theorem membersText_eq (members : List (List UInt8)) : membersText members = 13 :: 10 :: argsText members := by
  induction members with
  | nil => rfl
  | cons data rest ih => simp [membersText, argsText, ih]

def Shown (data : List UInt8) (stored : List (Nat × Int)) (words : List (List UInt8)) : Prop :=
  List.Forall₂ (fun entry word => entry.2 = word.length ∧ (data.drop entry.1).take word.length = word) stored words

structure Reading (node : RedisNode) (rest : List (List UInt8)) (shown : Reg → List (List UInt8)) : Prop where
  fits : node.data.length < 2147483648
  here : node.data.drop node.rp.doptr = argsText rest
  shows : ∀ reg, Shown node.data (node.rs.stored reg) (shown reg)

def Unread (node : RedisNode) (reg : Reg) : Prop := node.rp.len reg = 0 ∧ node.rp.pos reg = 0

theorem header_read {data word rest : List UInt8} {doptr : Nat} (fits : data.length < 2147483648)
    (here : data.drop doptr = 36 :: (numeral word.length ++ 13 :: 10 :: (word ++ 13 :: 10 :: rest))) :
    data.getD doptr 0 = 36 ∧ ∃ start stop, checkBuffer data (doptr + 1) 0 = .ok (some start) ∧
        atoi (data.drop (doptr + 1)) = word.length ∧ checkBuffer data start word.length = .ok (some stop) ∧
        data.drop start = word ++ 13 :: 10 :: rest ∧ data.drop stop = rest := by
  have dollar : data.getD doptr 0 = 36 := by
    have head : (data.drop doptr).getD 0 0 = 36 := by rw [here]; rfl
    simpa [getD_eq_getElem?_getD] using head
  have number : data.drop (doptr + 1) =
      numeral word.length ++ 13 :: 10 :: (word ++ 13 :: 10 :: rest) := by
    rw [← drop_drop, here]
    rfl
  have small : word.length < 2147483648 := by
    have length := congrArg List.length number
    simp only [length_drop, length_append, length_cons] at length
    omega
  have body : data.drop (doptr + 1 + (numeral word.length).length + 2) = word ++ 13 :: 10 :: rest := by
    have behind := @drop_behind data (numeral word.length ++ [13, 10]) (word ++ 13 :: 10 :: rest) (doptr + 1)
      (by simpa using number)
    simpa [Nat.add_assoc] using behind
  have line := @checkBuffer_line data _ _ (doptr + 1) 0 fits number (numeral_searchable _)
  have found := @checkBuffer_line data [] rest _ word.length fits (drop_behind body) (by simp [Searchable])
  refine ⟨dollar, _, _, line, by rw [number, atoi_numeral small], found, body, ?_⟩
  have behind := @drop_behind data (word ++ [13, 10]) rest _ (by simpa using body)
  simpa [Nat.add_assoc] using behind

theorem argOp_read {node : RedisNode} {reg : Reg} {word : List UInt8} {rest : List (List UInt8)}
    {shown : Reg → List (List UInt8)} (reading : Reading node (word :: rest) shown) (unread : Unread node reg)
    (room : (shown reg).length < maxKvPairs) : ∃ next, argOp (.arg reg) node = .ok next ∧
      Reading next rest (update shown reg (shown reg ++ [word])) ∧
      ∀ other, other ≠ reg → next.rp.len other = node.rp.len other ∧ next.rp.pos other = node.rp.pos other := by
  obtain ⟨dollar, start, stop, line, number, body, text, behind⟩ := header_read reading.fits reading.here
  have stored : (node.rs.stored reg).length < maxKvPairs := by rwa [(reading.shows reg).length_eq]
  have measured : parseLen reg node = .ok (node.measured reg start word.length) := by
    rw [parseLen, if_neg (not_not.mpr unread.1), if_neg (not_not.mpr dollar), line]
    simp only [number, RedisNode.measured]
  have located := @parseMember_located _ _ start stop word.length node.data unread.2 stored body
  refine ⟨(node.measured reg start word.length).located reg stop, ?_, ⟨reading.fits, behind, ?_⟩, ?_⟩
  · simp only [argOp, measured]
    exact located
  · intro other
    by_cases same : other = reg
    · subst same
      simp only [RedisNode.located, RedisNode.measured, update_self]
      exact rel_append (reading.shows other) (.cons ⟨rfl, by rw [text, take_left]⟩ .nil)
    · simp only [RedisNode.located, RedisNode.measured, update_of_ne same]
      exact reading.shows other
  · intro other apart
    simp only [RedisNode.located, RedisNode.measured, update_of_ne apart, and_self]

def showing (shown : Reg → List (List UInt8)) : List Reg → List (List UInt8) → Reg → List (List UInt8)
  | reg :: regs, word :: words => showing (update shown reg (shown reg ++ [word])) regs words
  | _, _ => shown

theorem argOps_append (front back : List ArgOp) (node : RedisNode) : argOps (front ++ back) node =
      match argOps front node with
      | .error halt => .error halt
      | .ok next => argOps back next := by
  induction front generalizing node with
  | nil => rfl
  | cons op front ih =>
    simp only [cons_append, argOps]
    cases argOp op node with
    | error halt => rfl
    | ok next => exact ih next

theorem args_read {regs : List Reg} {words rest : List (List UInt8)} {shown : Reg → List (List UInt8)}
    {node : RedisNode} (same : regs.length = words.length) (apart : regs.Nodup)
    (reading : Reading node (words ++ rest) shown) (unread : ∀ reg ∈ regs, Unread node reg)
    (room : ∀ reg ∈ regs, (shown reg).length < maxKvPairs) :
    ∃ next, argOps (regs.map .arg) node = .ok next ∧ Reading next rest (showing shown regs words) := by
  induction regs generalizing words shown node with
  | nil =>
    obtain rfl := length_eq_zero_iff.mp same.symm
    exact ⟨node, rfl, reading⟩
  | cons reg regs ih =>
    obtain ⟨word, words, rfl⟩ := exists_cons_of_length_eq_add_one same.symm
    obtain ⟨outside, apart⟩ := nodup_cons.mp apart
    obtain ⟨middle, first, reading, others⟩ :=
      argOp_read reading (unread reg mem_cons_self) (room reg mem_cons_self)
    have other {later : Reg} (member : later ∈ regs) : later ≠ reg := fun same => outside (same ▸ member)
    obtain ⟨next, parsed, reading⟩ := ih (Nat.succ.inj same) apart reading
      (fun later member => by
        obtain ⟨len, pos⟩ := others later (other member)
        exact ⟨len.trans (unread later (mem_cons_of_mem _ member)).1,
          pos.trans (unread later (mem_cons_of_mem _ member)).2⟩)
      (fun later member => by
        rw [update_of_ne (other member)]
        exact room later (mem_cons_of_mem _ member))
    refine ⟨next, ?_, reading⟩
    simp only [map_cons, argOps, first, parsed]

theorem next_read {node : RedisNode} {rest : List (List UInt8)} {shown : Reg → List (List UInt8)} {regs : List Reg}
    (reading : Reading node rest shown) :
    ∃ next, argOp (.next regs) node = .ok next ∧ Reading next rest shown ∧ ∀ reg ∈ regs, Unread next reg :=
  ⟨_, rfl, ⟨reading.fits, reading.here, reading.shows⟩, fun _ member => ⟨if_pos member, if_pos member⟩⟩

inductive Request
  | set (key value : List UInt8)
  | lpushx (key value : List UInt8)
  | rpushx (key value : List UInt8)
  | hset (key field value : List UInt8)
  | mset (pairs : List (List UInt8 × List UInt8))

namespace Request

def command : Request → Command
  | .set _ _ => .set
  | .lpushx _ _ => .lpushx
  | .rpushx _ _ => .rpushx
  | .hset _ _ _ => .hset
  | .mset _ => .mset

def format : Request → List UInt8
  | .set _ _ => ascii "SET %b %b"
  | .lpushx _ _ => ascii "LPUSHX %b %b"
  | .rpushx _ _ => ascii "RPUSHX %b %b"
  | .hset _ _ _ => ascii "HSET %b %b %b"
  | .mset pairs => ascii "MSET" ++ pairs.flatMap fun _ => ascii " %b %b"

def datas : Request → List (List UInt8)
  | .set key value => [key, value]
  | .lpushx key value => [key, value]
  | .rpushx key value => [key, value]
  | .hset key field value => [key, field, value]
  | .mset pairs => pairs.flatMap fun pair => [pair.1, pair.2]

def parts : Request → Reg → List (List UInt8)
  | .set key _, .key => [key]
  | .set _ value, .val => [value]
  | .lpushx key _, .key => [key]
  | .lpushx _ value, .val => [value]
  | .rpushx key _, .key => [key]
  | .rpushx _ value, .val => [value]
  | .hset key _ _, .key => [key]
  | .hset _ field _, .fld => [field]
  | .hset _ _ value, .val => [value]
  | .mset pairs, .key => pairs.map Prod.fst
  | .mset pairs, .val => pairs.map Prod.snd
  | _, .fld => []

def text (request : Request) : List UInt8 := (Reply.array (request.command.name :: request.datas)).encode

theorem format_eq (request : Request) :
    request.format = request.command.name ++ request.datas.flatMap fun _ => ascii " %b" := by
  cases request with
  | mset pairs =>
    have twice : ascii " %b %b" = ascii " %b" ++ ascii " %b" := by decide
    have flat : (pairs.flatMap fun _ => ascii " %b %b") =
        (pairs.flatMap fun pair => [pair.1, pair.2]).flatMap fun _ => ascii " %b" := by
      rw [flatMap_assoc]
      simp [twice]
    rw [format, flat]
    rfl
  | _ => rfl

end Request

theorem pairs_read {pairs : List (List UInt8 × List UInt8)} {shown : Reg → List (List UInt8)} {node : RedisNode}
    (reading : Reading node (Request.mset pairs).datas shown) (unread : ∀ reg ∈ [Reg.key, .val], Unread node reg)
    (room : ∀ reg ∈ [Reg.key, .val], (shown reg).length + pairs.length ≤ maxKvPairs) :
    ∃ next, argOps (List.replicate pairs.length [.arg .key, .arg .val, .next [.key, .val]]).flatten node = .ok next ∧
      Reading next [] fun reg => shown reg ++ (Request.mset pairs).parts reg := by
  induction pairs generalizing shown node with
  | nil =>
    refine ⟨node, rfl, reading.fits, reading.here, fun reg => ?_⟩
    cases reg <;> simpa [Request.parts] using reading.shows _
  | cons pair pairs ih =>
    have few : ∀ reg ∈ [Reg.key, .val], (shown reg).length < maxKvPairs := by
      intro reg member
      have := room reg member
      rw [length_cons] at this
      omega
    obtain ⟨middle, parsed, reading⟩ :=
      @args_read [.key, .val] [pair.1, pair.2] (Request.mset pairs).datas _ _ rfl (by decide) reading unread few
    obtain ⟨last, forgot, reading, unread⟩ := @next_read _ _ _ [.key, .val] reading
    obtain ⟨next, later, reading⟩ := ih reading unread fun reg member => by
      have := room reg member
      cases reg <;> simp_all [showing] <;> omega
    refine ⟨next, ?_, ?_⟩
    · have turns : (List.replicate (pair :: pairs).length [ArgOp.arg .key, .arg .val, .next [.key, .val]]).flatten =
          [Reg.key, .val].map .arg ++ .next [.key, .val] ::
            (List.replicate pairs.length [ArgOp.arg .key, .arg .val, .next [.key, .val]]).flatten := rfl
      simp only [turns, argOps_append, parsed, argOps, forgot, later]
    · convert reading using 2 with reg
      cases reg <;> simp [showing, Request.parts]

theorem upperName_capital {data : List UInt8} {start length : Nat}
    (capital : ∀ byte ∈ (data.drop start).take length, upperByte byte = byte) : upperName data start length = data := by
  rw [upperName, map_congr_left capital, map_id'', append_assoc, ← drop_drop, take_append_drop,
    take_append_drop]
  exact fun _ => rfl

theorem Command.name_capital (command : Command) : ∀ byte ∈ command.name, upperByte byte = byte := by
  cases command <;> decide +kernel

theorem Command.name_ne_nil (command : Command) : command.name ≠ [] := by
  cases command <;> decide

theorem count_le_args (words : List (List UInt8)) : words.length ≤ (argsText words).length := by
  induction words with
  | nil => exact Nat.zero_le _
  | cons word words ih =>
    simp only [argsText, length_cons, length_append]
    omega

theorem name_read {status : RedisStatus} {command : Command} {datas : List (List UInt8)} (other : command ≠ .lrange)
    (fits : (Reply.array (command.name :: datas)).encode.length < 2147483648) :
    ∃ counted named, parseCount { data := (Reply.array (command.name :: datas)).encode, rs := status } = .ok counted ∧
      parseName counted = .ok named ∧ named.rp.cmd = command.code ∧ named.rp.kvs = (datas.length + 1 : Nat) ∧
      Reading named datas (fun _ => []) ∧ ∀ reg, Unread named reg := by
  have encoded : (Reply.array (command.name :: datas)).encode.drop 1 =
      numeral (datas.length + 1) ++ 13 :: 10 :: argsText (command.name :: datas) := by
    rw [Reply.encode, membersText_eq]
    rfl
  have few : datas.length + 1 < 2147483648 := by
    have count := count_le_args (command.name :: datas)
    have length := congrArg List.length encoded
    simp only [length_drop, length_append, length_cons] at length count
    omega
  generalize (Reply.array (command.name :: datas)).encode = data at *
  obtain ⟨doptr, line, here⟩ : ∃ doptr, checkBuffer data 1 0 = .ok (some doptr) ∧
      data.drop doptr = argsText (command.name :: datas) := by
    refine ⟨_, @checkBuffer_line data _ _ 1 0 fits encoded (numeral_searchable _), ?_⟩
    have behind := @drop_behind data (numeral (datas.length + 1) ++ [13, 10]) (argsText (command.name :: datas)) 1
      (by simpa using encoded)
    simpa [Nat.add_assoc] using behind
  obtain ⟨dollar, start, stop, header, number, body, name, behind⟩ := header_read fits here
  have taken : (data.drop start).take command.name.length = command.name := by rw [name, take_left]
  have same : upperName data start command.name.length = data :=
    upperName_capital (by rw [taken]; exact command.name_capital)
  refine ⟨{ data, rp := { kvs := (datas.length + 1 : Nat), doptr }, rs := {} },
    { data, rp := { kvs := (datas.length + 1 : Nat), cmd := command.code, doptr := stop }, rs := {} }, ?_, ?_, rfl, rfl,
    ⟨fits, behind, fun _ => .nil⟩, fun _ => ⟨rfl, rfl⟩⟩
  · simp only [parseCount, ne_eq, not_true_eq_false, if_false]
    rw [encoded, atoi_numeral few, line]
  · simp only [parseName, ne_eq, not_true_eq_false, if_false, dollar, header, number, body, Int.toNat_natCast, same,
      taken]
    rw [if_neg (by omega), Command.foldName_name other]

theorem Request.args_read (request : Request) {node : RedisNode}
    (counted : node.rp.kvs = (request.datas.length + 1 : Nat)) (reading : Reading node request.datas fun _ => [])
    (unread : ∀ reg, Unread node reg) (few : ∀ reg, (request.parts reg).length ≤ maxKvPairs) :
    ∃ next, argOps (request.command.args node.rp.kvs) node = .ok next ∧ Reading next [] request.parts := by
  -- every branch but the loop of `MSET` reads its arguments once, in the order they are sent
  have once {regs : List Reg} (ops : request.command.args node.rp.kvs = regs.map .arg)
      (same : regs.length = request.datas.length) (apart : regs.Nodup)
      (parts : ∀ reg, showing (fun _ => []) regs request.datas reg = request.parts reg) :
      ∃ next, argOps (request.command.args node.rp.kvs) node = .ok next ∧ Reading next [] request.parts := by
    obtain ⟨next, read, reading⟩ := @Redis.args_read regs request.datas [] _ _ same apart (by simpa using reading)
      (fun reg _ => unread reg) (fun _ _ => by simp [maxKvPairs])
    rw [funext parts] at reading
    exact ⟨next, ops ▸ read, reading⟩
  cases request with
  | mset pairs =>
    have turns : ((node.rp.kvs - 1).tdiv 2).toNat = pairs.length := by
      have twice : (Request.mset pairs).datas.length = pairs.length * 2 := by
        simp [Request.datas, length_flatMap]
      rw [counted, twice, Int.tdiv_eq_ediv_of_nonneg (by omega)]
      omega
    obtain ⟨next, read, reading⟩ := pairs_read reading (fun reg _ => unread reg) fun reg _ => by
      simpa [Request.parts] using few .key
    refine ⟨next, ?_, by simpa using reading⟩
    simp only [Request.command, Command.args, turns]
    exact read
  | hset key field value =>
    refine @once [.key, .fld, .val] rfl rfl (by decide) fun reg => ?_
    cases reg <;> simp [showing, Request.datas, Request.parts]
  | _ key value =>
    refine @once [.key, .val] rfl rfl (by decide) fun reg => ?_
    cases reg <;> simp [showing, Request.datas, Request.parts]

theorem Request.parsed (request : Request) (status : RedisStatus) (few : ∀ reg, (request.parts reg).length ≤ maxKvPairs)
    (fits : request.text.length < 2147483648) :
    ∃ node, rdsCmdParse { data := request.text, rs := status } = .ret .dataIsAll node ∧
      ∀ reg, Shown node.data (node.rs.stored reg) (request.parts reg) := by
  have other : request.command ≠ .lrange := by cases request <;> simp [Request.command]
  obtain ⟨counted, named, countEq, nameEq, cmd, kvs, reading, unread⟩ := @name_read status _ _ other fits
  obtain ⟨next, read, reading⟩ := request.args_read kvs reading unread few
  have switched : commandOf named.rp.cmd = some request.command := by rw [cmd, commandOf_code]
  have quits : request.command ≠ .quit := by cases request <;> simp [Request.command]
  have first : request.text.headD 0 = 42 := rfl
  refine ⟨{ next with rs := { next.rs with order := request.command.order.getD next.rs.order } }, ?_, reading.shows⟩
  rw [rdsCmdParse, if_pos first, parseRequest, Request.text, countEq]
  simp only [nameEq, parseArgs_branch switched quits, read]

/-- An encoded request is parsed with the ranges of its arguments. -/
theorem request_round_trip {grants : Nat → Bool} (plenty : ∀ size, grants size = true)
    (vsnprintf : List UInt8 → List VarArg → List UInt8) (status : RedisStatus) (request : Request)
    (few : ∀ reg, (request.parts reg).length ≤ maxKvPairs) (small : request.text.length ≤ maxReqSize) :
    ∃ proto cache node, cmdToProto grants vsnprintf request.format (bytesArgs request.datas) = .ok proto ∧
      netRecv true {} proto = (.doneOk, cache) ∧
      rdsCmdParse { data := cache.data, rs := status } = .ret .dataIsAll node ∧
      ∀ reg, Shown node.data (node.rs.stored reg) (request.parts reg) := by
  have fits : request.text.length < 2147483648 := lt_of_le_of_lt small (by decide)
  have letters : ∀ byte ∈ request.command.name, byte ≠ 32 ∧ byte ≠ 37 := by
    intro byte member
    obtain ⟨low, -⟩ := request.command.name_letters byte member
    constructor <;> rintro rfl <;> exact absurd low (by decide)
  have encoded : cmdToProto grants vsnprintf request.format (bytesArgs request.datas) = .ok request.text := by
    rw [request.format_eq]
    exact cmdToProto_bytes plenty request.command.name_ne_nil letters fits
  obtain ⟨cache, put, same⟩ : ∃ cache, netRecv true {} request.text = (.doneOk, cache) ∧ cache.data = request.text := by
    rw [netRecv, if_neg (by simpa [NetCache.getSize] using small), cacheAdd]
    split <;> exact ⟨_, rfl, rfl⟩
  obtain ⟨node, parsed, shows⟩ := request.parsed status few fits
  exact ⟨request.text, cache, node, encoded, put, by rw [same, parsed], shows⟩

theorem request_round_trip_mset :
    let request : Request := .mset [(ascii "a\r\n$1", [0]), ([], ascii "$")]
    ∃ proto cache node, cmdToProto (fun _ => true) (fun _ _ => []) request.format (bytesArgs request.datas) =
      .ok proto ∧
      netRecv true {} proto = (.doneOk, cache) ∧
      rdsCmdParse { data := cache.data, rs := {} } = .ret .dataIsAll node ∧
      ∀ reg, Shown node.data (node.rs.stored reg) (request.parts reg) :=
  request_round_trip (fun _ => rfl) _ _ _ (by intro reg; cases reg <;> decide) (by decide +kernel)

end Libucmq.Redis
