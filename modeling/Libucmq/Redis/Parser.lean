import Libucmq.Library.CString
import Libucmq.Library.Outcome
import Libucmq.Net.Cache

/-! The request parser of `redis_parser.c`, called whenever bytes have arrived. -/

namespace Libucmq.Redis

open Net Function CString

variable {place : Place} {node next : RedisNode} {reg : Reg}

def maxKvPairs : Nat := 30

inductive Reg
  | key | val | fld
deriving DecidableEq, Repr

/-- `len` is `klen`, `vlen`, `flen`, `pos` is `key`, `val`, `fld`; lengths as `int`. -/
structure RedisParser where
  kvs : Int := 0
  cmd : Int := 0
  len : Reg → Int := fun _ => 0
  doptr : Nat := 0
  pos : Reg → Nat := fun _ => 0

structure RedisStatus where
  stored : Reg → List (Nat × Int) := fun _ => []
  order : Nat := 0

/-- The received bytes, with a zero behind them, and what calls keep. -/
structure RedisNode where
  data : List UInt8
  rp : RedisParser := {}
  rs : RedisStatus := {}

inductive Place
  | count | name | len (reg : Reg) | member (reg : Reg)
deriving DecidableEq, Repr

inductive Halt
  | fault
  | more (place : Place) (node : RedisNode)
  | ret (code : Control) (node : RedisNode)

def signed (byte : UInt8) : Int := if byte.toNat < 128 then byte.toNat else byte.toNat - 256

def findCrlf : List UInt8 → Option Nat
  | [] => none
  | byte :: rest =>
    if byte = 0 then none
    else if byte = 13 ∧ rest.headD 0 = 10 then some 0
    else (findCrlf rest).map (· + 1)

/-- `CHECK_BUFFER`: behind the next line end from `x + y` on, if received. -/
def checkBuffer (data : List UInt8) (x : Nat) (y : Int) : Except Fault (Option Nat) :=
  if ((data.length : Int) - (x + y)).bmod 4294967296 ≤ 0 then .ok none
  else if x + y < 0 then .error .overread
  else .ok ((findCrlf (data.drop (x + y).toNat)).map ((x + y).toNat + · + 2))

def upperByte (byte : UInt8) : UInt8 := if signed byte > 90 then byte - 32 else byte

def foldName (cmd : Int) (name : List UInt8) : Int :=
  name.foldl (fun cmd byte => (cmd * 26 + (signed (upperByte byte) - 65)).bmod 4294967296) cmd

def upperName (data : List UInt8) (start length : Nat) : List UInt8 :=
  data.take start ++ ((data.drop start).take length).map upperByte ++ data.drop (start + length)

def parseCount (node : RedisNode) : Except Halt RedisNode :=
  if node.rp.kvs ≠ 0 then .ok node
  else
    match checkBuffer node.data 1 0 with
    | .error _ => .error .fault
    | .ok none => .error (.more .count node)
    | .ok (some next) =>
      .ok { node with rp := { node.rp with kvs := atoi (node.data.drop 1), doptr := next }, rs := {} }

def parseName (node : RedisNode) : Except Halt RedisNode :=
  if node.rp.cmd ≠ 0 then .ok node
  else if node.data.getD node.rp.doptr 0 ≠ 36 then .error (.ret .parseError node)
  else
    match checkBuffer node.data (node.rp.doptr + 1) 0 with
    | .error _ => .error .fault
    | .ok none => .error (.more .name node)
    | .ok (some start) =>
      let mlen := atoi (node.data.drop (node.rp.doptr + 1))
      match checkBuffer node.data start mlen with
      | .error _ => .error .fault
      | .ok none => .error (.more .name node)
      | .ok (some next) =>
        if mlen < 0 then .error .fault
        else
          .ok { node with
            data := upperName node.data start mlen.toNat
            rp := { node.rp with
              cmd := foldName node.rp.cmd ((node.data.drop start).take mlen.toNat), doptr := next } }

def parseLen (reg : Reg) (node : RedisNode) : Except Halt RedisNode :=
  if node.rp.len reg ≠ 0 then .ok node
  else if node.data.getD node.rp.doptr 0 ≠ 36 then .error (.ret .parseError node)
  else
    match checkBuffer node.data (node.rp.doptr + 1) 0 with
    | .error _ => .error .fault
    | .ok none => .error (.more (.len reg) node)
    | .ok (some next) =>
      let length := atoi (node.data.drop (node.rp.doptr + 1))
      .ok { node with rp := { node.rp with len := update node.rp.len reg length, doptr := next } }

def parseMember (reg : Reg) (node : RedisNode) : Except Halt RedisNode :=
  if node.rp.pos reg ≠ 0 then .ok node
  else
    match checkBuffer node.data node.rp.doptr (node.rp.len reg) with
    | .error _ => .error .fault
    | .ok none => .error (.more (.member reg) node)
    | .ok (some next) =>
      let entry := (node.rp.doptr, node.rp.len reg)
      let node := { node with
        rp := { node.rp with pos := update node.rp.pos reg node.rp.doptr, doptr := next } }
      if (node.rs.stored reg).length > maxKvPairs - 1 then .error (.ret .kvTooMuch node)
      else
        .ok { node with
          rs := { node.rs with stored := update node.rs.stored reg (node.rs.stored reg ++ [entry]) } }

/-- An argument, or the end of a turn, which forgets those read in it. -/
inductive ArgOp
  | arg (reg : Reg)
  | next (regs : List Reg)
deriving DecidableEq, Repr

def argOp : ArgOp → RedisNode → Except Halt RedisNode
  | .arg reg, node =>
    match parseLen reg node with
    | .error halt => .error halt
    | .ok node => parseMember reg node
  | .next regs, node =>
    .ok { node with
      rp := { node.rp with
        kvs := node.rp.kvs - regs.length
        len := fun reg => if reg ∈ regs then 0 else node.rp.len reg
        pos := fun reg => if reg ∈ regs then 0 else node.rp.pos reg } }

def argOps : List ArgOp → RedisNode → Except Halt RedisNode
  | [], node => .ok node
  | op :: rest, node =>
    match argOp op node with
    | .error halt => .error halt
    | .ok node => argOps rest node

inductive Command
  | set | del | mset | hset | lpushx | rpushx | get | hmget | hgetall | lrange | quit
deriving DecidableEq, Repr

def Command.code : Command → Int
  | .set => 12291
  | .del => 2143
  | .mset => 223203
  | .hset => 135323
  | .lpushx => 137913669
  | .rpushx => 209201925
  | .get => 4179
  | .hmget => 3413923
  | .hgetall => 0x85448761 - 4294967296
  | .lrange => 5325872
  | .quit => 294963

def commands : List Command :=
  [.set, .lpushx, .rpushx, .del, .mset, .hset, .get, .hmget, .hgetall, .lrange, .quit]

def commandOf (cmd : Int) : Option Command := commands.find? fun command => command.code = cmd

def Command.args (kvs : Int) : Command → List ArgOp
  | .set => [.arg .key, .arg .val]
  | .lpushx => [.arg .key, .arg .val]
  | .rpushx => [.arg .key, .arg .val]
  | .del => [.arg .key]
  | .mset => (List.replicate ((kvs - 1).tdiv 2).toNat [.arg .key, .arg .val, .next [.key, .val]]).flatten
  | .hset => [.arg .key, .arg .fld, .arg .val]
  | .get => [.arg .key]
  | .hmget => .arg .fld :: (List.replicate (kvs - 2).toNat [.arg .key, .next [.key]]).flatten
  | .hgetall => [.arg .key]
  | .lrange => [.arg .key, .arg .val]
  | .quit => []

def Command.order : Command → Option Nat
  | .set => some 0
  | .hmget => some 1
  | .hset => some 2
  | .rpushx => some 3
  | .lpushx => some 4
  | .hgetall => some 5
  | _ => none

def parseArgs (node : RedisNode) : Except Halt RedisNode :=
  match commandOf node.rp.cmd with
  | none => .error (.ret .requestError node)
  | some .quit => .error (.ret .requestQuit node)
  | some command =>
    match argOps (command.args node.rp.kvs) node with
    | .error halt => .error halt
    | .ok node => .ok { node with rs := { node.rs with order := command.order.getD node.rs.order } }

def parseRequest (node : RedisNode) : Except Halt RedisNode :=
  match parseCount node with
  | .error halt => .error halt
  | .ok node =>
    match parseName node with
    | .error halt => .error halt
    | .ok node => parseArgs node

def rdsCmdParse (node : RedisNode) : Halt :=
  if node.data.headD 0 = 42 then
    match parseRequest node with
    | .error halt => halt
    | .ok node => .ret .dataIsAll node
  else if node.data.headD 0 = 36 then .ret .requestError node
  else .ret .parseError node

/-- Each call appends a fragment and parses, while more is asked for. -/
def received (node : RedisNode) : List (List UInt8) → List Halt
  | [] => []
  | fragment :: rest =>
    match rdsCmdParse { node with data := node.data ++ fragment } with
    | .fault => [.fault]
    | .ret code next => [.ret code next]
    | .more place next => .more place next :: received next rest

open Outcome

def wantedRead (halt : Halt) : Except Fault (Option Nat) → Except Halt Nat
  | .error _ => .error .fault
  | .ok none => .error halt
  | .ok (some next) => .ok next

variable {found : Except Fault (Option Nat)}

theorem wantedRead_ok_iff {halt : Halt} {next : Nat} :
    wantedRead halt found = .ok next ↔ found = .ok (some next) := by
  rcases found with fault | _ | other <;> simp [wantedRead]

theorem wantedRead_more_iff {other : Place} :
    wantedRead (.more place node) found = .error (.more other next) ↔
      found = .ok none ∧ other = place ∧ next = node := by
  rcases found with fault | _ | stop <;> simp [wantedRead, eq_comm]

theorem wantedRead_ne_ret {code : Control} : wantedRead (.more place node) found ≠ .error (.ret code next) := by
  rcases found with fault | _ | stop <;> simp [wantedRead]

theorem parseCount_eq (node : RedisNode) : parseCount node =
      if node.rp.kvs ≠ 0 then .ok node
      else wantedRead (.more .count node) (checkBuffer node.data 1 0) >>= fun next =>
        .ok { node with rp := { node.rp with kvs := atoi (node.data.drop 1), doptr := next }, rs := {} } := by
  rw [parseCount]
  rcases checkBuffer node.data 1 0 with fault | _ | next <;> rfl

theorem parseName_eq (node : RedisNode) : parseName node =
      if node.rp.cmd ≠ 0 then .ok node
      else if node.data.getD node.rp.doptr 0 ≠ 36 then .error (.ret .parseError node)
      else wantedRead (.more .name node) (checkBuffer node.data (node.rp.doptr + 1) 0) >>= fun start =>
        wantedRead (.more .name node)
          (checkBuffer node.data start (atoi (node.data.drop (node.rp.doptr + 1)))) >>= fun next =>
        if atoi (node.data.drop (node.rp.doptr + 1)) < 0 then .error .fault
        else .ok { node with
          data := upperName node.data start (atoi (node.data.drop (node.rp.doptr + 1))).toNat
          rp := { node.rp with
            cmd := foldName node.rp.cmd
              ((node.data.drop start).take (atoi (node.data.drop (node.rp.doptr + 1))).toNat)
            doptr := next } } := by
  rw [parseName]
  rcases checkBuffer node.data (node.rp.doptr + 1) 0 with fault | _ | start
  · rfl
  · rfl
  · dsimp only
    rcases second : checkBuffer node.data start (atoi (node.data.drop (node.rp.doptr + 1))) with
      fault | _ | next <;> simp only [wantedRead, bind, Except.bind, second]

theorem parseLen_eq (reg : Reg) (node : RedisNode) : parseLen reg node =
      if node.rp.len reg ≠ 0 then .ok node
      else if node.data.getD node.rp.doptr 0 ≠ 36 then .error (.ret .parseError node)
      else wantedRead (.more (.len reg) node) (checkBuffer node.data (node.rp.doptr + 1) 0) >>= fun next =>
        .ok { node with
          rp := { node.rp with
            len := update node.rp.len reg (atoi (node.data.drop (node.rp.doptr + 1)))
            doptr := next } } := by
  rw [parseLen]
  rcases checkBuffer node.data (node.rp.doptr + 1) 0 with fault | _ | next <;> rfl

theorem parseMember_eq (reg : Reg) (node : RedisNode) : parseMember reg node =
      if node.rp.pos reg ≠ 0 then .ok node
      else wantedRead (.more (.member reg) node) (checkBuffer node.data node.rp.doptr (node.rp.len reg)) >>= fun next =>
        if (node.rs.stored reg).length > maxKvPairs - 1 then
          .error (.ret .kvTooMuch { node with
            rp := { node.rp with pos := update node.rp.pos reg node.rp.doptr, doptr := next } })
        else .ok { node with
          rp := { node.rp with pos := update node.rp.pos reg node.rp.doptr, doptr := next }
          rs := { node.rs with
            stored := update node.rs.stored reg
              (node.rs.stored reg ++ [(node.rp.doptr, node.rp.len reg)]) } } := by
  rw [parseMember]
  rcases checkBuffer node.data node.rp.doptr (node.rp.len reg) with fault | _ | next <;> rfl

theorem argOp_arg (reg : Reg) (node : RedisNode) : argOp (.arg reg) node = parseLen reg node >>= parseMember reg := by
  rw [argOp]
  cases parseLen reg node <;> rfl

theorem argOps_cons (op : ArgOp) (rest : List ArgOp) (node : RedisNode) :
    argOps (op :: rest) node = argOp op node >>= argOps rest := by
  rw [argOps]
  cases argOp op node <;> rfl

theorem argOps_arg_error {rest : List ArgOp} {halt : Halt} (stopped : argOps (.arg reg :: rest) node = .error halt) :
    parseLen reg node = .error halt ∨ ∃ measured, parseLen reg node = .ok measured ∧
        (parseMember reg measured = .error halt ∨
          ∃ stored, parseMember reg measured = .ok stored ∧ argOps rest stored = .error halt) := by
  rw [argOps_cons, argOp_arg] at stopped
  obtain read | ⟨stored, read, later⟩ := bind_error_iff.mp stopped
  · obtain length | ⟨measured, length, member⟩ := bind_error_iff.mp read
    · exact .inl length
    · exact .inr ⟨measured, length, .inl member⟩
  · obtain ⟨measured, length, member⟩ := bind_ok_iff.mp read
    exact .inr ⟨measured, length, .inr ⟨stored, member, later⟩⟩

theorem parseRequest_eq (node : RedisNode) :
    parseRequest node = parseCount node >>= fun counted => parseName counted >>= parseArgs := by
  rw [parseRequest]
  cases parseCount node with
  | error halt => rfl
  | ok counted =>
    simp only [bind, Except.bind]
    cases parseName counted <;> rfl

theorem parseCount_ok (parsed : parseCount node = .ok next) : (node.rp.kvs ≠ 0 ∧ next = node) ∨
      (node.rp.kvs = 0 ∧ ∃ stop, checkBuffer node.data 1 0 = .ok (some stop) ∧
        next = { node with
          rp := { node.rp with kvs := atoi (node.data.drop 1), doptr := stop }, rs := {} }) := by
  rw [parseCount_eq] at parsed
  split_ifs at parsed with counted
  · exact .inl ⟨counted, (Except.ok.inj parsed).symm⟩
  · obtain ⟨stop, line, read⟩ := bind_ok_iff.mp parsed
    exact .inr ⟨not_not.mp counted, stop, wantedRead_ok_iff.mp line, (Except.ok.inj read).symm⟩

theorem parseName_ok (parsed : parseName node = .ok next) : (node.rp.cmd ≠ 0 ∧ next = node) ∨
      (node.rp.cmd = 0 ∧ node.data.getD node.rp.doptr 0 = 36 ∧
        ∃ start stop length, checkBuffer node.data (node.rp.doptr + 1) 0 = .ok (some start) ∧
          atoi (node.data.drop (node.rp.doptr + 1)) = (length : Nat) ∧
          checkBuffer node.data start length = .ok (some stop) ∧
          next = { node with
            data := upperName node.data start length
            rp := { node.rp with
              cmd := foldName node.rp.cmd ((node.data.drop start).take length), doptr := stop } }) := by
  rw [parseName_eq] at parsed
  split_ifs at parsed with named dollar negative
  · exact .inl ⟨named, (Except.ok.inj parsed).symm⟩
  · obtain ⟨start, -, later⟩ := bind_ok_iff.mp parsed
    obtain ⟨stop, -, read⟩ := bind_ok_iff.mp later
    cases read
  · obtain ⟨start, line, later⟩ := bind_ok_iff.mp parsed
    obtain ⟨stop, body, read⟩ := bind_ok_iff.mp later
    have length := Int.toNat_of_nonneg (not_lt.mp negative)
    refine .inr ⟨not_not.mp named, not_not.mp dollar, start, stop, _, wantedRead_ok_iff.mp line, length.symm, ?_,
      (Except.ok.inj read).symm⟩
    rw [length]
    exact wantedRead_ok_iff.mp body

theorem parseLen_ok (parsed : parseLen reg node = .ok next) : (node.rp.len reg ≠ 0 ∧ next = node) ∨
      (node.rp.len reg = 0 ∧ node.data.getD node.rp.doptr 0 = 36 ∧
        ∃ stop, checkBuffer node.data (node.rp.doptr + 1) 0 = .ok (some stop) ∧
          next = { node with
            rp := { node.rp with
              len := update node.rp.len reg (atoi (node.data.drop (node.rp.doptr + 1)))
              doptr := stop } }) := by
  rw [parseLen_eq] at parsed
  split_ifs at parsed with measured dollar
  · exact .inl ⟨measured, (Except.ok.inj parsed).symm⟩
  · obtain ⟨stop, line, read⟩ := bind_ok_iff.mp parsed
    exact .inr ⟨not_not.mp measured, not_not.mp dollar, stop, wantedRead_ok_iff.mp line, (Except.ok.inj read).symm⟩

theorem parseMember_ok (parsed : parseMember reg node = .ok next) : (node.rp.pos reg ≠ 0 ∧ next = node) ∨
      (node.rp.pos reg = 0 ∧ (node.rs.stored reg).length < maxKvPairs ∧
        ∃ stop, checkBuffer node.data node.rp.doptr (node.rp.len reg) = .ok (some stop) ∧
          next = { node with
            rp := { node.rp with pos := update node.rp.pos reg node.rp.doptr, doptr := stop }
            rs := { node.rs with
              stored := update node.rs.stored reg
                (node.rs.stored reg ++ [(node.rp.doptr, node.rp.len reg)]) } }) := by
  rw [parseMember_eq] at parsed
  split_ifs at parsed with located full
  · exact .inl ⟨located, (Except.ok.inj parsed).symm⟩
  · obtain ⟨stop, -, read⟩ := bind_ok_iff.mp parsed
    cases read
  · obtain ⟨stop, body, read⟩ := bind_ok_iff.mp parsed
    refine .inr ⟨not_not.mp located, ?_, stop, wantedRead_ok_iff.mp body, (Except.ok.inj read).symm⟩
    simp only [maxKvPairs] at full ⊢
    omega

theorem argOps_keeps {holds : RedisNode → Prop}
    (len : ∀ reg node next, holds node → parseLen reg node = .ok next → holds next)
    (member : ∀ reg node next, holds node → parseMember reg node = .ok next → holds next) {ops : List ArgOp}
    (turn : ∀ regs node next, .next regs ∈ ops → holds node → argOp (.next regs) node = .ok next → holds next)
    {node next : RedisNode} (initial : holds node) (parsed : argOps ops node = .ok next) : holds next := by
  induction ops generalizing node with
  | nil => exact Except.ok.inj parsed ▸ initial
  | cons op rest ih =>
    rw [argOps_cons] at parsed
    obtain ⟨middle, stepEq, later⟩ := bind_ok_iff.mp parsed
    refine ih (fun regs before after listed => turn regs before after (List.mem_cons_of_mem _ listed)) ?_ later
    cases op with
    | next regs => exact turn regs node middle List.mem_cons_self initial stepEq
    | arg reg =>
      rw [argOp_arg] at stepEq
      obtain ⟨measured, lenEq, memberEq⟩ := bind_ok_iff.mp stepEq
      exact member reg measured middle (len reg node measured initial lenEq) memberEq

theorem parseArgs_branch {command : Command} (chosen : commandOf node.rp.cmd = some command)
    (stays : command ≠ .quit) :
    parseArgs node = match argOps (command.args node.rp.kvs) node with
      | .error halt => .error halt
      | .ok node => .ok { node with rs := { node.rs with order := command.order.getD node.rs.order } } := by
  unfold parseArgs
  rw [chosen]
  cases command with
  | quit => exact absurd rfl stays
  | _ => rfl

theorem parseArgs_ok (parsed : parseArgs node = .ok next) :
    ∃ command middle, commandOf node.rp.cmd = some command ∧ command ≠ .quit ∧
      argOps (command.args node.rp.kvs) node = .ok middle ∧
      next = { middle with rs := { middle.rs with order := command.order.getD middle.rs.order } } := by
  cases chosen : commandOf node.rp.cmd with
  | none => simp [parseArgs, chosen] at parsed
  | some command =>
    by_cases quits : command = .quit
    · subst quits
      simp [parseArgs, chosen] at parsed
    · rw [parseArgs_branch chosen quits] at parsed
      cases read : argOps (command.args node.rp.kvs) node with
      | error halt => simp [read] at parsed
      | ok middle =>
        simp only [read, Except.ok.injEq] at parsed
        exact ⟨command, middle, rfl, quits, read, parsed.symm⟩

theorem parseCount_more (stopped : parseCount node = .error (.more place next)) :
    place = .count ∧ next = node ∧ node.rp.kvs = 0 := by
  rw [parseCount_eq] at stopped
  split_ifs at stopped with counted
  obtain line | ⟨stop, -, read⟩ := bind_error_iff.mp stopped
  · obtain ⟨-, rfl, rfl⟩ := wantedRead_more_iff.mp line
    exact ⟨rfl, rfl, not_not.mp counted⟩
  · cases read

theorem parseName_more (stopped : parseName node = .error (.more place next)) :
    place = .name ∧ next = node ∧ node.rp.cmd = 0 ∧ node.data.getD node.rp.doptr 0 = 36 := by
  rw [parseName_eq] at stopped
  by_cases named : node.rp.cmd ≠ 0
  · rw [if_pos named] at stopped
    cases stopped
  by_cases dollar : node.data.getD node.rp.doptr 0 ≠ 36
  · rw [if_neg named, if_pos dollar] at stopped
    cases stopped
  rw [if_neg named, if_neg dollar] at stopped
  obtain line | ⟨start, -, later⟩ := bind_error_iff.mp stopped
  · obtain ⟨-, rfl, rfl⟩ := wantedRead_more_iff.mp line
    exact ⟨rfl, rfl, not_not.mp named, not_not.mp dollar⟩
  obtain body | ⟨stop, -, read⟩ := bind_error_iff.mp later
  · obtain ⟨-, rfl, rfl⟩ := wantedRead_more_iff.mp body
    exact ⟨rfl, rfl, not_not.mp named, not_not.mp dollar⟩
  · split_ifs at read
    cases read

theorem parseLen_more (stopped : parseLen reg node = .error (.more place next)) :
    place = .len reg ∧ next = node ∧ node.rp.len reg = 0 ∧ node.data.getD node.rp.doptr 0 = 36 ∧
      checkBuffer node.data (node.rp.doptr + 1) 0 = .ok none := by
  rw [parseLen_eq] at stopped
  split_ifs at stopped with measured dollar
  · cases stopped
  obtain line | ⟨stop, -, read⟩ := bind_error_iff.mp stopped
  · obtain ⟨absent, rfl, rfl⟩ := wantedRead_more_iff.mp line
    exact ⟨rfl, rfl, not_not.mp measured, not_not.mp dollar, absent⟩
  · cases read

theorem parseMember_more (stopped : parseMember reg node = .error (.more place next)) :
    place = .member reg ∧ next = node ∧ node.rp.pos reg = 0 ∧
      checkBuffer node.data node.rp.doptr (node.rp.len reg) = .ok none := by
  rw [parseMember_eq] at stopped
  by_cases located : node.rp.pos reg ≠ 0
  · rw [if_pos located] at stopped
    cases stopped
  rw [if_neg located] at stopped
  obtain body | ⟨stop, -, read⟩ := bind_error_iff.mp stopped
  · obtain ⟨absent, rfl, rfl⟩ := wantedRead_more_iff.mp body
    exact ⟨rfl, rfl, not_not.mp located, absent⟩
  · split_ifs at read
    cases read

theorem argOps_more_keeps {holds : RedisNode → Prop}
    (len : ∀ reg node next, holds node → parseLen reg node = .ok next → holds next)
    (member : ∀ reg node next, holds node → parseMember reg node = .ok next → holds next) {ops : List ArgOp}
    (turn : ∀ regs node next, .next regs ∈ ops → holds node → argOp (.next regs) node = .ok next → holds next)
    {node next : RedisNode} {place : Place} (initial : holds node)
    (stopped : argOps ops node = .error (.more place next)) : holds next := by
  induction ops generalizing node with
  | nil => simp [argOps] at stopped
  | cons op rest ih =>
    have later := @ih fun regs before after listed => turn regs before after (List.mem_cons_of_mem _ listed)
    cases op with
    | next regs => exact later (turn regs node _ List.mem_cons_self initial rfl) stopped
    | arg reg =>
      obtain lenEq | ⟨measured, lenEq, memberEq | ⟨stored, memberEq, goesOn⟩⟩ := argOps_arg_error stopped
      · obtain ⟨-, rfl, -⟩ := parseLen_more lenEq
        exact initial
      · obtain ⟨-, rfl, -⟩ := parseMember_more memberEq
        exact len reg node _ initial lenEq
      · exact later (member reg measured stored (len reg node measured initial lenEq) memberEq) goesOn

theorem parseCount_not_all : parseCount node ≠ .error (.ret .dataIsAll next) := by
  intro stopped
  rw [parseCount_eq] at stopped
  split_ifs at stopped
  obtain line | ⟨stop, -, read⟩ := bind_error_iff.mp stopped
  · exact wantedRead_ne_ret line
  · cases read

theorem parseName_not_all : parseName node ≠ .error (.ret .dataIsAll next) := by
  intro stopped
  rw [parseName_eq] at stopped
  split_ifs at stopped
  · cases stopped
  all_goals
    obtain line | ⟨start, -, later⟩ := bind_error_iff.mp stopped
    · exact wantedRead_ne_ret line
    obtain body | ⟨stop, -, read⟩ := bind_error_iff.mp later
    · exact wantedRead_ne_ret body
    · cases read

theorem parseLen_not_all : parseLen reg node ≠ .error (.ret .dataIsAll next) := by
  intro stopped
  rw [parseLen_eq] at stopped
  split_ifs at stopped
  · cases stopped
  obtain line | ⟨stop, -, read⟩ := bind_error_iff.mp stopped
  · exact wantedRead_ne_ret line
  · cases read

theorem parseMember_not_all : parseMember reg node ≠ .error (.ret .dataIsAll next) := by
  intro stopped
  rw [parseMember_eq] at stopped
  split_ifs at stopped
  all_goals
    obtain line | ⟨stop, -, read⟩ := bind_error_iff.mp stopped
    · exact wantedRead_ne_ret line
    · cases read

theorem argOps_not_all {ops : List ArgOp} : argOps ops node ≠ .error (.ret .dataIsAll next) := by
  induction ops generalizing node with
  | nil => simp [argOps]
  | cons op rest ih =>
    intro stopped
    cases op with
    | next regs => exact ih stopped
    | arg reg =>
      obtain lenEq | ⟨measured, -, memberEq | ⟨stored, -, goesOn⟩⟩ := argOps_arg_error stopped
      · exact parseLen_not_all lenEq
      · exact parseMember_not_all memberEq
      · exact ih goesOn

theorem parseArgs_error {halt : Halt} (stopped : parseArgs node = .error halt) :
    (∃ command, commandOf node.rp.cmd = some command ∧ command ≠ .quit ∧
      argOps (command.args node.rp.kvs) node = .error halt) ∨
      halt = .ret .requestError node ∨ halt = .ret .requestQuit node := by
  cases chosen : commandOf node.rp.cmd with
  | none =>
    simp only [parseArgs, chosen, Except.error.injEq] at stopped
    exact .inr (.inl stopped.symm)
  | some command =>
    by_cases quits : command = .quit
    · subst quits
      simp only [parseArgs, chosen, Except.error.injEq] at stopped
      exact .inr (.inr stopped.symm)
    · rw [parseArgs_branch chosen quits] at stopped
      cases read : argOps (command.args node.rp.kvs) node with
      | ok middle => simp [read] at stopped
      | error other =>
        simp only [read, Except.error.injEq] at stopped
        exact .inl ⟨command, rfl, quits, stopped ▸ read⟩

theorem parseRequest_not_all : parseRequest node ≠ .error (.ret .dataIsAll next) := by
  intro stopped
  rw [parseRequest_eq] at stopped
  obtain count | ⟨counted, -, later⟩ := bind_error_iff.mp stopped
  · exact parseCount_not_all count
  obtain name | ⟨named, -, args⟩ := bind_error_iff.mp later
  · exact parseName_not_all name
  · obtain ⟨command, -, -, read⟩ | other | other := parseArgs_error args
    · exact argOps_not_all read
    · cases other
    · cases other

theorem rdsCmdParse_all (call : rdsCmdParse node = .ret .dataIsAll next) :
    ∃ counted named, node.data.headD 0 = 42 ∧ parseCount node = .ok counted ∧ parseName counted = .ok named ∧
      parseArgs named = .ok next := by
  unfold rdsCmdParse at call
  split_ifs at call with array
  · cases request : parseRequest node with
    | error halt =>
      simp only [request] at call
      exact absurd (call ▸ request) parseRequest_not_all
    | ok final =>
      simp only [request, Halt.ret.injEq, true_and] at call
      rw [parseRequest_eq, call] at request
      obtain ⟨counted, count, later⟩ := bind_ok_iff.mp request
      obtain ⟨named, name, args⟩ := bind_ok_iff.mp later
      exact ⟨counted, named, array, count, name, args⟩
  · cases call
  · cases call

theorem rdsCmdParse_more (call : rdsCmdParse node = .more place next) : node.data.headD 0 = 42 ∧
      (parseCount node = .error (.more place next) ∨ ∃ counted, parseCount node = .ok counted ∧
          (parseName counted = .error (.more place next) ∨
            ∃ named command, parseName counted = .ok named ∧ commandOf named.rp.cmd = some command ∧
              command ≠ .quit ∧ argOps (command.args named.rp.kvs) named = .error (.more place next))) := by
  unfold rdsCmdParse at call
  split_ifs at call with array
  refine ⟨array, ?_⟩
  cases request : parseRequest node with
  | ok final => simp [request] at call
  | error halt =>
    simp only [request] at call
    rw [parseRequest_eq, call] at request
    obtain count | ⟨counted, count, later⟩ := bind_error_iff.mp request
    · exact .inl count
    refine .inr ⟨counted, count, ?_⟩
    obtain name | ⟨named, name, args⟩ := bind_error_iff.mp later
    · exact .inl name
    obtain ⟨command, chosen, stays, read⟩ | other | other := parseArgs_error args
    · exact .inr ⟨named, command, name, chosen, stays, read⟩
    · cases other
    · cases other

end Libucmq.Redis
