import Libucmq.Redis.Parser

/-! Which handler a request reaches. -/

namespace Libucmq.Redis

open Net List CString

variable {command : Command} {node next : RedisNode}

def maxCmdCounts : Nat := 255

def limitFuncOrder : Nat := 6

def swiftRedisCmdLookup (order : Nat) : Option Nat :=
  if order < min limitFuncOrder (maxCmdCounts + 1) then some order else none

def Command.name : Command → List UInt8
  | .set => ascii "SET"
  | .del => ascii "DEL"
  | .mset => ascii "MSET"
  | .hset => ascii "HSET"
  | .lpushx => ascii "LPUSHX"
  | .rpushx => ascii "RPUSHX"
  | .get => ascii "GET"
  | .hmget => ascii "HMGET"
  | .hgetall => ascii "HGETALL"
  | .lrange => ascii "LRANGE"
  | .quit => ascii "QUIT"

def asciiUpper (byte : UInt8) : UInt8 :=
  if 97 ≤ byte.toNat ∧ byte.toNat ≤ 122 then byte - 32 else byte

def Command.Named (command : Command) (name : List UInt8) : Prop := name.map asciiUpper = command.name

instance (command : Command) (name : List UInt8) : Decidable (command.Named name) :=
  inferInstanceAs (Decidable (_ = _))

def nameIn (node : RedisNode) : List UInt8 :=
  match parseCount node with
  | .error _ => []
  | .ok node =>
    match checkBuffer node.data (node.rp.doptr + 1) 0 with
    | .ok (some start) =>
      (node.data.drop start).take (atoi (node.data.drop (node.rp.doptr + 1))).toNat
    | _ => []

/-- The name is read by the first call that gets past it. -/
def requestName (node : RedisNode) : List (List UInt8) → List UInt8
  | [] => []
  | fragment :: rest =>
    let node := { node with data := node.data ++ fragment }
    match rdsCmdParse node with
    | .more _ next => if next.rp.cmd = 0 then requestName next rest else nameIn node
    | _ => nameIn node

theorem foldName_map_upper (cmd : Int) {name other : List UInt8} (same : name.map upperByte = other.map upperByte) :
    foldName cmd name = foldName cmd other := by
  have folded : ∀ text : List UInt8, foldName cmd text = (text.map upperByte).foldl
      (fun cmd byte => (cmd * 26 + (signed byte - 65)).bmod 4294967296) cmd := by
    intro text
    rw [foldl_map, foldName]
  rw [folded, folded, same]

theorem upperByte_of_ascii {byte : UInt8} (letter : 65 ≤ (asciiUpper byte).toNat ∧ (asciiUpper byte).toNat ≤ 90) :
    upperByte byte = upperByte (asciiUpper byte) := by
  unfold asciiUpper at letter ⊢
  split
  · rename_i small
    rw [if_pos small] at letter
    have lower : upperByte byte = byte - 32 := by
      rw [upperByte, if_pos]
      simp only [signed]
      split <;> omega
    have upper : upperByte (byte - 32) = byte - 32 := by
      rw [upperByte, if_neg]
      simp only [signed]
      split <;> omega
    rw [lower, upper]
  · rfl

theorem Command.name_letters (command : Command) : ∀ byte ∈ command.name, 65 ≤ byte.toNat ∧ byte.toNat ≤ 90 := by
  cases command <;> decide +kernel

theorem Command.foldName_name (other : command ≠ .lrange) : foldName 0 command.name = command.code := by
  cases command with
  | lrange => exact absurd rfl other
  | _ => decide +kernel

example : foldName 0 (ascii "LRANG") = Command.lrange.code := by decide +kernel

theorem Command.foldName_named {name : List UInt8} (other : command ≠ .lrange)
    (named : command.Named name) : foldName 0 name = command.code := by
  rw [← Command.foldName_name other]
  apply foldName_map_upper
  rw [← named, map_map]
  refine map_congr_left fun byte member => upperByte_of_ascii ?_
  exact command.name_letters _ (named ▸ mem_map_of_mem member)

@[simp] theorem commandOf_code (command : Command) : commandOf command.code = some command := by
  cases command <;> decide +kernel

def Unordered (node : RedisNode) : Prop := node.rp.kvs = 0 ∨ node.rs.order = 0

theorem appended_unordered (fragment : List UInt8) (unordered : Unordered node) :
    Unordered { node with data := node.data ++ fragment } := unordered

theorem parseCount_command (unordered : Unordered node)
    (parsed : parseCount node = .ok next) : next.rp.cmd = node.rp.cmd ∧ next.rs.order = 0 := by
  obtain ⟨counted, rfl⟩ | ⟨-, stop, -, rfl⟩ := parseCount_ok parsed
  · exact ⟨rfl, unordered.resolve_left counted⟩
  · exact ⟨rfl, rfl⟩

theorem parseName_command (parsed : parseName node = .ok next) :
    next.rs = node.rs ∧ (node.rp.cmd ≠ 0 → next.rp.cmd = node.rp.cmd) := by
  obtain ⟨-, rfl⟩ | ⟨unnamed, -, start, stop, length, -, -, -, rfl⟩ := parseName_ok parsed
  · exact ⟨rfl, fun _ => rfl⟩
  · exact ⟨rfl, fun named => absurd unnamed named⟩

theorem parseName_nameIn {counted named : RedisNode} (unnamed : counted.rp.cmd = 0)
    (countEq : parseCount node = .ok counted) (nameEq : parseName counted = .ok named) :
    named.rp.cmd = foldName 0 (nameIn node) := by
  obtain ⟨already, -⟩ | ⟨-, -, start, stop, length, line, measured, -, rfl⟩ := parseName_ok nameEq
  · exact absurd unnamed already
  · simp only [nameIn, countEq, line, measured, Int.toNat_natCast, unnamed]

def SameCommand (node later : RedisNode) : Prop :=
  later.rp.cmd = node.rp.cmd ∧ later.rs.order = node.rs.order

variable {before after : RedisNode}

theorem parseLen_command (reg : Reg) (kept : SameCommand node before)
    (parsed : parseLen reg before = .ok after) : SameCommand node after := by
  obtain ⟨-, rfl⟩ | ⟨-, -, stop, -, rfl⟩ := parseLen_ok parsed
  · exact kept
  · exact kept

theorem parseMember_command (reg : Reg) (kept : SameCommand node before)
    (parsed : parseMember reg before = .ok after) : SameCommand node after := by
  obtain ⟨-, rfl⟩ | ⟨-, -, stop, -, rfl⟩ := parseMember_ok parsed
  · exact kept
  · exact kept

theorem next_command (regs : List Reg) (kept : SameCommand node before)
    (parsed : argOp (.next regs) before = .ok after) : SameCommand node after :=
  Except.ok.inj parsed ▸ kept

theorem argOps_command {ops : List ArgOp} (parsed : argOps ops node = .ok next) : SameCommand node next :=
  @argOps_keeps (SameCommand node) (fun reg _ _ => parseLen_command reg)
    (fun reg _ _ => parseMember_command reg) ops (fun regs _ _ _ => next_command regs) node next
    ⟨rfl, rfl⟩ parsed

theorem argOps_more_command {ops : List ArgOp} {place : Place}
    (stopped : argOps ops node = .error (.more place next)) : SameCommand node next :=
  @argOps_more_keeps (SameCommand node) (fun reg _ _ => parseLen_command reg)
    (fun reg _ _ => parseMember_command reg) ops (fun regs _ _ _ => next_command regs) node next
    place ⟨rfl, rfl⟩ stopped

def commandIn (node : RedisNode) : Int := if node.rp.cmd = 0 then foldName 0 (nameIn node) else node.rp.cmd

section

variable (unordered : Unordered node)

include unordered

theorem commandIn_eq {counted named : RedisNode}
    (countEq : parseCount node = .ok counted) (nameEq : parseName counted = .ok named) :
    named.rp.cmd = commandIn node ∧ named.rs.order = 0 := by
  obtain ⟨sameCmd, reset⟩ := parseCount_command unordered countEq
  obtain ⟨sameStatus, sameName⟩ := parseName_command nameEq
  refine ⟨?_, by rw [sameStatus, reset]⟩
  unfold commandIn
  split
  · rename_i unnamed
    exact parseName_nameIn (sameCmd.trans unnamed) countEq nameEq
  · rename_i already
    rw [sameName (sameCmd ▸ already), sameCmd]

theorem call_all_order (call : rdsCmdParse node = .ret .dataIsAll next) :
    ∃ command, commandOf (commandIn node) = some command ∧ next.rs.order = command.order.getD 0 := by
  obtain ⟨counted, named, -, countEq, nameEq, argsEq⟩ := rdsCmdParse_all call
  obtain ⟨switched, reset⟩ := commandIn_eq unordered countEq nameEq
  obtain ⟨command, middle, chosen, -, read, rfl⟩ := parseArgs_ok argsEq
  refine ⟨command, switched ▸ chosen, ?_⟩
  rw [(argOps_command read).2, reset]

theorem call_more_command {place : Place} (call : rdsCmdParse node = .more place next) :
    Unordered next ∧ (next.rp.cmd = commandIn node ∨ next.rp.cmd = 0 ∧ node.rp.cmd = 0) := by
  obtain ⟨-, countStop | ⟨counted, countEq, nameStop | ⟨named, command, nameEq, -, -, read⟩⟩⟩ :=
    rdsCmdParse_more call
  · obtain ⟨-, rfl, uncounted⟩ := parseCount_more countStop
    refine ⟨.inl uncounted, ?_⟩
    unfold commandIn
    split
    · rename_i unnamed
      exact .inr ⟨unnamed, unnamed⟩
    · exact .inl rfl
  · obtain ⟨sameCmd, reset⟩ := parseCount_command unordered countEq
    obtain ⟨-, rfl, unnamed, -⟩ := parseName_more nameStop
    exact ⟨.inr reset, .inr ⟨unnamed, sameCmd ▸ unnamed⟩⟩
  · obtain ⟨switched, reset⟩ := commandIn_eq unordered countEq nameEq
    obtain ⟨sameCmd, sameOrder⟩ := argOps_more_command read
    exact ⟨.inr (sameOrder.trans reset), .inl (sameCmd.trans switched)⟩

theorem received_named {final : RedisNode} {fragments : List (List UInt8)}
    (named : node.rp.cmd ≠ 0) (last : Halt.ret .dataIsAll final ∈ received node fragments) :
    ∃ command, commandOf node.rp.cmd = some command ∧ final.rs.order = command.order.getD 0 := by
  induction fragments generalizing node with
  | nil => simp [received] at last
  | cons fragment rest ih =>
    have switches : commandIn { node with data := node.data ++ fragment } = node.rp.cmd := if_neg named
    simp only [received] at last
    cases call : rdsCmdParse { node with data := node.data ++ fragment } with
    | fault => simp [call] at last
    | ret code next =>
      simp only [call, mem_singleton, Halt.ret.injEq] at last
      obtain ⟨rfl, rfl⟩ := last
      exact switches ▸ call_all_order unordered call
    | more place next =>
      simp only [call, mem_cons, reduceCtorEq, false_or] at last
      obtain ⟨still, same | ⟨-, unnamed⟩⟩ := call_more_command (appended_unordered fragment unordered) call
      · rw [switches] at same
        exact same ▸ ih still (same ▸ named) last
      · exact absurd unnamed named

theorem received_order {final : RedisNode} {fragments : List (List UInt8)}
    (unnamed : node.rp.cmd = 0) (last : Halt.ret .dataIsAll final ∈ received node fragments) :
    ∃ command, commandOf (foldName 0 (requestName node fragments)) = some command ∧
      final.rs.order = command.order.getD 0 := by
  induction fragments generalizing node with
  | nil => simp [received] at last
  | cons fragment rest ih =>
    have switches : commandIn { node with data := node.data ++ fragment } =
        foldName 0 (nameIn { node with data := node.data ++ fragment }) := if_pos unnamed
    simp only [received] at last
    simp only [requestName]
    cases call : rdsCmdParse { node with data := node.data ++ fragment } with
    | fault => simp [call] at last
    | ret code next =>
      simp only [call, mem_singleton, Halt.ret.injEq] at last
      obtain ⟨rfl, rfl⟩ := last
      exact switches ▸ call_all_order unordered call
    | more place next =>
      simp only [call, mem_cons, reduceCtorEq, false_or] at last
      obtain ⟨still, command⟩ := call_more_command (appended_unordered fragment unordered) call
      dsimp only
      split
      · rename_i waiting
        exact ih still waiting last
      · rename_i passed
        have same := (command.resolve_right fun both => passed both.1).trans switches
        exact same ▸ received_named still passed last

end

def Selects (order : Nat) (command : Command) : Prop :=
  ∃ entry, swiftRedisCmdLookup order = some entry ∧ command.order = some entry

theorem Command.order_injective {other : Command} {entry : Nat} (first : command.order = some entry)
    (second : other.order = some entry) : command = other := by
  have distinct : ∀ left ∈ commands, ∀ right ∈ commands,
      left.order.isSome → left.order = right.order → left = right := by decide
  have listed : ∀ left : Command, left ∈ commands := by
    intro left
    cases left <;> decide
  exact distinct command (listed command) other (listed other) (by simp [first]) (first.trans second.symm)

theorem selects_unique {order : Nat} {other : Command} (first : Selects order command)
    (second : Selects order other) : command = other := by
  obtain ⟨entry, found, ordered⟩ := first
  obtain ⟨same, foundSame, orderedSame⟩ := second
  obtain rfl : entry = same := Option.some.inj (found.symm.trans foundSame)
  exact Command.order_injective ordered orderedSame

theorem selects_order (command : Command) :
    Selects (command.order.getD 0) (if command.order.isSome then command else .set) := by
  cases command <;> exact ⟨_, rfl, rfl⟩

/-- The handler is that of the named command exactly when it has one. -/
theorem redis_dispatch {status : RedisStatus} {fragments : List (List UInt8)} {final : RedisNode}
    (accepted : Halt.ret .dataIsAll final ∈ received { data := [], rs := status } fragments) :
    (∀ command, Selects final.rs.order command →
        command.Named (requestName { data := [], rs := status } fragments)) ↔
      ∃ command : Command, command.order.isSome ∧
        command.Named (requestName { data := [], rs := status } fragments) := by
  obtain ⟨branch, chosen, order⟩ := received_order (.inl rfl) rfl accepted
  have selected := order ▸ selects_order branch
  constructor
  · intro named
    refine ⟨_, ?_, named _ selected⟩
    split
    · assumption
    · rfl
  · rintro ⟨command, handled, named⟩ other selects
    -- the number of a name that has a handler leads to its own branch
    have known : command ≠ .lrange := by
      rintro rfl
      simp [Command.order] at handled
    rw [Command.foldName_named known named, commandOf_code, Option.some.injEq] at chosen
    subst chosen
    rw [if_pos handled] at selected
    exact selects_unique selects selected ▸ named

def request (lines : List String) : List UInt8 := lines.flatMap fun line => ascii line ++ [13, 10]

theorem redis_dispatch_set : ∃ final, Halt.ret .dataIsAll final ∈
        received { data := [] } [request ["*3", "$3", "set", "$1", "a", "$1", "b"]] ∧
      Selects final.rs.order .set ∧
      ∀ command, Selects final.rs.order command →
        command.Named (requestName { data := [] } [request ["*3", "$3", "set", "$1", "a", "$1", "b"]]) := by
  refine ⟨_, mem_singleton.mpr rfl, ⟨0, rfl, rfl⟩, ?_⟩
  exact (redis_dispatch (mem_singleton.mpr rfl)).mpr ⟨.set, rfl, by decide +kernel⟩

theorem redis_dispatch_inexact :
    (∃ final, Halt.ret .dataIsAll final ∈ received { data := [] } [request ["*2", "$3", "GET", "$1", "a"]] ∧
      Selects final.rs.order .set ∧
      ¬ Command.set.Named (requestName { data := [] } [request ["*2", "$3", "GET", "$1", "a"]])) ∧
    ∃ final, Halt.ret .dataIsAll final ∈
        received { data := [] } [request ["*3", "$4", "ASET", "$1", "a", "$1", "b"]] ∧
      Selects final.rs.order .set ∧
      ¬ Command.set.Named
        (requestName { data := [] } [request ["*3", "$4", "ASET", "$1", "a", "$1", "b"]]) :=
  ⟨⟨_, mem_singleton.mpr rfl, ⟨0, rfl, rfl⟩, by decide +kernel⟩,
    ⟨_, mem_singleton.mpr rfl, ⟨0, rfl, rfl⟩, by decide +kernel⟩⟩

end Libucmq.Redis
