import Nezha.Models.Eth.Replay
import Nezha.Models.Eth.Analysis

/-!
# The interpreter and its tracer (`core/vm/interpreter.go`, `instructions.go`, `logger.go`, `evm.go`)

Nezha's read and write sets come from the `StructLogger` of the `EVM`'s config:
`CaptureState` records the slot an `SLOAD` reads and the value an `SSTORE`
writes, from the operand stack, when it runs. `Run` calls it just before an
operation executes, after the operation's gas is paid, and its deferred
handler calls it again for a step that failed before it was logged. `Call`
reverts the state and the storage on an error, but not the tracer, and
nothing resets the tracer between calls.

The jump table is Frontier's, the one at block zero where every `LEVM` of the
repository starts, restricted to `STOP`, `ADD`, `POP`, `SLOAD`, `SSTORE`,
`JUMP`, `JUMPI`, `JUMPDEST`, `PUSH1` to `PUSH32` and `DUP1`; any other byte is
read as an invalid opcode, so the model covers the contracts written in these.
None of them touches memory. A jump asks `validJumpdest` of the `Contract`
that `Call` makes, whose caches of the jump destination analysis last as long
as the run. Every pass that goes on costs gas, so the loop stops within the
gas it is given. Precompiled contracts are left out.

The logs of `StructLogger` are left out: `RWSetCapture` reads only the two maps,
and with the `LogConfig{}` of `NewEVM` the trace limit is never reached.
-/

namespace Nezha

open Analysis

/-- The opcodes of the model. -/
inductive OpCode where
  | stop
  | add
  | pop
  | sload
  | sstore
  | jump
  | jumpi
  | jumpdest
  | push1
  /-- `PUSH2` to `PUSH32`, by the number of bytes they push -/
  | push (size : Nat)
  | dup1
  | invalid (b : UInt8)
  deriving DecidableEq, Repr

namespace OpCode

/-- `OpCode(b)`, with every byte outside the model invalid. -/
def ofByte (b : UInt8) : OpCode :=
  if b = 0x00 then .stop else if b = 0x01 then .add else if b = 0x50 then .pop
  else if b = 0x54 then .sload else if b = 0x55 then .sstore else if b = 0x56 then .jump
  else if b = 0x57 then .jumpi else if b = 0x5B then .jumpdest else if b = 0x60 then .push1
  else if 0x61 ≤ b ∧ b ≤ 0x7F then .push (b.toNat - 0x5F)
  else if b = 0x80 then .dup1 else .invalid b

/-- `constantGas` in Frontier's jump table: `GasQuickStep`, `GasFastestStep`,
`GasMidStep`, `GasSlowStep`, `params.JumpdestGas` and `params.SloadGasFrontier`. -/
def constantGas : OpCode → UInt64
  | .add | .push1 | .push _ | .dup1 => 3
  | .pop => 2
  | .sload => 50
  | .jump => 8
  | .jumpi => 10
  | .jumpdest => 1
  | _ => 0

/-- `minStack`: what the operation pops. -/
def minStack : OpCode → Nat
  | .add | .sstore | .jumpi => 2
  | .pop | .sload | .jump | .dup1 => 1
  | _ => 0

/-- `maxStack`: `params.StackLimit` plus what the operation pops, minus what it pushes. -/
def maxStack : OpCode → Nat
  | .stop | .sload | .jumpdest => 1024
  | .add | .pop | .jump => 1025
  | .sstore | .jumpi => 1026
  | .push1 | .push _ | .dup1 => 1023
  | .invalid _ => 0

/-- `jumps`: the operation sets the program counter itself. -/
def jumps : OpCode → Bool
  | .jump | .jumpi => true
  | _ => false

/-- The bytes of data that follow the opcode in the code. -/
def pushBytes : OpCode → Nat
  | .push1 => 1
  | .push size => size
  | _ => 0

end OpCode

/-- `fmt.Errorf("invalid opcode 0x%x", int(op))`. -/
def invalidOpcode (b : UInt8) : String := "invalid opcode 0x" ++ String.ofList (Nat.toDigits 16 b.toNat)

/-- `fmt.Errorf("stack underflow (%d <=> %d)", sLen, operation.minStack)`. -/
def stackUnderflow (sLen minStack : Nat) : String :=
  "stack underflow (" ++ toString sLen ++ " <=> " ++ toString minStack ++ ")"

/-- `fmt.Errorf("stack limit reached %d (%d)", sLen, operation.maxStack)`. -/
def stackLimitReached (sLen maxStack : Nat) : String :=
  "stack limit reached " ++ toString sLen ++ " (" ++ toString maxStack ++ ")"

/-- `errInvalidJump`. -/
def errInvalidJump : VmError := .other "evm: invalid jump destination"

/-- `common.BigToHash(b)`: the low 32 bytes of `b`, big-endian. -/
def bigToHash (n : Nat) : Hash := ⟨(List.range 32).map fun i => (n / 256 ^ (31 - i)).toUInt8, by simp⟩

/-- `common.RightPadBytes(slice, l)`. -/
def rightPadBytes (slice : Bytes) (l : Nat) : Bytes :=
  if l ≤ slice.length then slice else slice ++ List.replicate (l - slice.length) 0

/-- `GetState(addr, key)`: the zero hash for a slot never written. -/
def getState (storage : GoMap Address Storage) (addr : Address) (key : Hash) : Hash :=
  (storage.findD addr GoMap.empty).findD key zeroHash

/-- `SetState(addr, key, value)`. -/
def setState (storage : GoMap Address Storage) (addr : Address) (key value : Hash) : GoMap Address Storage :=
  storage.insert addr ((storage.findD addr GoMap.empty).insert key value)

/-- The maps of `StructLogger`. -/
structure StructLogger where
  changedValues : GoMap Address Storage
  readValues : GoMap Address Storage

namespace StructLogger

/-- `NewStructLogger(&logConfig)`. -/
def new : StructLogger := ⟨GoMap.empty, GoMap.empty⟩

/-- `make(Storage)` under `addr` unless the contract has its container already. -/
def initStorage (m : GoMap Address Storage) (addr : Address) : GoMap Address Storage :=
  if addr ∈ m.keys then m else m.insert addr GoMap.empty

/-- `CaptureState` on the maps, for the contract at `addr` with `stack` (top first):
an `SLOAD` records the current value of the slot on top, an `SSTORE` the value
below it as the slot's new value. -/
def captureState (l : StructLogger) (storage : GoMap Address Storage) (addr : Address) (op : OpCode)
    (stack : List Nat) : StructLogger :=
  let changed := initStorage l.changedValues addr
  let read := initStorage l.readValues addr
  match op, stack with
  | .sload, loc :: _ =>
    ⟨changed, read.modify addr fun s => s.insert (bigToHash loc) (getState storage addr (bigToHash loc))⟩
  | .sstore, loc :: value :: _ =>
    ⟨changed.modify addr fun s => s.insert (bigToHash loc) (bigToHash value), read⟩
  | _, _ => ⟨changed, read⟩

/-- `RWSetCapture(addr)`: the read and the write map of the contract, nil if it
was never captured. -/
def rwSetCapture (l : StructLogger) (addr : Address) : Option Storage × Option Storage :=
  (l.readValues.get? addr, l.changedValues.get? addr)

end StructLogger

/-- The registers of `Run`: the program counter, the stack (top first) and the
gas left in the contract. -/
structure Frame where
  pc : Nat
  stack : List Nat
  gas : UInt64

/-- What `Run` threads: the `StateDB`, the storage of each account, the tracer,
the `Contract` it runs, whose caches `validJumpdest` fills, and the frame. -/
structure Exec where
  db : StateDB
  storage : GoMap Address Storage
  logger : StructLogger
  contract : Contract
  frame : Frame

/-- `contract.GetOp(pc)`: `STOP` past the end of the code. -/
def getOp (code : Bytes) (pc : Nat) : OpCode := OpCode.ofByte (code.getD pc 0)

/-- `contract.UseGas(gas)`. -/
def useGas (gas cost : UInt64) : Option UInt64 := if gas < cost then none else some (gas - cost)

/-- `gasSStore` under the legacy rules of block zero, on the stack of `SSTORE`:
the cost, and the state after the refund it adds when a slot is cleared. -/
def gasSStore (db : StateDB) (storage : GoMap Address Storage) (addr : Address) (stack : List Nat) :
    StateDB × UInt64 :=
  let y := stack.getD 1 0
  let x := stack.getD 0 0
  let current := getState storage addr (bigToHash x)
  if current = zeroHash ∧ y ≠ 0 then (db, 20000)
  else if current ≠ zeroHash ∧ y = 0 then ({ db with refund := db.refund + 15000 }, 5000)
  else (db, 5000)

/-- `makePush(size, pushByteSize)` on the frame: it pushes the `pushByteSize`
bytes after the opcode, zeros past the end of the code, and moves the counter
`size` on. -/
def makePush (size pushByteSize : Nat) (code : Bytes) (f : Frame) : Frame :=
  let codeLen := code.length
  let startMin := min codeLen (f.pc + 1)
  let endMin := min codeLen (startMin + pushByteSize)
  { f with pc := f.pc + size,
           stack := setBytes (rightPadBytes ((code.take endMin).drop startMin) pushByteSize) :: f.stack }

/-- `validJumpdest(pos)` and the jump to `pos` when it holds, as `opJump` and
`opJumpi` make it, on the frame whose stack they have popped. -/
def jumpTo (c : Contract) (pos : Nat) (f : Frame) : Except Fault (Contract × Frame × Option VmError) := do
  let (valid, c) ← validJumpdest c pos
  if valid then pure (c, { f with pc := pos % 2 ^ 64 }, none)
  else pure (c, f, some errInvalidJump)

/-- `operation.execute` of each opcode: the storage, the contract and the frame
after it, and its error. The stack has been checked against `minStack`. -/
def execute (addr : Address) (op : OpCode) (storage : GoMap Address Storage) (c : Contract) (f : Frame) :
    Except Fault (GoMap Address Storage × Contract × Frame × Option VmError) :=
  match op, f.stack with
  | .add, x :: y :: s => pure (storage, c, { f with stack := (x + y) % 2 ^ 256 :: s }, none)
  | .pop, _ :: s => pure (storage, c, { f with stack := s }, none)
  | .sload, loc :: s =>
    pure (storage, c, { f with stack := setBytes (getState storage addr (bigToHash loc)).bytes :: s }, none)
  | .sstore, loc :: value :: s =>
    pure (setState storage addr (bigToHash loc) (bigToHash value), c, { f with stack := s }, none)
  | .jump, pos :: s => do
    let (c, f, err) ← jumpTo c pos { f with stack := s }
    pure (storage, c, f, err)
  | .jumpi, pos :: cond :: s =>
    if cond ≠ 0 then do
      let (c, f, err) ← jumpTo c pos { f with stack := s }
      pure (storage, c, f, err)
    else pure (storage, c, { f with pc := f.pc + 1, stack := s }, none)
  -- `opPush1`, written out for the one-byte push
  | .push1, s => pure (storage, c, { f with pc := f.pc + 1, stack := (c.code.getD (f.pc + 1) 0).toNat :: s }, none)
  | .push size, _ => pure (storage, c, makePush size size c.code f, none)
  | .dup1, x :: s => pure (storage, c, { f with stack := x :: x :: s }, none)
  | _, _ => pure (storage, c, f, none)

/-- The end of one pass of the loop of `Run`. -/
inductive Outcome where
  /-- the loop goes on -/
  | next (e : Exec)
  /-- `Run` returns, with its error -/
  | halt (e : Exec) (err : Option VmError)

/-- The `switch` that ends a pass of the loop of `Run`, on the state after the
operation: an error or `STOP` ends the loop, an operation that jumps has set
the counter, and any other moves it past its opcode. -/
def endPass (op : OpCode) (e : Exec) (err : Option VmError) : Outcome :=
  match err with
  | some err => .halt e (some err)
  | none =>
    if op = .stop then .halt e none
    else if op.jumps then .next e
    else .next { e with frame := { e.frame with pc := e.frame.pc + 1 } }

/-- The rest of a pass of the loop of `Run` once the operation's gas is paid,
with the state `db` and the gas `gas` left: `CaptureState`, the operation and
the end of the pass. After the step is logged, `CaptureFault` of
`StructLogger` records nothing. -/
def Exec.finish (addr : Address) (e : Exec) (db : StateDB) (gas : UInt64) : Except Fault Outcome := do
  let op := getOp e.contract.code e.frame.pc
  let (storage, contract, frame, err) ← execute addr op e.storage e.contract { e.frame with gas := gas }
  pure (endPass op ⟨db, storage, e.logger.captureState e.storage addr op e.frame.stack, contract, frame⟩ err)

/-- The body of the loop of `Run` on the contract at `addr`. -/
def step (addr : Address) (e : Exec) : Except Fault Outcome :=
  let op := getOp e.contract.code e.frame.pc
  let sLen := e.frame.stack.length
  -- the deferred handler of `Run` captures a step that fails before it is logged
  let fail (db : StateDB) (err : VmError) : Outcome :=
    .halt { e with db := db, logger := e.logger.captureState e.storage addr op e.frame.stack } (some err)
  match op with
  | .invalid b => pure (fail e.db (.other (invalidOpcode b)))
  | _ =>
    if sLen < op.minStack then pure (fail e.db (.other (stackUnderflow sLen op.minStack)))
    else if op.maxStack < sLen then pure (fail e.db (.other (stackLimitReached sLen op.maxStack)))
    else
      match useGas e.frame.gas op.constantGas with
      | none => pure (fail e.db .outOfGas)
      | some gas =>
        -- only `SSTORE` has a dynamic gas function
        let (db, dynamicCost) := if op = .sstore then gasSStore e.db e.storage addr e.frame.stack else (e.db, 0)
        match useGas gas dynamicCost with
        | none => pure (fail db .outOfGas)
        | some gas => e.finish addr db gas

/-- The loop of `Run`, for at most `fuel` passes; a panic in a pass ends it. -/
def runLoop (addr : Address) : Nat → Exec → Except Fault (Exec × Option VmError)
  | 0, _ => .error .outOfFuel
  | fuel + 1, e =>
    match step addr e with
    | .ok (.next e') => runLoop addr fuel e'
    | .ok (.halt e' err) => .ok (e', err)
    | .error f => .error f

/-- `Run(contract, input, false)` with `gas`, from a fresh frame; without code
nothing runs. Every pass that goes on costs gas, so `gas + 1` passes are enough. -/
def run (c : Contract) (addr : Address) (gas : UInt64) (db : StateDB) (storage : GoMap Address Storage)
    (logger : StructLogger) : Except Fault (Exec × Option VmError) :=
  if c.code.length = 0 then .ok (⟨db, storage, logger, c, ⟨0, [], gas⟩⟩, none)
  else runLoop addr (gas.toNat + 1) ⟨db, storage, logger, c, ⟨0, [], gas⟩⟩

/-- What `Call` reads and writes besides the `StateDB` of the replay: the code,
the code hash and the storage of each account, and the `StructLogger` of the
`EVM`'s config. -/
structure Machine where
  code : GoMap Address Bytes
  codeHash : GoMap Address Hash
  storage : GoMap Address Storage
  logger : StructLogger

/-- `NewContract` at depth zero and `SetCallCode(&addr, GetCodeHash(addr), GetCode(addr))`:
the code and the code hash of `addr`, the zero hash for an account that does
not exist, an empty `jumpdests` map and no analysis. -/
def Machine.contract (m : Machine) (addr : Address) : Contract :=
  ⟨m.code.findD addr [], m.codeHash.findD addr zeroHash, GoMap.empty, none⟩

/-- `Call(caller, addr, input, gas, value)` at depth zero. `Transfer` moves the
value; on an error `RevertToSnapshot` restores the state and the storage but not
the tracer, and all gas is consumed unless the call reverted. -/
def call (db : StateDB) (m : Machine) (caller addr : Address) (gas : UInt64) (value : Int) :
    Except Fault (CallResult Machine) := do
  if db.getBalance caller < value then return ⟨db, m, [], gas, some .insufficientBalance⟩
  let db' := (db.addBalance caller (-value)).addBalance addr value
  let (e, err) ← run (m.contract addr) addr gas db' m.storage m.logger
  match err with
  | none => pure ⟨e.db, { m with storage := e.storage, logger := e.logger }, [], e.frame.gas, none⟩
  | some err => pure ⟨db, { m with logger := e.logger }, [], if err = .executionReverted then e.frame.gas else 0, some err⟩

/-- What `CallContractABI2` returns, with the state and the machine after it. -/
structure CallABIResult where
  db : StateDB
  machine : Machine
  rMap : Option Storage
  wMap : Option Storage
  output : Bytes
  err : Option VmError

/-- `CallContractABI2(callerAddr, contractAddr, value, abiObject, funcName, args...)`,
with `inputs` what `abiObject.Pack` returns. The gas of the call is the caller's
balance, and the caller's balance becomes the gas left. -/
def callContractABI2 (db : StateDB) (m : Machine) (callerAddr contractAddr : Address) (value : Int)
    (inputs : Except String Bytes) : Except Fault CallABIResult :=
  match inputs with
  | .error e => pure ⟨db, m, none, none, [], some (.other e)⟩
  | .ok _ => do
    let r ← call db m callerAddr contractAddr (db.getBalance callerAddr).natAbs.toUInt64 value
    let db := { r.db with balances := r.db.balances.insert callerAddr r.leftOverGas.toNat }
    let (rMap, wMap) := r.tracer.logger.rwSetCapture contractAddr
    pure ⟨db, r.tracer, rMap, wMap, r.output, r.err⟩

/-! ## The operations -/

/-- `opPush1` is `makePush(1, 1)`: the one-byte push written out pushes the same. -/
theorem makePush_one (code : Bytes) (f : Frame) :
    makePush 1 1 code f = { f with pc := f.pc + 1, stack := (code.getD (f.pc + 1) 0).toNat :: f.stack } := by
  simp only [makePush, Frame.mk.injEq, true_and, List.cons.injEq, and_true]
  by_cases h : f.pc + 1 < code.length
  · -- the byte is inside the code
    have hslice : (code.take (min code.length (min code.length (f.pc + 1) + 1))).drop
        (min code.length (f.pc + 1)) = [code[f.pc + 1]] := by
      rw [Nat.min_eq_right (by omega), Nat.min_eq_right (by omega), List.drop_take,
        show f.pc + 1 + 1 - (f.pc + 1) = 1 by omega, List.take_one, List.head?_drop, List.getElem?_eq_getElem h]
      rfl
    rw [hslice, List.getD_eq_getElem _ _ h]
    simp [rightPadBytes, setBytes]
  · -- past the end the push is a zero
    rw [Nat.min_eq_left (by omega), Nat.min_eq_left (by omega), List.drop_take_self,
      List.getD_eq_default _ _ (by omega)]
    simp [rightPadBytes, setBytes]

/-- What `jumpTo` does from caches that are right: it never panics, keeps the
code and the caches right, pops nothing more, and a jump it takes lands on an
instruction boundary. -/
theorem jumpTo_spec {codeOf : Hash → Bytes} {c : Contract} (hc : c.WellFormed codeOf) (pos : Nat) (f : Frame) :
    ∃ c' f' err, jumpTo c pos f = .ok (c', f', err) ∧ c'.WellFormed codeOf ∧ c'.code = c.code ∧
      f'.gas = f.gas ∧ (err = none → IsBoundary c.code f'.pc) := by
  obtain ⟨b, c', hv, hwf, hcode, -, hiff⟩ := validJumpdest_spec hc pos
  cases b with
  | false => exact ⟨c', f, some errInvalidJump, by simp [jumpTo, hv, bind, Except.bind, pure, Except.pure],
      hwf, hcode, rfl, fun h => by cases h⟩
  | true =>
    obtain ⟨h62, -, hboundary⟩ := hiff.mp rfl
    refine ⟨c', { f with pc := pos % 2 ^ 64 }, none,
      by simp [jumpTo, hv, bind, Except.bind, pure, Except.pure], hwf, hcode, rfl, fun _ => ?_⟩
    rwa [Nat.mod_eq_of_lt (by omega)]

theorem jumpTo_gas {c c' : Contract} {pos : Nat} {f f' : Frame} {err : Option VmError}
    (h : jumpTo c pos f = .ok (c', f', err)) : f'.gas = f.gas := by
  simp only [jumpTo, bind, Except.bind] at h
  split at h
  · cases h
  · split at h <;> cases h <;> rfl

/-- What an operation does to the contract and the frame. Every operation but a
jump keeps the contract and the gas, reports no error, and moves the counter
over its data; so does a jump on a short stack, and `JUMPI` not taken moves it
by one. A jump taken is `jumpTo`'s, on a frame with the gas it had. -/
theorem execute_cases {addr : Address} {op : OpCode} {storage storage' : GoMap Address Storage}
    {c c' : Contract} {f f' : Frame} {err : Option VmError}
    (h : execute addr op storage c f = .ok (storage', c', f', err)) :
    (c' = c ∧ f'.gas = f.gas ∧ err = none ∧ (f'.pc = f.pc + op.pushBytes ∨ op.jumps = true ∧ f'.pc = f.pc + 1)) ∨
      op.jumps = true ∧ ∃ pos f₀, f₀.gas = f.gas ∧ jumpTo c pos f₀ = .ok (c', f', err) := by
  unfold execute at h
  split at h
  case h_5 =>
    -- `JUMP`
    obtain ⟨⟨c₁, f₁, err₁⟩, hj, h⟩ := except_bind_eq_ok h
    cases h
    exact .inr ⟨rfl, _, _, hj.rec rfl, hj⟩
  case h_6 =>
    -- `JUMPI`, taken or not
    split at h
    · obtain ⟨⟨c₁, f₁, err₁⟩, hj, h⟩ := except_bind_eq_ok h
      cases h
      exact .inr ⟨rfl, _, _, hj.rec rfl, hj⟩
    · cases h
      exact .inl ⟨rfl, rfl, rfl, .inr ⟨rfl, rfl⟩⟩
  case h_10 =>
    -- no operation matched: one outside the model's effects, or a short stack
    cases h
    refine .inl ⟨rfl, rfl, rfl, .inl ?_⟩
    -- the pushes always match, and nothing else has data
    rename_i op' _ _ hpush1 hpush _ _ _ _ _ _ _
    cases op' with
    | push1 => exact absurd rfl hpush1
    | push size => exact absurd rfl (hpush size)
    | _ => rfl
  all_goals (cases h; exact .inl ⟨rfl, rfl, rfl, .inl rfl⟩)

/-- No operation touches the gas: `Run` pays for it before. -/
theorem execute_gas {addr : Address} {op : OpCode} {storage storage' : GoMap Address Storage} {c c' : Contract}
    {f f' : Frame} {err : Option VmError} (h : execute addr op storage c f = .ok (storage', c', f', err)) :
    f'.gas = f.gas := by
  rcases execute_cases h with ⟨-, hgas, -⟩ | ⟨-, pos, f₀, hgas, hj⟩
  · exact hgas
  · rw [jumpTo_gas hj, hgas]

/-- From caches that are right, an operation never panics. -/
theorem execute_ok {codeOf : Hash → Bytes} {c : Contract} (hc : c.WellFormed codeOf) (addr : Address) (op : OpCode)
    (storage : GoMap Address Storage) (f : Frame) : ∃ r, execute addr op storage c f = .ok r := by
  unfold execute
  split
  case h_5 =>
    rename_i pos s _
    obtain ⟨c', f', err, hj, -⟩ := jumpTo_spec hc pos { f with stack := s }
    exact ⟨_, by rw [hj]; rfl⟩
  case h_6 =>
    rename_i pos cond s _
    split
    · obtain ⟨c', f', err, hj, -⟩ := jumpTo_spec hc pos { f with stack := s }
      exact ⟨_, by rw [hj]; rfl⟩
    · exact ⟨_, rfl⟩
  all_goals exact ⟨_, rfl⟩

/-- From caches that are right, an operation keeps the code and the caches right. -/
theorem wellFormed_execute {codeOf : Hash → Bytes} {addr : Address} {op : OpCode}
    {storage storage' : GoMap Address Storage} {c c' : Contract} {f f' : Frame} {err : Option VmError}
    (hc : c.WellFormed codeOf) (h : execute addr op storage c f = .ok (storage', c', f', err)) :
    c'.WellFormed codeOf ∧ c'.code = c.code := by
  rcases execute_cases h with ⟨rfl, -⟩ | ⟨-, pos, f₀, -, hj⟩
  · exact ⟨hc, rfl⟩
  · obtain ⟨c₁, f₁, err₁, hj₁, hwf, hcode, -⟩ := jumpTo_spec hc pos f₀
    rw [hj₁] at hj
    cases hj
    exact ⟨hwf, hcode⟩

/-! ## One pass of the loop -/

theorem useGas_eq_some {gas cost g : UInt64} (h : useGas gas cost = some g) :
    cost.toNat ≤ gas.toNat ∧ g.toNat = gas.toNat - cost.toNat := by
  unfold useGas at h
  split at h
  · cases h
  · rename_i hlt
    cases h
    have hle : cost ≤ gas := UInt64.not_lt.mp hlt
    exact ⟨UInt64.le_iff_toNat_le.mp hle, UInt64.toNat_sub_of_le _ _ hle⟩

/-- Every operation of the model but `STOP` and `SSTORE` has a constant cost. -/
theorem constantGas_pos {op : OpCode} (hstop : op ≠ .stop) (hsstore : op ≠ .sstore)
    (hvalid : ∀ b, op ≠ .invalid b) : 0 < op.constantGas.toNat := by
  cases op <;> simp_all [OpCode.constantGas]

/-- `SSTORE` costs gas in its dynamic part. -/
theorem gasSStore_pos (db : StateDB) (storage : GoMap Address Storage) (addr : Address) (stack : List Nat) :
    0 < (gasSStore db storage addr stack).2.toNat := by
  unfold gasSStore
  dsimp only
  split_ifs <;> simp

/-- A pass either fails before its operation executes, with the step captured and
nothing changed but the state, or pays for its operation and finishes; unless the
operation is `STOP`, it pays at least one unit of gas. -/
theorem step_cases (addr : Address) (e : Exec) :
    (∃ db err, step addr e = .ok (.halt
      { e with db := db, logger := e.logger.captureState e.storage addr (getOp e.contract.code e.frame.pc) e.frame.stack }
      (some err))) ∨
    ∃ db gas, (getOp e.contract.code e.frame.pc ≠ .stop → gas.toNat < e.frame.gas.toNat) ∧
      step addr e = e.finish addr db gas := by
  unfold step
  dsimp only
  split
  · exact .inl ⟨_, _, rfl⟩
  · rename_i hvalid
    split
    · exact .inl ⟨_, _, rfl⟩
    · split
      · exact .inl ⟨_, _, rfl⟩
      · split
        · exact .inl ⟨_, _, rfl⟩
        · rename_i gas₁ h₁
          split
          · exact .inl ⟨_, _, rfl⟩
          · rename_i gas₂ h₂
            refine .inr ⟨_, gas₂, fun hstop => ?_, rfl⟩
            obtain ⟨hle₁, heq₁⟩ := useGas_eq_some h₁
            obtain ⟨hle₂, heq₂⟩ := useGas_eq_some h₂
            -- `SSTORE` pays in its dynamic part, every other operation in its constant part
            by_cases hs : getOp e.contract.code e.frame.pc = .sstore
            · rw [if_pos hs] at hle₂ heq₂
              have := gasSStore_pos e.db e.storage addr e.frame.stack
              omega
            · have := constantGas_pos hstop hs hvalid
              omega

/-- What a pass that has paid for its operation ends with. -/
theorem finish_eq_ok {addr : Address} {e : Exec} {db : StateDB} {gas : UInt64} {o : Outcome}
    (h : e.finish addr db gas = .ok o) :
    ∃ storage c f err, execute addr (getOp e.contract.code e.frame.pc) e.storage e.contract
        { e.frame with gas := gas } = .ok (storage, c, f, err) ∧
      o = endPass (getOp e.contract.code e.frame.pc)
        ⟨db, storage, e.logger.captureState e.storage addr (getOp e.contract.code e.frame.pc) e.frame.stack, c, f⟩ err := by
  unfold Exec.finish at h
  obtain ⟨⟨storage, c, f, err⟩, hx, h⟩ := except_bind_eq_ok h
  exact ⟨storage, c, f, err, hx, (Except.ok.inj h).symm⟩

/-- The end of a pass keeps everything but the program counter. -/
theorem endPass_state {op : OpCode} {e e' : Exec} {err err' : Option VmError}
    (h : endPass op e err = .next e' ∨ endPass op e err = .halt e' err') :
    e'.storage = e.storage ∧ e'.logger = e.logger ∧ e'.contract = e.contract ∧ e'.frame.gas = e.frame.gas := by
  unfold endPass at h
  split at h
  · rcases h with h | h <;> cases h
    exact ⟨rfl, rfl, rfl, rfl⟩
  · split_ifs at h <;> rcases h with h | h <;> cases h <;> exact ⟨rfl, rfl, rfl, rfl⟩

theorem endPass_eq_next {op : OpCode} {e e' : Exec} {err : Option VmError} (h : endPass op e err = .next e') :
    err = none ∧ op ≠ .stop ∧ e'.frame.pc = if op.jumps then e.frame.pc else e.frame.pc + 1 := by
  unfold endPass at h
  split at h
  · cases h
  · split_ifs at h with hstop hjumps <;> cases h
    · exact ⟨rfl, hstop, by simp [hjumps]⟩
    · exact ⟨rfl, hstop, by simp [hjumps]⟩

/-- A pass that goes on has paid gas for an operation and executed it without
error; an operation that does not jump has then moved past its opcode. -/
theorem step_next_inv {addr : Address} {e e' : Exec} (h : step addr e = .ok (.next e')) :
    e'.frame.gas.toNat < e.frame.gas.toNat ∧
      ∃ gas storage f, execute addr (getOp e.contract.code e.frame.pc) e.storage e.contract
          { e.frame with gas := gas } = .ok (storage, e'.contract, f, none) ∧
        e'.frame.pc = if (getOp e.contract.code e.frame.pc).jumps then f.pc else f.pc + 1 := by
  rcases step_cases addr e with ⟨db, err, hs⟩ | ⟨db, gas, hgas, hs⟩
  · rw [hs] at h
    cases h
  · rw [hs] at h
    obtain ⟨storage, c, f, err, hx, hend⟩ := finish_eq_ok h
    obtain ⟨rfl, hstop, hpc⟩ := endPass_eq_next hend.symm
    obtain ⟨-, -, hc, hg⟩ := endPass_state (.inl hend.symm : _ ∨ _ = Outcome.halt e' none)
    refine ⟨?_, gas, storage, f, by rw [hc]; exact hx, hpc⟩
    rw [hg]
    dsimp only
    rw [execute_gas hx]
    exact hgas hstop

/-! ## The write map -/

/-- The storage of the contract at `addr` is `base` overwritten by the write map
of the tracer. -/
def WriteInv (addr : Address) (base storage : GoMap Address Storage) (l : StructLogger) : Prop :=
  ∀ k, getState storage addr k = ((l.changedValues.findD addr GoMap.empty).get? k).getD (getState base addr k)

/-- A tracer that has not seen the contract agrees with any storage as its base. -/
theorem writeInv_of_get?_none {addr : Address} {storage : GoMap Address Storage} {l : StructLogger}
    (h : l.changedValues.get? addr = none) : WriteInv addr storage storage l := by
  intro k
  simp [GoMap.findD, h]

theorem getState_setState (storage : GoMap Address Storage) (addr : Address) (k v j : Hash) :
    getState (setState storage addr k v) addr j = if j = k then v else getState storage addr j := by
  unfold getState setState
  rw [GoMap.findD_insert, if_pos rfl, GoMap.findD_insert]

theorem findD_initStorage (m : GoMap Address Storage) (addr : Address) :
    (StructLogger.initStorage m addr).findD addr GoMap.empty = m.findD addr GoMap.empty := by
  unfold StructLogger.initStorage
  split
  · rfl
  · rw [GoMap.findD_insert, if_pos rfl, GoMap.findD_of_not_mem ‹_›]

theorem findD_modify_initStorage (m : GoMap Address Storage) (addr : Address) (f : Storage → Storage) :
    ((StructLogger.initStorage m addr).modify addr f).findD addr GoMap.empty = f (m.findD addr GoMap.empty) := by
  have hmem : addr ∈ (StructLogger.initStorage m addr).keys := by
    unfold StructLogger.initStorage
    split
    · assumption
    · exact GoMap.mem_keys_insert m addr addr GoMap.empty |>.mpr (Or.inl rfl)
  obtain ⟨v, hv⟩ := GoMap.exists_get?_of_mem hmem
  rw [GoMap.findD_modify, if_pos rfl, hv, Option.map_some, Option.getD_some, ← findD_initStorage m addr,
    GoMap.findD_eq_of_get? hv]

/-- The slot and the value an operation stores, as `opSstore` pops them. -/
def sstoreArgs : OpCode → List Nat → Option (Hash × Hash)
  | .sstore, loc :: value :: _ => some (bigToHash loc, bigToHash value)
  | _, _ => none

/-- What `CaptureState` adds to the write map is what the operation stores. -/
theorem changed_captureState (l : StructLogger) (storage : GoMap Address Storage) (addr : Address) (op : OpCode)
    (stack : List Nat) :
    (l.captureState storage addr op stack).changedValues.findD addr GoMap.empty =
      match sstoreArgs op stack with
      | some (k, v) => (l.changedValues.findD addr GoMap.empty).insert k v
      | none => l.changedValues.findD addr GoMap.empty := by
  cases op <;> rcases stack with _ | ⟨a, _ | ⟨b, s⟩⟩ <;>
    simp [StructLogger.captureState, sstoreArgs, findD_initStorage, findD_modify_initStorage]

/-- The only operation that changes the storage is `SSTORE`, and it stores what it pops. -/
theorem execute_storage {addr : Address} {op : OpCode} {storage storage' : GoMap Address Storage}
    {c c' : Contract} {f f' : Frame} {err : Option VmError}
    (h : execute addr op storage c f = .ok (storage', c', f', err)) :
    storage' = match sstoreArgs op f.stack with
      | some (k, v) => setState storage addr k v
      | none => storage := by
  unfold execute at h
  split at h
  case h_5 =>
    obtain ⟨⟨c₁, f₁, err₁⟩, -, h⟩ := except_bind_eq_ok h
    cases h
    simp [sstoreArgs]
  case h_6 =>
    split at h
    · obtain ⟨⟨c₁, f₁, err₁⟩, -, h⟩ := except_bind_eq_ok h
      cases h
      simp [sstoreArgs]
    · cases h
      simp [sstoreArgs]
  all_goals (cases h; simp_all [sstoreArgs])

/-- One executed operation keeps the storage of the contract its base overwritten
by the write map: `CaptureState` sees the stack the operation pops. -/
theorem writeInv_execute {addr : Address} {base storage storage' : GoMap Address Storage} {l : StructLogger}
    (h : WriteInv addr base storage l) {op : OpCode} {c c' : Contract} {f f' : Frame} {err : Option VmError}
    (hx : execute addr op storage c f = .ok (storage', c', f', err)) :
    WriteInv addr base storage' (l.captureState storage addr op f.stack) := by
  intro k
  rw [execute_storage hx, changed_captureState]
  cases sstoreArgs op f.stack with
  | none => exact h k
  | some kv =>
    obtain ⟨k', v⟩ := kv
    dsimp only
    rw [getState_setState, GoMap.get?_insert]
    split_ifs
    · rfl
    · exact h k

/-- A pass that does not fail keeps the invariant. -/
theorem writeInv_of_step {addr : Address} {base : GoMap Address Storage} {e e' : Exec}
    (h : WriteInv addr base e.storage e.logger)
    (hs : step addr e = .ok (.next e') ∨ step addr e = .ok (.halt e' none)) :
    WriteInv addr base e'.storage e'.logger := by
  rcases step_cases addr e with ⟨db, err, hf⟩ | ⟨db, gas, -, hf⟩
  · rw [hf] at hs
    rcases hs with hs | hs <;> cases hs
  · rw [hf] at hs
    obtain ⟨o, ho, hend⟩ : ∃ o, e.finish addr db gas = .ok o ∧ (o = .next e' ∨ o = .halt e' none) := by
      rcases hs with hs | hs
      · exact ⟨_, hs, .inl rfl⟩
      · exact ⟨_, hs, .inr rfl⟩
    obtain ⟨storage, c, f, err, hx, rfl⟩ := finish_eq_ok ho
    obtain ⟨hst, hlog, -⟩ := endPass_state hend
    rw [hst, hlog]
    exact writeInv_execute (f := { e.frame with gas := gas }) h hx

/-- A run that returns without error keeps the invariant. -/
theorem writeInv_runLoop {addr : Address} {base : GoMap Address Storage} :
    ∀ (fuel : Nat) (e r : Exec), WriteInv addr base e.storage e.logger →
      runLoop addr fuel e = .ok (r, none) → WriteInv addr base r.storage r.logger
  | 0, _, _, _, h => by cases h
  | fuel + 1, e, r, hinv, h => by
    unfold runLoop at h
    split at h
    · rename_i e' hs
      exact writeInv_runLoop fuel e' r (writeInv_of_step hinv (.inl hs)) h
    · rename_i e' err hs
      cases h
      exact writeInv_of_step hinv (.inr hs)
    · cases h

theorem writeInv_run {c : Contract} {addr : Address} {gas : UInt64} {db : StateDB}
    {base storage : GoMap Address Storage} {logger : StructLogger} {r : Exec} (hinv : WriteInv addr base storage logger)
    (h : run c addr gas db storage logger = .ok (r, none)) : WriteInv addr base r.storage r.logger := by
  unfold run at h
  split at h
  · cases h
    exact hinv
  · exact writeInv_runLoop _ _ r hinv h

/-- A call that returns without error keeps the storage of the called contract its
base overwritten by the write map. -/
theorem writeInv_call {db : StateDB} {m : Machine} {caller addr : Address} {gas : UInt64} {value : Int}
    {base : GoMap Address Storage} {r : CallResult Machine} (hinv : WriteInv addr base m.storage m.logger)
    (h : call db m caller addr gas value = .ok r) (herr : r.err = none) :
    WriteInv addr base r.tracer.storage r.tracer.logger := by
  unfold call at h
  split at h
  · cases h
    cases herr
  · obtain ⟨⟨e, err⟩, hr, h⟩ := except_bind_eq_ok h
    cases err with
    | none =>
      cases h
      exact writeInv_run hinv hr
    | some err =>
      cases h
      cases herr

/-- A call that fails leaves the storage as it was. -/
theorem call_storage_of_err {db : StateDB} {m : Machine} {caller addr : Address} {gas : UInt64} {value : Int}
    {r : CallResult Machine} {err : VmError} (h : call db m caller addr gas value = .ok r) (herr : r.err = some err) :
    r.tracer.storage = m.storage := by
  unfold call at h
  split at h
  · cases h
    rfl
  · obtain ⟨⟨e, err'⟩, _, h⟩ := except_bind_eq_ok h
    cases err' with
    | none =>
      cases h
      cases herr
    | some err' =>
      cases h
      rfl

/-! ## Termination -/

/-- A pass from caches that are right never panics. -/
theorem step_ok {codeOf : Hash → Bytes} {addr : Address} {e : Exec} (hc : e.contract.WellFormed codeOf) :
    ∃ o, step addr e = .ok o := by
  rcases step_cases addr e with ⟨db, err, hs⟩ | ⟨db, gas, -, hs⟩
  · exact ⟨_, hs⟩
  · obtain ⟨⟨storage, c, f, err⟩, hx⟩ :=
      execute_ok hc addr (getOp e.contract.code e.frame.pc) e.storage { e.frame with gas := gas }
    exact ⟨_, by rw [hs, Exec.finish]; simp only [hx, except_ok_bind]; rfl⟩

/-- The loop stops, without a panic, within the gas it has: every pass that goes
on costs gas and keeps the caches right. -/
theorem runLoop_ok {codeOf : Hash → Bytes} (addr : Address) :
    ∀ (fuel : Nat) (e : Exec), e.contract.WellFormed codeOf → e.frame.gas.toNat ≤ fuel →
      ∃ r, runLoop addr (fuel + 1) e = .ok r := by
  intro fuel
  induction fuel with
  | zero =>
    intro e hc hgas
    obtain ⟨o, ho⟩ : ∃ o, step addr e = .ok o := step_ok hc
    cases o with
    | next e' =>
      have := (step_next_inv ho).1
      omega
    | halt e' err => exact ⟨_, by rw [runLoop, ho]⟩
  | succ fuel ih =>
    intro e hc hgas
    obtain ⟨o, ho⟩ : ∃ o, step addr e = .ok o := step_ok hc
    cases o with
    | next e' =>
      obtain ⟨hlt, gas, storage, f, hx, -⟩ := step_next_inv ho
      obtain ⟨r, hr⟩ := ih e' (wellFormed_execute hc hx).1 (by omega)
      exact ⟨r, by rw [runLoop, ho]; exact hr⟩
    | halt e' err => exact ⟨_, by rw [runLoop, ho]⟩

theorem run_ok {codeOf : Hash → Bytes} {c : Contract} (hc : c.WellFormed codeOf) (addr : Address) (gas : UInt64)
    (db : StateDB) (storage : GoMap Address Storage) (logger : StructLogger) :
    ∃ r, run c addr gas db storage logger = .ok r := by
  unfold run
  split
  · exact ⟨_, rfl⟩
  · exact runLoop_ok addr gas.toNat _ hc le_rfl

/-- The contract `Call` makes has right caches: they are empty. -/
theorem Machine.contract_wellFormed (m : Machine) (addr : Address) :
    (m.contract addr).WellFormed fun _ => m.code.findD addr [] :=
  ⟨fun _ => rfl, fun _ _ h => by simp [Machine.contract] at h, fun _ h => by simp [Machine.contract] at h⟩

/-- `Call` returns, whatever the code it runs. -/
theorem call_ok (db : StateDB) (m : Machine) (caller addr : Address) (gas : UInt64) (value : Int) :
    ∃ r, call db m caller addr gas value = .ok r := by
  unfold call
  split
  · exact ⟨_, rfl⟩
  · obtain ⟨⟨e, err⟩, hr⟩ := run_ok (m.contract_wellFormed addr) addr gas
      ((db.addBalance caller (-value)).addBalance addr value) m.storage m.logger
    dsimp only
    rw [hr, except_ok_bind]
    cases err <;> exact ⟨_, rfl⟩

/-! ## The read and write sets of `CallContractABI2` -/

/-- A call through `CallContractABI2` that fails leaves the storage as it was. -/
theorem callContractABI2_storage_of_err {db : StateDB} {m : Machine} {callerAddr c : Address} {value : Int}
    {inputs : Except String Bytes} {r : CallABIResult} {err : VmError}
    (h : callContractABI2 db m callerAddr c value inputs = .ok r) (herr : r.err = some err) :
    r.machine.storage = m.storage := by
  unfold callContractABI2 at h
  split at h
  · cases h
    rfl
  · obtain ⟨rc, hc, h⟩ := except_bind_eq_ok h
    cases h
    exact call_storage_of_err hc herr

/-- A call through `CallContractABI2` that succeeds, from a tracer that has not
seen the contract, leaves its storage the old one overwritten by the write map. -/
theorem callContractABI2_wMap_of_ok {db : StateDB} {m : Machine} {callerAddr c : Address} {value : Int}
    {inputs : Except String Bytes} {r : CallABIResult} (hfresh : m.logger.changedValues.get? c = none)
    (h : callContractABI2 db m callerAddr c value inputs = .ok r) (herr : r.err = none) (k : Hash) :
    getState r.machine.storage c k = ((r.wMap.getD GoMap.empty).get? k).getD (getState m.storage c k) := by
  unfold callContractABI2 at h
  split at h
  · cases h
    cases herr
  · obtain ⟨rc, hc, h⟩ := except_bind_eq_ok h
    cases h
    simpa [StructLogger.rwSetCapture, GoMap.findD] using writeInv_call (writeInv_of_get?_none hfresh) hc herr k

/-- The caller of the calls below. -/
def tracedCaller : Address := ⟨List.replicate 20 1, List.length_replicate⟩

/-- The contract they call. -/
def tracedContract : Address := ⟨List.replicate 20 2, List.length_replicate⟩

/-- `PUSH1 1 PUSH1 0 SSTORE`: slot 0 becomes 1. -/
def storeOne : Bytes := [0x60, 0x01, 0x60, 0x00, 0x55]

/-- `PUSH1 1 PUSH1 0 SLOAD SSTORE`: the slot named by slot 0 becomes 1. -/
def storeThroughSlot : Bytes := [0x60, 0x01, 0x60, 0x00, 0x54, 0x55]

/-- A fresh `LEVM` whose caller has `balance`, which `CallContractABI2` passes as
gas, and whose contract holds `code`. -/
def tracedSetup (balance : Int) (code : Bytes) : StateDB × Machine :=
  (⟨(GoMap.empty : GoMap Address Int).insert tracedCaller balance, GoMap.empty, 0⟩,
    ⟨(GoMap.empty : GoMap Address Bytes).insert tracedContract code, GoMap.empty, GoMap.empty, StructLogger.new⟩)

/-- The write map of `CallContractABI2` is not the call's effect on the
contract's storage. With 6 gas, `storeOne` pays for its two pushes and runs out
of gas at `SSTORE`: the call fails and the storage stays as it was, but the
deferred handler of `Run` captured the store, so the write map holds slot 0 as 1.
And the tracer is never reset: `storeThroughSlot` called twice writes slot 0 and
then slot 1, both calls succeed, and the write map of the second call still
holds slot 0, which a fresh tracer shows the second call does not write. -/
theorem rwSetCapture_not_call_effect :
    (∃ r, callContractABI2 (tracedSetup 6 storeOne).1 (tracedSetup 6 storeOne).2 tracedCaller tracedContract 0
        (.ok []) = .ok r ∧
      r.err = some .outOfGas ∧ r.machine.storage = (tracedSetup 6 storeOne).2.storage ∧
      (r.wMap.map fun w => w.get? (bigToHash 0)) = some (some (bigToHash 1))) ∧
    (∃ r₁ r₂ r₂', callContractABI2 (tracedSetup 100000 storeThroughSlot).1 (tracedSetup 100000 storeThroughSlot).2
        tracedCaller tracedContract 0 (.ok []) = .ok r₁ ∧
      callContractABI2 r₁.db r₁.machine tracedCaller tracedContract 0 (.ok []) = .ok r₂ ∧
      callContractABI2 r₁.db { r₁.machine with logger := StructLogger.new } tracedCaller tracedContract 0
        (.ok []) = .ok r₂' ∧
      r₁.err = none ∧ r₂.err = none ∧ r₂'.err = none ∧
      (r₂.wMap.map fun w => w.get? (bigToHash 0)) = some (some (bigToHash 1)) ∧
      (r₂'.wMap.map fun w => w.get? (bigToHash 0)) = some none ∧
      (r₂'.wMap.map fun w => w.get? (bigToHash 1)) = some (some (bigToHash 1))) := by
  refine ⟨⟨_, rfl, by decide, ?_, by decide⟩, ⟨_, _, _, rfl, rfl, rfl, by decide⟩⟩
  -- the failed call's storage is the one before it, by the general lemma
  exact @callContractABI2_storage_of_err (tracedSetup 6 storeOne).1 (tracedSetup 6 storeOne).2 tracedCaller
    tracedContract 0 (.ok []) _ .outOfGas rfl rfl

end Nezha
