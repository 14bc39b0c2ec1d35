import Nezha.Models.Eth.EthTransaction
import Nezha.Core.GoMap
import Nezha.Core.Loop
import Mathlib.Tactic.Ring

/-!
# Replaying a transaction (`evm/levm/levm.go`)

`ReplayTransaction` re-implements the state transition of go-ethereum by hand:
it charges the intrinsic gas against the message's gas limit, increments the
sender's nonce and runs `evm.Call` (or `evm.Create`), then `RefundGas` credits
the sender with the gas left times the price and hands that gas back to the
pool, and the coinbase is credited with the gas used times the price. Nothing
is bought up front: there is no `SubGas` on the pool and no debit of the
sender, so a replay that returns without error raises the pool by the gas left
and the sum of all balances by `gasLimit × gasPrice`.

The interpreter is not part of this module: `EVM` takes `Call` and `Create` as
functions of the state and of the tracer's state `τ`, and `EVM.Conserving`
states what the results about the replay assume of `Call`: an EVM moves value
between accounts and never returns more gas than it was given. `IntrinsicGas` is a
parameter of `replayTransaction` too; `intrinsicGas` is go-ethereum's, for
evaluation. A `*big.Int` is an `Int`; a balance is one, and may go negative
as a `big.Int` can. A Go panic is the `.error` of the result, with its message;
an `error` that `ReplayTransaction` returns is the field `err` of a normal result.
-/

namespace Nezha

/-- `vm.Storage`, storage slots and their values. -/
abbrev Storage := GoMap Hash Hash

/-- The `error` values of `core/vm`, by the variable that holds them; those
made by `fmt.Errorf` by their message. -/
inductive VmError where
  | outOfGas
  | depth
  | insufficientBalance
  | traceLimitReached
  | executionReverted
  | writeProtection
  | other (msg : String)
  deriving DecidableEq, Repr

/-- The part of `state.StateDB` the replay reads and writes. -/
structure StateDB where
  balances : GoMap Address Int
  nonces : GoMap Address UInt64
  refund : UInt64

namespace StateDB

/-- `GetBalance(addr)`: zero for an account that does not exist. -/
def getBalance (db : StateDB) (addr : Address) : Int := db.balances.findD addr 0

/-- `AddBalance(addr, amount)`. -/
def addBalance (db : StateDB) (addr : Address) (amount : Int) : StateDB :=
  { db with balances := db.balances.insert addr (db.getBalance addr + amount) }

/-- `GetNonce(addr)`. -/
def getNonce (db : StateDB) (addr : Address) : UInt64 := db.nonces.findD addr 0

/-- `SetNonce(addr, nonce)`. -/
def setNonce (db : StateDB) (addr : Address) (nonce : UInt64) : StateDB :=
  { db with nonces := db.nonces.insert addr nonce }

/-- `GetRefund()`. -/
def getRefund (db : StateDB) : UInt64 := db.refund

/-- The sum of all account balances. -/
def totalBalance (db : StateDB) : Int := db.balances.sum

theorem totalBalance_addBalance (db : StateDB) (addr : Address) (amount : Int) :
    (db.addBalance addr amount).totalBalance = db.totalBalance + amount := by
  simp only [totalBalance, addBalance, GoMap.sum_insert, getBalance]
  abel

@[simp] theorem totalBalance_setNonce (db : StateDB) (addr : Address) (nonce : UInt64) :
    (db.setNonce addr nonce).totalBalance = db.totalBalance := rfl

end StateDB

/-- `types.Message`. -/
structure Message where
  «from» : Address
  «to» : Option Address
  nonce : UInt64
  amount : Option Int
  gasLimit : UInt64
  gasPrice : Int
  data : Bytes
  checkNonce : Bool

/-- `AsMessage()`: dereferencing a nil `From`, or copying a nil `Price`, panics. -/
def EthTransaction.asMessage (tx : EthTransaction) : Except String Message := do
  let some «from» := tx.data.from | throw "invalid memory address or nil pointer dereference"
  let some price := tx.data.price | throw "invalid memory address or nil pointer dereference"
  pure ⟨«from», tx.data.recipient, tx.data.accountNonce, tx.data.amount, tx.data.gasLimit, price,
    tx.data.payload, true⟩

theorem EthTransaction.asMessage_spec {tx : EthTransaction} {msg : Message} (h : tx.asMessage = .ok msg) :
    msg.to = tx.data.recipient ∧ msg.gasLimit = tx.data.gasLimit ∧ msg.gasPrice = tx.data.price.getD 0 := by
  unfold EthTransaction.asMessage at h
  split at h
  · split at h
    · cases h
      simp_all
    · cases h
  · cases h

/-- `vminterface.StateTrans`, without `Gp`: the pool's value is threaded by the replay. -/
structure StateTrans where
  msg : Message
  gas : UInt64
  gasPrice : Int
  initialGas : UInt64
  value : Option Int
  data : Bytes

namespace StateTrans

/-- `NewStateTrans(msg, gp)`. -/
def newStateTrans (msg : Message) : StateTrans := ⟨msg, msg.gasLimit, msg.gasPrice, msg.gasLimit, msg.amount, msg.data⟩

/-- `UseGas(amount)`. -/
def useGas (st : StateTrans) (amount : UInt64) : Except VmError StateTrans :=
  if st.gas < amount then .error .outOfGas else .ok { st with gas := st.gas - amount }

/-- `GasUsed()`. -/
def gasUsed (st : StateTrans) : UInt64 := st.initialGas - st.gas

theorem useGas_eq {st st' : StateTrans} {amount : UInt64} (h : st.useGas amount = .ok st') :
    st' = { st with gas := st.gas - amount } ∧ amount ≤ st.gas := by
  unfold useGas at h
  split at h
  · cases h
  · cases h
    exact ⟨rfl, UInt64.not_lt.mp ‹_›⟩

/-- Gas used and refunded: what comes back stays within the initial gas, and
`+` does not wrap. -/
theorem add_le_initialGas {gas initial r : UInt64} (hg : gas ≤ initial) (hr : r ≤ (initial - gas) / 2) :
    (gas + r).toNat = gas.toNat + r.toNat ∧ gas + r ≤ initial := by
  have hi := initial.toNat_lt
  rw [UInt64.le_iff_toNat_le] at hg hr ⊢
  rw [UInt64.toNat_div, UInt64.toNat_sub_of_le _ _ (UInt64.le_iff_toNat_le.mpr hg)] at hr
  simp only [UInt64.reduceToNat] at hr
  have hsum : (gas + r).toNat = gas.toNat + r.toNat := by
    rw [UInt64.toNat_add]
    omega
  exact ⟨hsum, by omega⟩

/-- The gas left and the gas used make up the initial gas, in the price they are paid at. -/
theorem fees_eq {st : StateTrans} (h : st.gas ≤ st.initialGas) :
    (st.gas.toNat : Int) * st.gasPrice + (st.gasUsed.toNat : Int) * st.gasPrice =
      (st.initialGas.toNat : Int) * st.gasPrice := by
  have hle : st.gas.toNat ≤ st.initialGas.toNat := UInt64.le_iff_toNat_le.mp h
  rw [gasUsed, UInt64.toNat_sub_of_le _ _ h, Nat.cast_sub hle]
  ring

/-- `UseGas` keeps the gas within the initial gas. -/
theorem useGas_le {st st' : StateTrans} {amount : UInt64} (h : st.useGas amount = .ok st')
    (hst : st.gas ≤ st.initialGas) : st'.gas ≤ st'.initialGas ∧ st'.initialGas = st.initialGas ∧
      st'.gasPrice = st.gasPrice ∧ st'.value = st.value := by
  obtain ⟨rfl, hle⟩ := useGas_eq h
  refine ⟨?_, rfl, rfl, rfl⟩
  show st.gas - amount ≤ st.initialGas
  rw [UInt64.le_iff_toNat_le] at hst hle ⊢
  rw [UInt64.toNat_sub_of_le _ _ (UInt64.le_iff_toNat_le.mpr hle)]
  omega

end StateTrans

/-- `(*GasPool).AddGas(amount)`. -/
def GasPool.addGas (gp amount : UInt64) : Except String UInt64 :=
  if gp > 0xFFFFFFFFFFFFFFFF - amount then throw "gas pool pushed above uint64" else pure (gp + amount)

theorem GasPool.toNat_addGas {gp amount gp' : UInt64} (h : GasPool.addGas gp amount = .ok gp') :
    gp'.toNat = gp.toNat + amount.toNat := by
  unfold GasPool.addGas at h
  split at h
  · cases h
  · rename_i hle
    cases h
    have ha := amount.toNat_lt
    have hle' : gp.toNat ≤ 0xFFFFFFFFFFFFFFFF - amount.toNat := by
      simp only [gt_iff_lt, UInt64.not_lt, UInt64.le_iff_toNat_le] at hle
      rw [UInt64.toNat_sub_of_le _ _ (UInt64.le_iff_toNat_le.mpr (by simp; omega))] at hle
      simpa using hle
    rw [UInt64.toNat_add]
    omega

/-- `IntrinsicGas(data, contractCreation, isHomestead, isEIP2028)` of go-ethereum
(`params.TxGas`, `TxGasContractCreation`, `TxDataNonZeroGasFrontier`,
`TxDataNonZeroGasEIP2028` and `TxDataZeroGas`). -/
def intrinsicGas (data : Bytes) (contractCreation isHomestead isEIP2028 : Bool) : Except VmError UInt64 :=
  let gas : UInt64 := if contractCreation && isHomestead then 53000 else 21000
  if 0 < data.length then
    let nz : UInt64 := (data.countP (· ≠ 0)).toUInt64
    let nonZeroGas : UInt64 := if isEIP2028 then 16 else 68
    if (0xFFFFFFFFFFFFFFFF - gas) / nonZeroGas < nz then .error .outOfGas
    else
      let gas := gas + nz * nonZeroGas
      let z := data.length.toUInt64 - nz
      if (0xFFFFFFFFFFFFFFFF - gas) / 4 < z then .error .outOfGas
      else .ok (gas + z * 4)
  else .ok gas

/-- What `evm.Call` returns, with the state and the tracer after the call. -/
structure CallResult (τ : Type) where
  db : StateDB
  tracer : τ
  output : Bytes
  leftOverGas : UInt64
  err : Option VmError

/-- What `evm.Create` returns, with the state and the tracer after it. -/
structure CreateResult (τ : Type) where
  db : StateDB
  tracer : τ
  output : Bytes
  address : Address
  leftOverGas : UInt64
  err : Option VmError

/-- `vm.EVM`'s `Call(caller, addr, input, gas, value)` and
`Create(caller, code, gas, value)`, on the state and on a tracer state `τ`. -/
structure EVM (τ : Type) where
  call : StateDB → τ → Address → Address → Bytes → UInt64 → Int → CallResult τ
  create : StateDB → τ → Address → Bytes → UInt64 → Int → CreateResult τ

/-- A conserving EVM: `Call` moves balances between accounts only, and it
returns at most the gas it was given. -/
structure EVM.Conserving {τ : Type} (evm : EVM τ) : Prop where
  totalBalance_call : ∀ db t caller addr input gas value,
    (evm.call db t caller addr input gas value).db.totalBalance = db.totalBalance
  leftOverGas_call_le : ∀ db t caller addr input gas value,
    (evm.call db t caller addr input gas value).leftOverGas ≤ gas

/-- `LEVM`: the state, the tracer (`structLogger`), and what the replay reads
of `evm`: the coinbase and the chain rules at its block. -/
structure LEVM (τ : Type) where
  stateDB : StateDB
  structLogger : τ
  coinbase : Address
  isHomestead : Bool
  isIstanbul : Bool

/-- What `ReplayTransaction` returns, with the `LEVM` and the pool after it. -/
structure Replay (τ : Type) where
  lvm : LEVM τ
  gp : UInt64
  rMap : Option Storage
  wMap : Option Storage
  output : Bytes
  err : Option VmError

namespace LEVM

variable {τ : Type}

/-- `RefundGas(st)`: the state, the pool and `st` after it. -/
def refundGas (lvm : LEVM τ) (gp : UInt64) (st : StateTrans) : Except String (LEVM τ × UInt64 × StateTrans) := do
  let refund := if st.gasUsed / 2 > lvm.stateDB.getRefund then lvm.stateDB.getRefund else st.gasUsed / 2
  let st := { st with gas := st.gas + refund }
  let remaining := (st.gas.toNat : Int) * st.gasPrice
  let lvm := { lvm with stateDB := lvm.stateDB.addBalance st.msg.from remaining }
  let gp ← GasPool.addGas gp st.gas
  pure (lvm, gp, st)

/-- `RefundGas` on a transition that has not used more gas than it had: the gas
left stays within the initial gas, the sender is credited with it at the
price, and the pool takes it back. -/
theorem refundGas_spec {lvm lvm' : LEVM τ} {gp gp' : UInt64} {st st' : StateTrans} (hst : st.gas ≤ st.initialGas)
    (h : lvm.refundGas gp st = .ok (lvm', gp', st')) :
    st'.gas ≤ st'.initialGas ∧ st'.initialGas = st.initialGas ∧ st'.gasPrice = st.gasPrice ∧
      lvm'.coinbase = lvm.coinbase ∧
      lvm'.stateDB.totalBalance = lvm.stateDB.totalBalance + (st'.gas.toNat : Int) * st.gasPrice ∧
      gp'.toNat = gp.toNat + st'.gas.toNat := by
  unfold refundGas at h
  dsimp only at h
  obtain ⟨gp'', hgp, h⟩ := except_bind_eq_ok h
  cases h
  -- the refund is capped by half the gas used
  have hr : (if st.gasUsed / 2 > lvm.stateDB.getRefund then lvm.stateDB.getRefund else st.gasUsed / 2) ≤
      (st.initialGas - st.gas) / 2 := by
    split
    · exact UInt64.le_of_lt ‹_›
    · exact UInt64.le_refl _
  obtain ⟨-, hle⟩ := StateTrans.add_le_initialGas hst hr
  exact ⟨hle, rfl, rfl, rfl, StateDB.totalBalance_addBalance _ _ _, GasPool.toNat_addGas hgp⟩

/-- The branch of `ReplayTransaction` that runs the message: `Create` for a
message without recipient, otherwise the nonce increment and `Call`. The
state and the tracer after it, `st` with the gas left, the output and the VM
error. -/
def execute (evm : EVM τ) (lvm : LEVM τ) (msg : Message) (st : StateTrans) (value : Int) :
    LEVM τ × StateTrans × Bytes × Option VmError :=
  match msg.to with
  | none =>
    let r := evm.create lvm.stateDB lvm.structLogger msg.from st.data st.gas value
    ({ lvm with stateDB := r.db, structLogger := r.tracer }, { st with gas := r.leftOverGas }, r.output, r.err)
  | some «to» =>
    let db := lvm.stateDB.setNonce msg.from (lvm.stateDB.getNonce msg.from + 1)
    let r := evm.call db lvm.structLogger msg.from «to» st.data st.gas value
    ({ lvm with stateDB := r.db, structLogger := r.tracer }, { st with gas := r.leftOverGas }, r.output, r.err)

/-- The end of `ReplayTransaction` after a run that did not fail for lack of
balance: `RefundGas`, the fee to the coinbase, and for a call the read and
write sets of the contract called. The `err` returned is the `nil` of the
intrinsic gas checks. -/
def settle (rwSetCapture : τ → Address → Storage × Storage) (lvm : LEVM τ) (gp : UInt64) (msg : Message)
    (st : StateTrans) (output : Bytes) : Except String (Replay τ) := do
  let (lvm, gp, st) ← lvm.refundGas gp st
  let lvm := { lvm with stateDB := lvm.stateDB.addBalance lvm.coinbase ((st.gasUsed.toNat : Int) * st.gasPrice) }
  match msg.to with
  | some «to» =>
    let (rMap, wMap) := rwSetCapture lvm.structLogger «to»
    pure ⟨lvm, gp, some rMap, some wMap, output, none⟩
  | none => pure ⟨lvm, gp, none, none, output, none⟩

/-- A call moves no balance in total and returns at most the gas it was given. -/
theorem execute_call {evm : EVM τ} (hevm : evm.Conserving) {msg : Message} {«to» : Address}
    (hto : msg.to = some «to») (lvm : LEVM τ) (st : StateTrans) (value : Int) :
    (lvm.execute evm msg st value).1.stateDB.totalBalance = lvm.stateDB.totalBalance ∧
      (lvm.execute evm msg st value).1.coinbase = lvm.coinbase ∧
      (lvm.execute evm msg st value).2.1.gas ≤ st.gas ∧
      (lvm.execute evm msg st value).2.1.initialGas = st.initialGas ∧
      (lvm.execute evm msg st value).2.1.gasPrice = st.gasPrice := by
  unfold execute
  rw [hto]
  exact ⟨(hevm.totalBalance_call _ _ _ _ _ _ _).trans (StateDB.totalBalance_setNonce _ _ _), rfl,
    hevm.leftOverGas_call_le _ _ _ _ _ _ _, rfl, rfl⟩

/-- The end of a replay credits the initial gas at its price, in refunds and
fees together, and gives the pool back the gas left. -/
theorem settle_spec {rwSetCapture : τ → Address → Storage × Storage} {lvm : LEVM τ} {gp : UInt64} {msg : Message}
    {st : StateTrans} {output : Bytes} {r : Replay τ} (hst : st.gas ≤ st.initialGas)
    (h : lvm.settle rwSetCapture gp msg st output = .ok r) :
    r.lvm.stateDB.totalBalance = lvm.stateDB.totalBalance + (st.initialGas.toNat : Int) * st.gasPrice ∧
      gp.toNat ≤ r.gp.toNat ∧ r.err = none := by
  unfold settle at h
  obtain ⟨⟨lvm', gp', st'⟩, hrefund, h⟩ := except_bind_eq_ok h
  obtain ⟨hle, hinit, hprice, -, htotal, hgp⟩ := refundGas_spec hst hrefund
  have hfees := StateTrans.fees_eq hle
  rw [hinit, hprice] at hfees
  -- the two branches return the same state and pool
  have hsettled : (lvm'.stateDB.addBalance lvm'.coinbase ((st'.gasUsed.toNat : Int) * st'.gasPrice)).totalBalance =
      lvm.stateDB.totalBalance + (st.initialGas.toNat : Int) * st.gasPrice := by
    rw [StateDB.totalBalance_addBalance, htotal, hprice, add_assoc, hfees]
  dsimp only at h
  split at h <;>
  · cases h
    refine ⟨hsettled, ?_, rfl⟩
    dsimp only
    omega

/-- `ReplayTransaction(tx, gp)`, with `intrinsic` for `core.IntrinsicGas` and
`rwSetCapture` for `structLogger.RWSetCapture`. A nil amount reaches `Call` or
`Create`, whose balance check dereferences it. -/
def replayTransaction (evm : EVM τ) (intrinsic : Bytes → Bool → Bool → Bool → Except VmError UInt64)
    (rwSetCapture : τ → Address → Storage × Storage) (lvm : LEVM τ) (tx : EthTransaction) (gp : UInt64) :
    Except String (Replay τ) := do
  let msg ← tx.asMessage
  let st := StateTrans.newStateTrans msg
  match intrinsic st.data msg.to.isNone lvm.isHomestead lvm.isIstanbul with
  | .error e => pure ⟨lvm, gp, none, none, [], some e⟩
  | .ok gas =>
    match st.useGas gas with
    | .error e => pure ⟨lvm, gp, none, none, [], some e⟩
    | .ok st =>
      let some value := st.value | throw "invalid memory address or nil pointer dereference"
      let (lvm, st, output, vmerr) := lvm.execute evm msg st value
      if vmerr = some .insufficientBalance then pure ⟨lvm, gp, none, none, [], vmerr⟩
      else lvm.settle rwSetCapture gp msg st output

/-- A replay of a call that returns without error raises the sum of all
balances by `gasLimit × gasPrice` and does not shrink the pool: the intrinsic
gas is charged against the limit only, `Call` moves balances only, and the
refund and the fee credit the gas left and the gas used at the price. -/
theorem replayTransaction_call_spec {evm : EVM τ} (hevm : evm.Conserving)
    {intrinsic : Bytes → Bool → Bool → Bool → Except VmError UInt64} {rwSetCapture : τ → Address → Storage × Storage}
    {lvm : LEVM τ} {tx : EthTransaction} {gp : UInt64} {r : Replay τ} (hto : tx.data.recipient.isSome)
    (h : lvm.replayTransaction evm intrinsic rwSetCapture tx gp = .ok r) (herr : r.err = none) :
    r.lvm.stateDB.totalBalance = lvm.stateDB.totalBalance + (tx.data.gasLimit.toNat : Int) * tx.data.price.getD 0 ∧
      gp.toNat ≤ r.gp.toNat := by
  unfold replayTransaction at h
  obtain ⟨msg, hmsg, h⟩ := except_bind_eq_ok h
  obtain ⟨hmsgTo, hlimit, hprice⟩ := EthTransaction.asMessage_spec hmsg
  obtain ⟨«to», hto'⟩ := Option.isSome_iff_exists.mp hto
  dsimp only at h
  -- the intrinsic gas and `UseGas` either return an error or charge the limit
  split at h
  · cases h
    cases herr
  split at h
  · cases h
    cases herr
  rename_i st hst
  split at h
  · rename_i value hvalue
    obtain ⟨hle, hinit₁, hprice₁, -⟩ := StateTrans.useGas_le hst (UInt64.le_refl _)
    obtain ⟨htotal, -, hgas, hinit, hpr⟩ := execute_call hevm (hmsgTo.trans hto') lvm st value
    split at h
    · -- `ErrInsufficientBalance` is returned
      rename_i hins
      cases h
      rw [hins] at herr
      cases herr
    · have hst_le : (execute evm lvm msg st value).2.1.gas ≤ (execute evm lvm msg st value).2.1.initialGas := by
        rw [hinit]
        exact UInt64.le_trans hgas hle
      obtain ⟨htot, hgp, -⟩ := settle_spec hst_le h
      refine ⟨?_, hgp⟩
      rw [htot, htotal, hinit, hpr, hinit₁, hprice₁]
      simp [StateTrans.newStateTrans, hlimit, hprice]
  · cases h

end LEVM

/-- `Call` into an account without code with no value: nothing moves, and all
the gas comes back. -/
def idleEVM : EVM Unit where
  call := fun db t _ _ _ gas _ => ⟨db, t, [], gas, none⟩
  create := fun db t caller _ gas _ => ⟨db, t, [], caller, gas, none⟩

theorem idleEVM_conserving : idleEVM.Conserving :=
  ⟨fun _ _ _ _ _ _ _ => rfl, fun _ _ _ _ _ gas _ => UInt64.le_refl gas⟩

/-- A call that moves no value, at gas price one, with the intrinsic gas of a call as its limit. -/
def feeOnlyTx : EthTransaction :=
  newEthTransaction 0 (some ⟨List.replicate 20 1, rfl⟩) (some ⟨List.replicate 20 2, rfl⟩) (some 0) 21000 (some 1) []

/-- An `LEVM` on an empty state, with every fork active. -/
def freshLEVM : LEVM Unit := ⟨⟨GoMap.empty, GoMap.empty, 0⟩, (), ⟨List.replicate 20 3, rfl⟩, true, true⟩

/-- Replaying a call does not conserve ether or gas: for every `Call` that only
moves balances and returns at most the gas it was given, and every
`IntrinsicGas`, a replay of a call that returns without error raises the sum
of all balances by `gasLimit × gasPrice` and never shrinks the pool. On a call
at gas price one with limit 21000, the coinbase is credited 21000 out of
nothing and the pool keeps its 21000. -/
theorem replayTransaction_mints_gas :
    (∀ {τ : Type} (evm : EVM τ), evm.Conserving →
      ∀ (intrinsic : Bytes → Bool → Bool → Bool → Except VmError UInt64)
        (rwSetCapture : τ → Address → Storage × Storage) (lvm : LEVM τ) (tx : EthTransaction) (gp : UInt64)
        (r : Replay τ), tx.data.recipient.isSome → lvm.replayTransaction evm intrinsic rwSetCapture tx gp = .ok r →
        r.err = none →
        r.lvm.stateDB.totalBalance = lvm.stateDB.totalBalance + (tx.data.gasLimit.toNat : Int) * tx.data.price.getD 0 ∧
          gp.toNat ≤ r.gp.toNat) ∧
    idleEVM.Conserving ∧
    ∃ r, freshLEVM.replayTransaction idleEVM intrinsicGas (fun _ _ => (GoMap.empty, GoMap.empty)) feeOnlyTx 21000 =
        .ok r ∧ r.err = none ∧ r.gp = 21000 ∧ r.lvm.stateDB.totalBalance = freshLEVM.stateDB.totalBalance + 21000 :=
  ⟨fun _ hevm _ _ _ _ _ _ hto h herr => LEVM.replayTransaction_call_spec hevm hto h herr, idleEVM_conserving,
    ⟨_, rfl, rfl, rfl, by decide⟩⟩

end Nezha
