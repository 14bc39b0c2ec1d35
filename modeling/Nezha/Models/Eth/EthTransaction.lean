import Nezha.Models.Eth.Rlp

/-!
# Ethereum transactions (`core/ethTransaction.go`)

`EthTransaction` wraps the signed fields `txdata` together with three caches.
`Hash` feeds `rlp.Encode(hw, tx)` to Keccak-256, with `tx` the
`*EthTransaction` itself, and `Size` counts the bytes of
`rlp.Encode(&c, &tx.data)`. Keccak-256 is a parameter of `hash`: the point of
this module is the bytes it is fed.

Every field of `EthTransaction` is unexported and the type has no `EncodeRLP`
method, so the encoder writes it as a struct with no field to encode: the
empty list `0xC0`, the same for every transaction. `txdata` has ten encoded
fields, so its encoding is never that one byte.

The cache `from` is left out of the model: nothing in the repository stores
into it, and the encoder never reads it.
-/

namespace Nezha

/-- `common.Address`, a `[20]byte`. -/
structure Address where
  bytes : Bytes
  length_eq : bytes.length = 20
  deriving DecidableEq

/-- `common.Hash`, a `[32]byte`. -/
structure Hash where
  bytes : Bytes
  length_eq : bytes.length = 32
  deriving DecidableEq

/-- The zero `common.Hash`. -/
def zeroHash : Hash := ⟨List.replicate 32 0, by simp⟩

/-- `txdata`. A `*big.Int` field is `none` when the pointer is nil. -/
structure Txdata where
  accountNonce : UInt64
  price : Option Int
  gasLimit : UInt64
  «from» : Option Address
  recipient : Option Address
  amount : Option Int
  payload : Bytes
  v : Option Int
  r : Option Int
  s : Option Int
  hash : Option Hash
  deriving DecidableEq

namespace Txdata

/-- A `txdata` for the encoder: every field exported, `Recipient` tagged
`rlp:"nil"` and `Hash` tagged `rlp:"-"`. A nil `*common.Address` or
`*common.Hash` encodes as the empty string, the `defaultNilKind` of a byte array. -/
def toValue (d : Txdata) : Rlp.Value :=
  .struct [
    (true, {}, .uint d.accountNonce),
    (true, {}, .bigIntPtr d.price),
    (true, {}, .uint d.gasLimit),
    (true, {}, .ptr .string (d.from.map fun a => .byteArray a.bytes)),
    (true, { nilOK := true, nilKind := .string }, .ptr .string (d.recipient.map fun a => .byteArray a.bytes)),
    (true, {}, .bigIntPtr d.amount),
    (true, {}, .bytes d.payload),
    (true, {}, .bigIntPtr d.v),
    (true, {}, .bigIntPtr d.r),
    (true, {}, .bigIntPtr d.s),
    (true, { ignored := true }, .ptr .string (d.hash.map fun h => .byteArray h.bytes))]

/-- The fields of a `txdata` hold no `RawValue` and no `Encoder`. -/
theorem rawAll_toValue (P : Bytes → Prop) (d : Txdata) : Rlp.RawAll P d.toValue := by
  obtain ⟨_, _, _, «from», recipient, _, _, _, _, _, hash⟩ := d
  cases «from» <;> cases recipient <;> cases hash <;> simp [toValue, Rlp.RawAll, Rlp.RawAllFields]

end Txdata

/-- `EthTransaction`: `data` and the caches `hash` and `size`. -/
structure EthTransaction where
  data : Txdata
  hashCache : Option Hash
  sizeCache : Option Nat

/-- `newEthTransaction(nonce, from, to, amount, gasLimit, gasPrice, data)`, the
body of `NewEthTransaction`: the amount, the price and the signature values are
fresh `big.Int`s, zero unless `amount` and `gasPrice` are given. -/
def newEthTransaction (nonce : UInt64) («from» «to» : Option Address) (amount : Option Int) (gasLimit : UInt64)
    (gasPrice : Option Int) (data : Bytes) : EthTransaction where
  data := ⟨nonce, some (gasPrice.getD 0), gasLimit, «from», «to», some (amount.getD 0), data,
    some 0, some 0, some 0, none⟩
  hashCache := none
  sizeCache := none

/-- `NewContractCreation`: no recipient. -/
def newContractCreation (nonce : UInt64) («from» : Option Address) (amount : Option Int) (gasLimit : UInt64)
    (gasPrice : Option Int) (data : Bytes) : EthTransaction :=
  newEthTransaction nonce «from» none amount gasLimit gasPrice data

namespace EthTransaction

/-- `atomic.Value`: a struct with one unexported field of interface type. -/
def atomicValue (v : Option Rlp.Value) : Rlp.Value := .struct [(false, {}, .iface v)]

/-- A `*EthTransaction` for the encoder: a struct of four unexported fields. The
cache `size` holds a `common.StorageSize`, a `float64`, which the encoder
rejects; `from` is never stored into. -/
def toValue (tx : EthTransaction) : Rlp.Value :=
  .ptr .list (some (.struct [
    (false, {}, tx.data.toValue),
    (false, {}, atomicValue (tx.hashCache.map fun h => .byteArray h.bytes)),
    (false, {}, atomicValue (tx.sizeCache.map fun _ => .unsupported)),
    (false, {}, atomicValue none)]))

/-- The bytes `rlp.Encode(hw, tx)` writes into the Keccak-256 state of `Hash`. -/
def hashInput (tx : EthTransaction) : Bytes := Rlp.encodeWritten tx.toValue

/-- `Hash()`: the cached hash, or the hash of `hashInput`, then cached. -/
def hash (keccak256 : Bytes → Hash) (tx : EthTransaction) : Hash × EthTransaction :=
  match tx.hashCache with
  | some h => (h, tx)
  | none =>
    let v := keccak256 tx.hashInput
    (v, { tx with hashCache := some v })

/-- The bytes `rlp.Encode(&c, &tx.data)` writes into the counter of `Size`. -/
def sizeInput (tx : EthTransaction) : Bytes := Rlp.encodeWritten (.ptr .list (some tx.data.toValue))

/-- `Size()`: the cached size, or the number of bytes of `sizeInput`, then cached. -/
def size (tx : EthTransaction) : Nat × EthTransaction :=
  match tx.sizeCache with
  | some s => (s, tx)
  | none =>
    let c := tx.sizeInput.length
    (c, { tx with sizeCache := some c })

/-- The encoder sees no field of an `EthTransaction`. -/
theorem hashInput_eq (tx : EthTransaction) : tx.hashInput = [0xC0] := by
  have h : Rlp.encode tx.toValue = .ok [0xC0] := by
    rw [Rlp.encode, toValue, Rlp.writeValue_ptr_some]
    exact Rlp.writeValue_struct_of_not_encoded (by simp [Rlp.Encoded])
  simp [hashInput, Rlp.encodeWritten, h]

/-- The ten encoded fields of `txdata` give an encoding of eleven bytes at least. -/
theorem encode_data_length {tx : EthTransaction} {b : Bytes}
    (h : Rlp.encode (.ptr .list (some tx.data.toValue)) = .ok b) : 11 ≤ b.length := by
  rw [Rlp.encode, Rlp.writeValue_ptr_some, Txdata.toValue] at h
  have h₁ := Rlp.length_writeValue_struct (tx.data.rawAll_toValue _) h
  simpa [Rlp.Encoded, Rlp.itemCount] using h₁

theorem sizeInput_length (tx : EthTransaction) : tx.sizeInput = [] ∨ 11 ≤ tx.sizeInput.length := by
  unfold sizeInput Rlp.encodeWritten
  split
  · rename_i b hb
    exact Or.inr (encode_data_length hb)
  · exact Or.inl rfl

/-- `Size()` of a transaction whose size is not cached yet. -/
theorem size_of_none {tx : EthTransaction} (h : tx.sizeCache = none) : tx.size.1 = tx.sizeInput.length := by
  simp [size, h]

/-- `Hash()` of a transaction whose hash is not cached yet. -/
theorem hash_of_none (keccak256 : Bytes → Hash) {tx : EthTransaction} (h : tx.hashCache = none) :
    (tx.hash keccak256).1 = keccak256 tx.hashInput := by
  simp [hash, h]

/-- `Hash` does not identify a transaction: `rlp.Encode(hw, tx)` writes the
empty list for every `EthTransaction`, so every transaction whose hash is not
cached yet gets the Keccak-256 of `0xC0`, two transactions built with different
nonces among them. What `Hash` feeds is never the encoding of `tx.data`, nor
as long as what `Size` counts. -/
theorem hash_ignores_txdata :
    (∀ tx : EthTransaction, tx.hashInput = [0xC0]) ∧
    (∀ (keccak256 : Bytes → Hash) (tx : EthTransaction), tx.hashCache = none →
      (tx.hash keccak256).1 = keccak256 [0xC0]) ∧
    (∀ (nonce nonce' : UInt64) («from» «to» : Option Address) (amount : Option Int) (gasLimit : UInt64)
        (gasPrice : Option Int) (data : Bytes), nonce ≠ nonce' →
      (newEthTransaction nonce «from» «to» amount gasLimit gasPrice data).data ≠
          (newEthTransaction nonce' «from» «to» amount gasLimit gasPrice data).data ∧
        (newEthTransaction nonce «from» «to» amount gasLimit gasPrice data).hashInput =
          (newEthTransaction nonce' «from» «to» amount gasLimit gasPrice data).hashInput) ∧
    (∀ tx : EthTransaction, Rlp.encode (.ptr .list (some tx.data.toValue)) ≠ .ok tx.hashInput) ∧
    (∀ tx : EthTransaction, tx.sizeCache = none → tx.size.1 ≠ tx.hashInput.length) := by
  refine ⟨hashInput_eq, fun keccak256 tx htx => ?_, fun nonce nonce' _ _ _ _ _ _ hne => ?_,
    fun tx h => ?_, fun tx htx => ?_⟩
  · rw [hash_of_none keccak256 htx, hashInput_eq]
  · exact ⟨fun h => hne (congrArg Txdata.accountNonce h), by rw [hashInput_eq, hashInput_eq]⟩
  · -- the encoding of `txdata` has eleven bytes at least
    have h₁ := encode_data_length h
    rw [hashInput_eq] at h₁
    simp at h₁
  · rw [size_of_none htx, hashInput_eq]
    rcases sizeInput_length tx with h | h
    · simp [h]
    · simp only [List.length_singleton]
      omega

end EthTransaction

end Nezha
