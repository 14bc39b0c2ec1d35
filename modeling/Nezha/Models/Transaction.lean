import Nezha.Core.Loop
import Nezha.Models.Eth.Rlp
import Mathlib.Data.Nat.Digits.Defs

/-!
# Transactions of the chain (`core/transaction.go`)

`Hash` is the SHA-256 of the `gob` encoding of a copy with an empty `ID`; both
library functions are parameters (`Primitives`), as are the two libraries the
signing code rests on, `crypto/ecdsa` and `github.com/tv42/base58`, each with
the law the round trip of signing assumes of it.

`GenerateNonce` computes the hash once, before its loop, and the loop only
increments the nonce: it returns at once with the nonce it was given, or never.
A nil prefix is never `DeepEqual` to the non-nil slice `newTHash[:0]`.

`Sign` signs `fmt.Sprintf("%x\n", *tx)`, which is the hexadecimal text of
`tx.String()` since `Transaction` has a `String` method, and stores the raw bytes
of `r` and `s`; `VerifyTransaction` checks the signature against `Hash()`, a
different message, after decoding the raw bytes as base58. A byte of the
signature outside the alphabet makes the decoder fail and `splitBig` dereference
the nil result.
-/

namespace Nezha

/-- A `[32]byte`, as `sha256.Sum256` returns it. -/
structure Digest where
  bytes : Bytes
  length_eq : bytes.length = 32

/-- Two digests are equal when their bytes are. -/
instance : DecidableEq Digest := fun a b =>
  decidable_of_iff (a.bytes = b.bytes) ⟨fun h => by cases a; cases b; cases h; rfl, congrArg Digest.bytes⟩

/-- `TransactionHeader`. -/
structure TransactionHeader where
  «from» : Bytes
  «to» : Bytes
  timestamp : UInt32
  payloadHash : Digest
  payloadLength : UInt32
  nonce : UInt32
  deriving DecidableEq

/-- `Transaction`. -/
structure Transaction where
  header : TransactionHeader
  signature : Bytes
  payload : Bytes
  id : Bytes
  deriving DecidableEq

/-- The library functions `Hash` is built from: `sha256.Sum256`, and the `gob`
encoding `Serialize` writes. -/
structure Primitives where
  sha256 : Bytes → Digest
  serialize : Transaction → Bytes

/-- `crypto/ecdsa` on P-256 with the law the round trip assumes: a signature of a
message verifies for that message under the matching public key. `sign` is
`ecdsa.Sign` for the random stream its call draws. -/
structure Ecdsa where
  publicKey : Nat → Nat × Nat
  sign : Nat → Bytes → Nat × Nat
  verify : Nat × Nat → Bytes → Nat → Nat → Bool
  verify_sign : ∀ d m, verify (publicKey d) m (sign d m).1 (sign d m).2 = true

/-- The alphabet of `github.com/tv42/base58`, Bitcoin's: the digits and letters
without `0`, `O`, `I` and `l`. -/
def base58Alphabet : List UInt8 :=
  (List.range' 49 9 ++ List.range' 65 8 ++ List.range' 74 5 ++ List.range' 80 11 ++
    List.range' 97 11 ++ List.range' 109 14).map Nat.toUInt8

/-- `github.com/tv42/base58`, which the repository does not vendor: `DecodeToBig`
inverts `EncodeBig`, and fails, returning nil, on a byte outside the alphabet. -/
structure Base58 where
  encodeBig : Nat → Bytes
  decodeToBig : Bytes → Option Nat
  decode_encode : ∀ n, decodeToBig (encodeBig n) = some n
  decode_corrupt : ∀ b, (∃ c ∈ b, c ∉ base58Alphabet) → decodeToBig b = none

/-- `reflect.DeepEqual` on two `[]byte`, each nil (`none`) or not: a nil slice is
equal only to a nil one. -/
def deepEqualBytes : Option Bytes → Option Bytes → Bool
  | none, none => true
  | some a, some b => a == b
  | _, _ => false

/-- The panic of a method call through a nil `*big.Int`. -/
def nilDereference : String := "runtime error: invalid memory address or nil pointer dereference"

/-- `splitBig(b, parts)`: the bytes of `b`, padded in front to an even length, cut
into `parts` pieces of equal length. -/
def splitBig (b : Option Nat) (parts : Nat) : Except String (List Nat) := do
  let some b := b | throw nilDereference
  let bs := Rlp.bigIntBytes b
  let bs := if bs.length % 2 ≠ 0 then 0 :: bs else bs
  if parts = 0 then throw "runtime error: integer divide by zero"
  let l := bs.length / parts
  pure ((List.range parts).map fun i => setBytes ((bs.drop (i * l)).take l))

/-- `SignatureVerify(publicKey, sig, hash)`. The errors of `DecodeToBig` are
dropped; `splitBig` returns two numbers, so the indexing cannot fail. -/
def signatureVerify (b58 : Base58) (ecdsa : Ecdsa) (publicKey sig hash : Bytes) : Except String Bool := do
  let pubL ← splitBig (b58.decodeToBig publicKey) 2
  let sigL ← splitBig (b58.decodeToBig sig) 2
  pure (ecdsa.verify (pubL.getD 0 0, pubL.getD 1 0) hash (sigL.getD 0 0) (sigL.getD 1 0))

/-- The big integer `X||Y` of a public key, as `SignatureVerify` splits it. -/
def publicKeyBig (pub : Nat × Nat) : Nat := setBytes (Rlp.bigIntBytes pub.1 ++ Rlp.bigIntBytes pub.2)

namespace Transaction

/-- `Hash()`: the SHA-256 of the encoding of a copy with an empty `ID`. -/
def hash (p : Primitives) (tx : Transaction) : Bytes := (p.sha256 (p.serialize { tx with id := [] })).bytes

/-- The text `"--- Transaction "`. -/
def stringHead : Bytes := [45, 45, 45, 32, 84, 114, 97, 110, 115, 97, 99, 116, 105, 111, 110, 32]

/-- `String()`: `fmt.Sprintf("--- Transaction %x:", tx.ID)`. -/
def string (tx : Transaction) : Bytes := stringHead ++ sprintfHex tx.id ++ [58]

/-- `fmt.Sprintf("%x\n", *tx)`, the bytes `Sign` signs: `%x` prints the result of
the `String` method in hexadecimal, in place of the fields. -/
def dataToSign (tx : Transaction) : Bytes := sprintfHex tx.string ++ [10]

/-- `Sign(privateKey)`: the signature is `r.Bytes()` followed by `s.Bytes()`. -/
def sign (ecdsa : Ecdsa) (tx : Transaction) (privateKey : Nat) : Transaction :=
  let rs := ecdsa.sign privateKey tx.dataToSign
  { tx with signature := Rlp.bigIntBytes rs.1 ++ Rlp.bigIntBytes rs.2 }

/-- `VerifyTransaction()`: `&&` calls `SignatureVerify` only when the payload hash
matches. -/
def verifyTransaction (p : Primitives) (b58 : Base58) (ecdsa : Ecdsa) (tx : Transaction) : Except String Bool :=
  let txHash := tx.hash p
  if p.sha256 tx.payload = tx.header.payloadHash then
    signatureVerify b58 ecdsa tx.header.from tx.signature txHash
  else pure false

/-- `tx` with the header's nonce set to `n`. -/
def withNonce (tx : Transaction) (n : UInt32) : Transaction := { tx with header := { tx.header with nonce := n } }

/-- `GenerateNonce(prefix)`: `newT` is `tx` itself and `newTHash` is computed once,
before the loop. -/
def generateNonce (p : Primitives) (tx : Transaction) (pfx : Option Bytes) (fuel : Nat) :
    Except Fault (UInt32 × Transaction) := do
  let newTHash := tx.hash p
  let len := (pfx.getD []).length
  -- `newTHash[:len(prefix)]` panics past the 32 bytes of the hash
  if newTHash.length < len then throw .indexOutOfRange
  let newT ← whileM (fun _ => !deepEqualBytes pfx (some (newTHash.take len)))
    (fun t => pure (t.withNonce (t.header.nonce + 1))) fuel tx
  pure (newT.header.nonce, newT)

@[simp] theorem length_hash (p : Primitives) (tx : Transaction) : (tx.hash p).length = 32 :=
  (p.sha256 _).length_eq

@[simp] theorem length_dataToSign (tx : Transaction) : tx.dataToSign.length = 35 + 4 * tx.id.length := by
  simp [dataToSign, string, stringHead]
  omega

/-- The message `Sign` signs is never one `VerifyTransaction` checks: the text is
longer than any hash. -/
theorem dataToSign_ne_hash (p : Primitives) (tx tx' : Transaction) : tx.dataToSign ≠ tx'.hash p := by
  intro h
  have h₁ := congrArg List.length h
  simp only [length_dataToSign, length_hash] at h₁
  omega

@[simp] theorem sign_header (ecdsa : Ecdsa) (tx : Transaction) (privateKey : Nat) :
    (tx.sign ecdsa privateKey).header = tx.header := rfl

@[simp] theorem sign_payload (ecdsa : Ecdsa) (tx : Transaction) (privateKey : Nat) :
    (tx.sign ecdsa privateKey).payload = tx.payload := rfl

/-! ## `GenerateNonce` -/

section GenerateNonce

variable (p : Primitives) (tx : Transaction) (pfx : Option Bytes)

/-- The loop of `GenerateNonce` tests the same bytes at every pass. -/
def Matches : Bool := deepEqualBytes pfx (some ((tx.hash p).take (pfx.getD []).length))

theorem generateNonce_of_long {fuel : Nat} (h : 32 < (pfx.getD []).length) :
    tx.generateNonce p pfx fuel = .error .indexOutOfRange := by
  simp only [generateNonce, length_hash, if_pos h]
  rfl

/-- Up to 32 bytes the slice is in range, and `GenerateNonce` is its loop. -/
theorem generateNonce_eq_loop (hlen : (pfx.getD []).length ≤ 32) (fuel : Nat) :
    tx.generateNonce p pfx fuel = (fun t => (t.header.nonce, t)) <$>
      whileM (fun _ => !Matches p tx pfx) (fun t => pure (t.withNonce (t.header.nonce + 1))) fuel tx := by
  simp only [generateNonce, Matches, length_hash, if_neg (Nat.not_lt.mpr hlen)]
  rfl

/-- A prefix the hash already has ends the search at once, with the nonce as it was. -/
theorem generateNonce_of_matches (h : Matches p tx pfx = true) (hlen : (pfx.getD []).length ≤ 32)
    (fuel : Nat) : tx.generateNonce p pfx fuel = .ok (tx.header.nonce, tx) := by
  rw [generateNonce_eq_loop p tx pfx hlen, whileM.of_not_cond (by simp [h])]
  rfl

/-- A prefix the hash does not have keeps the loop incrementing the nonce for
ever: no fuel is enough. -/
theorem generateNonce_of_not_matches (h : Matches p tx pfx = false) (hlen : (pfx.getD []).length ≤ 32)
    (fuel : Nat) : tx.generateNonce p pfx fuel = .error .outOfFuel := by
  -- the guard reads only `newTHash`, which no pass changes
  have hloop : whileM (fun _ => !Matches p tx pfx) (fun t => pure (t.withNonce (t.header.nonce + 1))) fuel tx =
      .error .outOfFuel :=
    whileM.outOfFuel_of_invariant (fun _ => True) (fun _ _ => by simp [h]) (fun _ _ => ⟨_, rfl, trivial⟩)
      fuel tx trivial
  rw [generateNonce_eq_loop p tx pfx hlen, hloop]
  rfl

/-- Whenever `GenerateNonce` returns, it returns the nonce it was given. -/
theorem generateNonce_eq_of_ok {fuel : Nat} {r : UInt32 × Transaction} (h : tx.generateNonce p pfx fuel = .ok r) :
    r = (tx.header.nonce, tx) := by
  by_cases hlen : (pfx.getD []).length ≤ 32
  · cases hm : Matches p tx pfx
    · rw [generateNonce_of_not_matches p tx pfx hm hlen] at h
      cases h
    · rw [generateNonce_of_matches p tx pfx hm hlen] at h
      exact (Except.ok.inj h).symm
  · rw [generateNonce_of_long p tx pfx (by omega)] at h
    cases h

theorem matches_some_iff (b : Bytes) : Matches p tx (some b) = true ↔ (tx.hash p).take b.length = b := by
  simp only [Matches, deepEqualBytes, Option.getD_some, beq_iff_eq]
  exact eq_comm

@[simp] theorem matches_none : Matches p tx none = false := rfl

end GenerateNonce

/-- `GenerateNonce` never searches. Whenever it returns, it returns the nonce
it was given. For a prefix of at most 32 bytes that the hash of `tx` lacks, it
increments the nonce for ever, whichever nonces would give the prefix. A nil
prefix, which every hash starts with, is never `DeepEqual` to `newTHash[:0]`,
so for it the loop never ends. -/
theorem generateNonce_never_searches :
    (∀ (p : Primitives) (tx : Transaction) (pfx : Option Bytes) (fuel : Nat) (r : UInt32 × Transaction),
      tx.generateNonce p pfx fuel = .ok r → r = (tx.header.nonce, tx)) ∧
    (∀ (p : Primitives) (tx : Transaction) (b : Bytes) (fuel : Nat), b.length ≤ 32 →
      (tx.hash p).take b.length ≠ b → tx.generateNonce p (some b) fuel = .error .outOfFuel) ∧
    (∀ (p : Primitives) (tx : Transaction) (fuel : Nat),
      (∀ n : UInt32, ((tx.withNonce n).hash p).take 0 = []) ∧
        tx.generateNonce p none fuel = .error .outOfFuel) := by
  refine ⟨fun p tx pfx _ _ h => generateNonce_eq_of_ok p tx pfx h, fun p tx b fuel hlen hb => ?_,
    fun p tx fuel => ⟨fun _ => rfl, ?_⟩⟩
  · have hm : Matches p tx (some b) = false := by
      rw [← Bool.not_eq_true, matches_some_iff]
      exact hb
    exact generateNonce_of_not_matches p tx (some b) hm hlen fuel
  · exact generateNonce_of_not_matches p tx none (matches_none p tx) (by simp) fuel

end Transaction

/-! ## Signing and verifying -/

theorem splitBig_none (parts : Nat) : splitBig none parts = .error nilDereference := rfl

theorem splitBig_some_ok (b : Nat) : ∃ l, splitBig (some b) 2 = .ok l := ⟨_, rfl⟩

/-- A signature the decoder rejects makes `SignatureVerify` panic, whatever the
public key. -/
theorem signatureVerify_of_decode_none {b58 : Base58} {publicKey sig : Bytes} (ecdsa : Ecdsa) (hash : Bytes)
    (h : b58.decodeToBig sig = none) :
    signatureVerify b58 ecdsa publicKey sig hash = .error nilDereference := by
  unfold signatureVerify
  cases hp : b58.decodeToBig publicKey with
  | none => simp [splitBig_none]
  | some n =>
    obtain ⟨l, hl⟩ := splitBig_some_ok n
    simp [hl, h, splitBig_none]

namespace Transaction

/-- Verifying a signed transaction whose payload hash is right panics when the
raw signature has a byte outside the base58 alphabet. -/
theorem verifyTransaction_sign_of_corrupt (p : Primitives) (b58 : Base58) (ecdsa : Ecdsa) {tx : Transaction}
    {privateKey : Nat} (hpay : tx.header.payloadHash = p.sha256 tx.payload)
    (hsig : ∃ c ∈ (tx.sign ecdsa privateKey).signature, c ∉ base58Alphabet) :
    (tx.sign ecdsa privateKey).verifyTransaction p b58 ecdsa = .error nilDereference := by
  unfold verifyTransaction
  rw [sign_payload, sign_header, if_pos hpay.symm]
  exact signatureVerify_of_decode_none ecdsa _ (b58.decode_corrupt _ hsig)

end Transaction

/-! ## Instances of the laws -/

/-- The value of the digit `d` in `base58Alphabet`. -/
def base58Digit (d : Nat) : UInt8 := base58Alphabet.getD d 0

/-- One byte of `DecodeToBig`: the accumulator times 58 plus the byte's value, or a
failure on a byte outside the alphabet. -/
def decodeStep (n : Nat) (c : UInt8) : Option Nat := (base58Alphabet.idxOf? c).map (n * 58 + ·)

theorem idxOf?_base58Digit : ∀ d < 58, base58Alphabet.idxOf? (base58Digit d) = some d := by
  decide

theorem foldlM_decodeStep_digits :
    ∀ (ds : List Nat) (n : Nat), (∀ d ∈ ds, d < 58) →
      (ds.map base58Digit).foldlM decodeStep n = some (ds.foldl (fun n d => n * 58 + d) n)
  | [], _, _ => rfl
  | d :: ds, n, h => by
    have hd : decodeStep n (base58Digit d) = some (n * 58 + d) := by
      simp [decodeStep, idxOf?_base58Digit d (h d List.mem_cons_self)]
    rw [List.map_cons, List.foldlM_cons, hd, Option.bind_eq_bind, Option.bind_some, List.foldl_cons]
    exact foldlM_decodeStep_digits ds _ fun d' hd' => h d' (List.mem_cons_of_mem d hd')

theorem foldlM_decodeStep_of_corrupt :
    ∀ (b : Bytes) (n : Nat), (∃ c ∈ b, c ∉ base58Alphabet) → b.foldlM decodeStep n = none
  | [], _, ⟨_, hc, _⟩ => absurd hc List.not_mem_nil
  | c :: b, n, ⟨c', hc', hout⟩ => by
    rw [List.foldlM_cons]
    by_cases hc : c ∈ base58Alphabet
    · obtain ⟨i, hi⟩ : ∃ i, base58Alphabet.idxOf? c = some i := by
        cases h : base58Alphabet.idxOf? c with
        | none => exact absurd hc (List.idxOf?_eq_none_iff.mp h)
        | some i => exact ⟨i, rfl⟩
      have hrest : ∃ c₀ ∈ b, c₀ ∉ base58Alphabet := by
        rcases List.mem_cons.mp hc' with rfl | hb
        · exact absurd hc hout
        · exact ⟨c', hb, hout⟩
      simp only [decodeStep, hi, Option.map_some, Option.bind_eq_bind, Option.bind_some]
      exact foldlM_decodeStep_of_corrupt b _ hrest
    · simp [decodeStep, List.idxOf?_eq_none_iff.mpr hc]

/-- Reading the digits back most significant first gives their value. -/
theorem foldr_digits_base58 (L : List Nat) : L.foldr (fun d n => n * 58 + d) 0 = Nat.ofDigits 58 L := by
  induction L with
  | nil => rfl
  | cons d L ih =>
    rw [List.foldr_cons, ih, Nat.ofDigits_cons]
    omega

/-- Base58 as Bitcoin writes a number: its digits in base 58, most significant
first, and a decoder that reads them back. -/
def bitcoinBase58 : Base58 where
  encodeBig n := (Nat.digits 58 n).reverse.map base58Digit
  decodeToBig b := b.foldlM decodeStep 0
  decode_encode n := by
    rw [foldlM_decodeStep_digits _ 0 fun d hd => Nat.digits_lt_base (by decide) (List.mem_reverse.mp hd),
      List.foldl_reverse, foldr_digits_base58, Nat.ofDigits_digits]
  decode_corrupt b h := foldlM_decodeStep_of_corrupt b 0 h

-- `"21"` is 58, and the byte `'0'` is outside the alphabet
example : bitcoinBase58.decodeToBig [50, 49] = some 58 ∧ bitcoinBase58.decodeToBig [48] = none := by decide

/-- A scheme that meets the law of `Ecdsa`: the key `d` signs `m` with
`(setBytes (m.take 32) + d, 1)`, checked against the public key `(d, 0)`. Like
`ecdsa.Sign`, it reads no more of the message than the 32 bytes of the order of P-256. -/
def echoEcdsa : Ecdsa where
  publicKey d := (d, 0)
  sign d m := (setBytes (m.take 32) + d, 1)
  verify pub m r s := r == setBytes (m.take 32) + pub.1 && s == 1
  verify_sign d m := by simp

/-- Signing and verifying do not round-trip. The message `Sign` signs is never the
one `VerifyTransaction` checks, whatever the hash, the scheme and the key. A raw
signature with a byte outside the base58 alphabet makes the verification panic.
Under a scheme that meets the law of ECDSA, and base58 as Bitcoin writes it, every
transaction signed and then verified panics, its `From` the base58 of its public key. -/
theorem sign_then_verify_panics :
    (∀ (p : Primitives) (ecdsa : Ecdsa) (tx : Transaction) (privateKey : Nat),
      tx.dataToSign ≠ (tx.sign ecdsa privateKey).hash p) ∧
    (∀ (p : Primitives) (b58 : Base58) (ecdsa : Ecdsa) (tx : Transaction) (privateKey : Nat),
      tx.header.payloadHash = p.sha256 tx.payload →
      (∃ c ∈ (tx.sign ecdsa privateKey).signature, c ∉ base58Alphabet) →
      (tx.sign ecdsa privateKey).verifyTransaction p b58 ecdsa = .error nilDereference) ∧
    (∀ (p : Primitives) (tx : Transaction) (privateKey : Nat),
      tx.header.payloadHash = p.sha256 tx.payload →
      tx.header.from = bitcoinBase58.encodeBig (publicKeyBig (echoEcdsa.publicKey privateKey)) →
      (tx.sign echoEcdsa privateKey).verifyTransaction p bitcoinBase58 echoEcdsa = .error nilDereference) := by
  refine ⟨fun p _ tx _ => Transaction.dataToSign_ne_hash p tx _, fun p b58 ecdsa _ _ hpay hsig =>
    Transaction.verifyTransaction_sign_of_corrupt p b58 ecdsa hpay hsig, fun p tx privateKey hpay _ => ?_⟩
  -- `s = 1` is the byte `0x01`, outside the alphabet
  apply Transaction.verifyTransaction_sign_of_corrupt p _ _ hpay
  refine ⟨1, ?_, by decide⟩
  simp [Transaction.sign, echoEcdsa, show Rlp.bigIntBytes 1 = [1] by decide]

end Nezha
