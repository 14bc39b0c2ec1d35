import Nezha.Models.Eth.Rlp
import Nezha.Core.BigEndian

/-!
# The raw RLP reader (`ethereum/go-ethereum/rlp/raw.go`)

`readKind` reads the header of the first RLP value of a buffer: its kind, the
size of the header (`tagsize`) and of the contents. It rejects what no writer
of `encode.go` produces: a single byte below `0x80` behind a string header, a
size of one to eight bytes that is below 56 or starts with a zero byte, and a
value longer than the buffer. `Split`, `SplitString`, `SplitList` and
`CountValues` cut a buffer along these headers.

The main results say that the reader is the exact inverse of the writers:
`Split` accepts a buffer precisely when it starts with the encoding `item k c`
of some kind and contents, returns those and the bytes after them
(`split_eq_ok_iff`); `CountValues` accepts precisely the concatenations of such
encodings and counts them (`countValues_eq_ok_iff`); and every value the
encoder of `encode.go` writes is one item, a struct the list of one item per
encoded field (`split_writeValue`, `splitList_writeValue_struct`). Beside them,
`ListSize` is the length of the writer's list (`listSize_eq_length_list`), and
the writer of a `uint` writes what the writer of a `*big.Int` writes for the
same number (`writeUint_eq_writeBigInt`).

Sizes are `uint64` in the source and `Nat` here. No subtraction in `readKind`
goes below zero: a header that is read is never longer than the buffer. A Go
slice is shorter than `2 ^ 64` bytes, so the contents of an item are too. The
one sum of sizes, in `ListSize`, is reduced modulo `2 ^ 64` as Go computes it.
-/

namespace Nezha

namespace Rlp

/-- The errors of the raw reader, by the variables that hold them:
`io.ErrUnexpectedEOF`, `ErrExpectedString`, `ErrExpectedList`, `ErrCanonSize`
and `ErrValueTooLarge`. -/
inductive DecodeError where
  | unexpectedEOF
  | expectedString
  | expectedList
  | canonSize
  | valueTooLarge
  deriving DecidableEq, Repr

/-- `readSize(b, slen)`: the size in the `slen` bytes after a long header. The
switch of the source on `slen` shifts and ors the first `slen` bytes in, most
significant first, which is `BigEndian.value` of them. -/
def readSize (b : Bytes) (slen : Nat) : Except DecodeError Nat :=
  if slen > b.length then .error .unexpectedEOF
  else
    let s := BigEndian.value (b.take slen)
    -- reject sizes below 56, which have no separate size, and leading zero bytes
    if s < 56 ∨ b.headD 0 = 0 then .error .canonSize else .ok s

/-- `readKind(buf)`: the kind, `tagsize` and `contentsize` of the first value. -/
def readKind (buf : Bytes) : Except DecodeError (Kind × Nat × Nat) :=
  match buf with
  | [] => .error .unexpectedEOF
  | b :: tail => do
    let (k, tagsize, contentsize) ←
      if b < 0x80 then pure (Kind.byte, 0, 1)
      else if b < 0xB8 then
        -- reject strings that should have been single bytes
        if (b - 0x80).toNat = 1 && tail.head?.any (· < 128) then throw DecodeError.canonSize
        else pure (Kind.string, 1, (b - 0x80).toNat)
      else if b < 0xC0 then do
        let size ← readSize tail (b - 0xB7).toNat
        pure (Kind.string, (b - 0xB7).toNat + 1, size)
      else if b < 0xF8 then pure (Kind.list, 1, (b - 0xC0).toNat)
      else do
        let size ← readSize tail (b - 0xF7).toNat
        pure (Kind.list, (b - 0xF7).toNat + 1, size)
    -- reject values larger than the input slice
    if contentsize > buf.length - tagsize then throw DecodeError.valueTooLarge
    else pure (k, tagsize, contentsize)

/-- `Split(b)`: the kind and contents of the first value and the bytes after
it. On an error the source also hands `b` back, which no caller reads. -/
def split (b : Bytes) : Except DecodeError (Kind × Bytes × Bytes) := do
  let (k, ts, cs) ← readKind b
  pure (k, (b.drop ts).take cs, b.drop (ts + cs))

/-- `SplitString(b)`. -/
def splitString (b : Bytes) : Except DecodeError (Bytes × Bytes) := do
  let (k, content, rest) ← split b
  if k = .list then throw .expectedString else pure (content, rest)

/-- `SplitList(b)`. -/
def splitList (b : Bytes) : Except DecodeError (Bytes × Bytes) := do
  let (k, content, rest) ← split b
  if k ≠ .list then throw .expectedList else pure (content, rest)

/-- `intsize(i)`: the bytes `putint` writes for `i`. -/
def intsize (i : Nat) : Nat := if i / 256 = 0 then 1 else intsize (i / 256) + 1
termination_by i
decreasing_by omega

/-- `headsize(size)`. -/
def headsize (size : Nat) : Nat := if size < 56 then 1 else 1 + intsize size

/-- `ListSize(contentSize)`, its sum taken in `uint64`. -/
def listSize (contentSize : Nat) : Nat := (headsize contentSize + contentSize) % 2 ^ 64

example : readKind (0xB8 :: 0x38 :: List.replicate 56 0) = .ok (.string, 2, 56) := by decide
example : readKind [0xB8, 0x38] = .error .valueTooLarge := by decide
example : readKind [0x81, 0x05] = .error .canonSize := by decide
example : readKind [0xB8, 0x37] = .error .canonSize := by decide

/-! ## The encodings the reader accepts -/

/-- The kind `Split` reports for the contents `c` of a string: a single byte
below `0x80` is its own encoding. -/
def stringKind (c : Bytes) : Kind := if c.length = 1 ∧ c.headD 0 ≤ 0x7F then .byte else .string

/-- The encoding of one value of kind `k` with contents `c`, as the writers of
`encode.go` put it. -/
def item : Kind → Bytes → Bytes
  | .list, c => list c
  | _, c => encodeString c

/-- The kinds and contents some encoding has: a string's kind is fixed by its
contents, and the contents are a Go slice. -/
def Canonical (k : Kind) (c : Bytes) : Prop := c.length < 2 ^ 64 ∧ (k = .list ∨ k = stringKind c)

/-! ## `putint` -/

theorem putintN_succ_of_lt {n i : Nat} (h : i < 256) : putintN (n + 1) i = [i.toUInt8] := by
  simp [putintN, h]

theorem putintN_succ_of_le {n i : Nat} (h : 256 ≤ i) :
    putintN (n + 1) i = putintN n (i / 256) ++ [(i % 256).toUInt8] := by
  simp [putintN, Nat.not_lt.mpr h]

theorem toNat_toUInt8_of_lt {i : Nat} (h : i < 256) : i.toUInt8.toNat = i := by
  have : i.toUInt8.toNat = i % 256 := by simp
  omega

/-- `putint` writes the big-endian bytes of its argument. -/
theorem value_putintN : ∀ {n i : Nat}, 0 < n → i < 256 ^ n → BigEndian.value (putintN n i) = i
  | n + 1, i, _, h => by
    by_cases hi : i < 256
    · rw [putintN_succ_of_lt hi, BigEndian.value_singleton, toNat_toUInt8_of_lt hi]
    · have hdiv : i / 256 < 256 ^ n := by
        rw [Nat.pow_succ] at h
        omega
      have hn : 0 < n := by
        rcases Nat.eq_zero_or_pos n with rfl | hn
        · simp at hdiv
          omega
        · exact hn
      rw [putintN_succ_of_le (Nat.not_lt.mp hi), BigEndian.value_append_singleton, value_putintN hn hdiv,
        toNat_toUInt8_of_lt (Nat.mod_lt _ (by decide))]
      omega

theorem length_putintN_le : ∀ (n i : Nat), (putintN n i).length ≤ n
  | 0, _ => le_refl 0
  | n + 1, i => by
    by_cases hi : i < 256
    · simp [putintN_succ_of_lt hi]
    · rw [putintN_succ_of_le (Nat.not_lt.mp hi), List.length_append, List.length_singleton]
      exact Nat.succ_le_succ (length_putintN_le n _)

theorem length_putintN_pos : ∀ {n : Nat} (i : Nat), 0 < n → 0 < (putintN n i).length
  | n + 1, i, _ => by
    by_cases hi : i < 256
    · simp [putintN_succ_of_lt hi]
    · simp [putintN_succ_of_le (Nat.not_lt.mp hi)]

/-- The first byte `putint` writes is zero only for zero. -/
theorem headD_putintN_ne_zero : ∀ {n i : Nat}, 0 < i → i < 256 ^ n → (putintN n i).headD 0 ≠ 0
  | 0, i, hi, h => by simp at h; omega
  | n + 1, i, hi, h => by
    by_cases hlt : i < 256
    · rw [putintN_succ_of_lt hlt]
      intro h0
      have := congrArg UInt8.toNat h0
      rw [List.headD_cons, toNat_toUInt8_of_lt hlt] at this
      simp at this
      omega
    · have hdiv : i / 256 < 256 ^ n := by
        rw [Nat.pow_succ] at h
        omega
      have hpos : 0 < (putintN n (i / 256)).length := by
        rcases Nat.eq_zero_or_pos n with rfl | hn
        · simp at hdiv
          omega
        · exact length_putintN_pos _ hn
      obtain ⟨b, bs, hbs⟩ := List.exists_cons_of_length_pos hpos
      have hb := headD_putintN_ne_zero (n := n) (i := i / 256) (by omega) hdiv
      rw [hbs] at hb
      rw [putintN_succ_of_le (Nat.not_lt.mp hlt), hbs, List.cons_append, List.headD_cons]
      exact hb

/-- Bytes without a leading zero are what `putint` writes for their value. -/
theorem putintN_value {b : UInt8} (hb : b ≠ 0) :
    ∀ {n : Nat} (bs : List UInt8), (b :: bs).length ≤ n → putintN n (BigEndian.value (b :: bs)) = b :: bs := by
  intro n bs
  induction bs using List.reverseRecOn generalizing n with
  | nil =>
    intro hn
    obtain ⟨m, rfl⟩ : ∃ m, n = m + 1 := ⟨n - 1, by simp at hn; omega⟩
    rw [BigEndian.value_singleton, putintN_succ_of_lt b.toNat_lt]
    simp
  | append_singleton bs c ih =>
    intro hn
    obtain ⟨m, rfl⟩ : ∃ m, n = m + 1 := ⟨n - 1, by simp at hn; omega⟩
    have hpow := BigEndian.pow_le_value hb (bs ++ [c])
    have hlarge : 256 ≤ BigEndian.value (b :: (bs ++ [c])) := by
      have : 256 ^ 1 ≤ 256 ^ (bs ++ [c]).length := Nat.pow_le_pow_right (by decide) (by simp)
      simp only [pow_one] at this
      omega
    rw [putintN_succ_of_le hlarge, ← List.cons_append, BigEndian.value_append_singleton]
    have hc := c.toNat_lt
    have hdiv : (BigEndian.value (b :: bs) * 256 + c.toNat) / 256 = BigEndian.value (b :: bs) := by omega
    have hmod : (BigEndian.value (b :: bs) * 256 + c.toNat) % 256 = c.toNat := by omega
    rw [hdiv, hmod, ih (by simp at hn ⊢; omega)]
    simp

/-! ## The branches of `readKind` -/

section Branches

variable {b : UInt8} {tail : Bytes}

theorem toNat_sub_of_le {c : UInt8} (h : c.toNat ≤ b.toNat) : (b - c).toNat = b.toNat - c.toNat :=
  UInt8.toNat_sub_of_le _ _ (UInt8.le_iff_toNat_le.mpr h)

theorem readKind_byte (h : b.toNat < 0x80) : readKind (b :: tail) = .ok (.byte, 0, 1) := by
  have h₀ : b < 0x80 := UInt8.lt_iff_toNat_lt.mpr h
  simp [readKind, h₀]
  rfl

theorem readKind_shortString (h₁ : 0x80 ≤ b.toNat) (h₂ : b.toNat < 0xB8) :
    readKind (b :: tail) =
      if b.toNat - 0x80 = 1 ∧ tail.head?.any (· < 128) then .error .canonSize
      else if b.toNat - 0x80 > tail.length then .error .valueTooLarge
      else .ok (.string, 1, b.toNat - 0x80) := by
  have h₀ : ¬ b < 0x80 := fun h => absurd (UInt8.lt_iff_toNat_lt.mp h) (by simpa using h₁)
  have h₃ : b < 0xB8 := UInt8.lt_iff_toNat_lt.mpr h₂
  simp only [readKind, if_neg h₀, if_pos h₃, toNat_sub_of_le (c := 0x80) h₁, UInt8.reduceToNat]
  by_cases hc : b.toNat - 128 = 1 ∧ tail.head?.any (· < 128) = true
  · simp [hc, throw, throwThe, MonadExceptOf.throw, bind, Except.bind]
  · simp only [Bool.and_eq_true, decide_eq_true_eq, hc, if_false]
    simp [bind, Except.bind, pure, Except.pure, throw, throwThe, MonadExceptOf.throw]

theorem readKind_longString (h₁ : 0xB8 ≤ b.toNat) (h₂ : b.toNat < 0xC0) :
    readKind (b :: tail) = (do
      let size ← readSize tail (b.toNat - 0xB7)
      if size > tail.length - (b.toNat - 0xB7) then .error .valueTooLarge
      else .ok (.string, b.toNat - 0xB7 + 1, size)) := by
  have h₀ : ¬ b < 0x80 := fun h => absurd (UInt8.lt_iff_toNat_lt.mp h) (by simp; omega)
  have h₃ : ¬ b < 0xB8 := fun h => absurd (UInt8.lt_iff_toNat_lt.mp h) (by simpa using h₁)
  have h₄ : b < 0xC0 := UInt8.lt_iff_toNat_lt.mpr h₂
  have hs : (b - 0xB7).toNat = b.toNat - 0xB7 := toNat_sub_of_le (by simp; omega)
  simp only [readKind, if_neg h₀, if_neg h₃, if_pos h₄, hs]
  cases readSize tail (b.toNat - 0xB7) <;>
    simp [bind, Except.bind, pure, Except.pure, throw, throwThe, MonadExceptOf.throw]

theorem readKind_shortList (h₁ : 0xC0 ≤ b.toNat) (h₂ : b.toNat < 0xF8) :
    readKind (b :: tail) =
      if b.toNat - 0xC0 > tail.length then .error .valueTooLarge
      else .ok (.list, 1, b.toNat - 0xC0) := by
  have h₀ : ¬ b < 0x80 := fun h => absurd (UInt8.lt_iff_toNat_lt.mp h) (by simp; omega)
  have h₃ : ¬ b < 0xB8 := fun h => absurd (UInt8.lt_iff_toNat_lt.mp h) (by simp; omega)
  have h₄ : ¬ b < 0xC0 := fun h => absurd (UInt8.lt_iff_toNat_lt.mp h) (by simpa using h₁)
  have h₅ : b < 0xF8 := UInt8.lt_iff_toNat_lt.mpr h₂
  simp only [readKind, if_neg h₀, if_neg h₃, if_neg h₄, if_pos h₅, toNat_sub_of_le (c := 0xC0) h₁,
    UInt8.reduceToNat]
  simp [bind, Except.bind, pure, Except.pure, throw, throwThe, MonadExceptOf.throw]

theorem readKind_longList (h₁ : 0xF8 ≤ b.toNat) :
    readKind (b :: tail) = (do
      let size ← readSize tail (b.toNat - 0xF7)
      if size > tail.length - (b.toNat - 0xF7) then .error .valueTooLarge
      else .ok (.list, b.toNat - 0xF7 + 1, size)) := by
  have h₀ : ¬ b < 0x80 := fun h => absurd (UInt8.lt_iff_toNat_lt.mp h) (by simp; omega)
  have h₃ : ¬ b < 0xB8 := fun h => absurd (UInt8.lt_iff_toNat_lt.mp h) (by simp; omega)
  have h₄ : ¬ b < 0xC0 := fun h => absurd (UInt8.lt_iff_toNat_lt.mp h) (by simp; omega)
  have h₅ : ¬ b < 0xF8 := fun h => absurd (UInt8.lt_iff_toNat_lt.mp h) (by simpa using h₁)
  have hs : (b - 0xF7).toNat = b.toNat - 0xF7 := toNat_sub_of_le (by simp; omega)
  simp only [readKind, if_neg h₀, if_neg h₃, if_neg h₄, if_neg h₅, hs]
  cases readSize tail (b.toNat - 0xF7) <;>
    simp [bind, Except.bind, pure, Except.pure, throw, throwThe, MonadExceptOf.throw]

end Branches

/-! ## Sizes -/

/-- What `readSize` accepts: `slen` bytes at hand that denote 56 or more, with
no leading zero. -/
theorem readSize_eq_ok {b : Bytes} {slen s : Nat} :
    readSize b slen = .ok s ↔ slen ≤ b.length ∧ s = BigEndian.value (b.take slen) ∧ 56 ≤ s ∧ b.headD 0 ≠ 0 := by
  unfold readSize
  by_cases hlen : slen > b.length
  · simp only [if_pos hlen]
    simp only [reduceCtorEq, false_iff, not_and]
    omega
  · by_cases hc : BigEndian.value (b.take slen) < 56 ∨ b.headD 0 = 0
    · simp only [if_neg hlen, if_pos hc, reduceCtorEq, false_iff, not_and]
      rintro - rfl h56
      rcases hc with hc | hc
      · omega
      · exact absurd hc
    · simp only [if_neg hlen, if_neg hc, Except.ok.injEq]
      simp only [not_or] at hc
      constructor
      · rintro rfl
        exact ⟨by omega, rfl, by omega, hc.2⟩
      · rintro ⟨-, rfl, -⟩
        rfl

theorem toNat_add_toUInt8 (t : UInt8) {m : Nat} (h : t.toNat + m < 256) : (t + m.toUInt8).toNat = t.toNat + m := by
  rw [UInt8.toNat_add, toNat_toUInt8_of_lt (by omega)]
  exact Nat.mod_eq_of_lt h

/-- `putint` of a size of 56 or more that fits a `uint64`: one to eight bytes,
the first not zero, denoting the size. -/
theorem putint_of_le {n : Nat} (h56 : 56 ≤ n) (h64 : n < 2 ^ 64) :
    1 ≤ (putint n).length ∧ (putint n).length ≤ 8 ∧ (putint n).headD 0 ≠ 0 ∧
      BigEndian.value (putint n) = n :=
  ⟨length_putintN_pos n (by decide), length_putintN_le 8 n,
    headD_putintN_ne_zero (by omega) (by simpa using h64), value_putintN (by decide) (by simpa using h64)⟩

theorem readSize_putint {n : Nat} (h56 : 56 ≤ n) (h64 : n < 2 ^ 64) (rest : Bytes) :
    readSize (putint n ++ rest) (putint n).length = .ok n := by
  obtain ⟨h₁, -, h₃, h₄⟩ := putint_of_le h56 h64
  obtain ⟨x, xs, hx⟩ := List.exists_cons_of_length_pos h₁
  refine readSize_eq_ok.mpr ⟨by simp, ?_, h56, ?_⟩
  · rw [List.take_left' rfl, h₄]
  · rw [hx] at h₃ ⊢
    exact h₃

/-- A size `readSize` accepts is what `putint` writes for it. -/
theorem putint_of_readSize {b : Bytes} {slen s : Nat} (h : readSize b slen = .ok s) (h8 : slen ≤ 8) :
    putint s = b.take slen ∧ s < 2 ^ 64 := by
  obtain ⟨hlen, rfl, h56, hhead⟩ := readSize_eq_ok.mp h
  have hpos : 0 < slen := by
    rcases Nat.eq_zero_or_pos slen with rfl | hpos
    · simp at h56
    · exact hpos
  obtain ⟨x, xs, hx⟩ := List.exists_cons_of_length_pos (l := b.take slen) (by simp; omega)
  have hx0 : x ≠ 0 := by
    obtain ⟨m, rfl⟩ : ∃ m, slen = m + 1 := ⟨slen - 1, by omega⟩
    cases b with
    | nil => simp at hlen
    | cons y ys =>
      rw [List.take_succ_cons, List.cons.injEq] at hx
      simpa [← hx.1] using hhead
  have hlt := BigEndian.value_lt (b.take slen)
  have htake : (b.take slen).length = slen := by simp; omega
  refine ⟨?_, ?_⟩
  · rw [hx]
    exact putintN_value hx0 xs (by rw [← hx, htake]; exact h8)
  · calc BigEndian.value (b.take slen) < 256 ^ (b.take slen).length := hlt
      _ ≤ 256 ^ 8 := Nat.pow_le_pow_right (by decide) (by omega)
      _ = 2 ^ 64 := by norm_num

/-! ## The writers' headers are read back -/

theorem puthead_of_lt (smalltag largetag : UInt8) {n : Nat} (h : n < 56) :
    puthead smalltag largetag n = [smalltag + n.toUInt8] := by
  simp [puthead, h]

theorem puthead_of_le (smalltag largetag : UInt8) {n : Nat} (h : 56 ≤ n) :
    puthead smalltag largetag n = (largetag + (putint n).length.toUInt8) :: putint n := by
  simp [puthead, Nat.not_lt.mpr h]

theorem encodeString_of_not_byte {c : Bytes} (h : ¬ (c.length = 1 ∧ c.headD 0 ≤ 0x7F)) :
    encodeString c = puthead 0x80 0xB7 c.length ++ c := by
  simp only [encodeString, encodeStringHeader, if_neg h]

theorem stringKind_of_not_byte {c : Bytes} (h : ¬ (c.length = 1 ∧ c.headD 0 ≤ 0x7F)) :
    stringKind c = .string := by
  simp only [stringKind, if_neg h]

/-- A header of up to 55 bytes of contents is one byte, read back by the short
branches: `smalltag` is `0x80` for a string and `0xC0` for a list. -/
theorem toNat_shortTag (smalltag : UInt8) {n : Nat} (ht : smalltag.toNat + 55 < 256) (h : n < 56) :
    (smalltag + n.toUInt8).toNat = smalltag.toNat + n :=
  toNat_add_toUInt8 _ (by omega)

/-- A longer header is `largetag` plus the size of the size, then the size. -/
theorem toNat_longTag (largetag : UInt8) {n : Nat} (ht : largetag.toNat + 8 < 256) (h56 : 56 ≤ n)
    (h64 : n < 2 ^ 64) : (largetag + (putint n).length.toUInt8).toNat = largetag.toNat + (putint n).length :=
  toNat_add_toUInt8 _ (by have := (putint_of_le h56 h64).2.1; omega)

/-- The encoding of a string is read back as its kind and contents. -/
theorem readKind_encodeString {c : Bytes} (h64 : c.length < 2 ^ 64) (rest : Bytes) :
    readKind (encodeString c ++ rest) = .ok (stringKind c, (encodeString c).length - c.length, c.length) := by
  by_cases hbyte : c.length = 1 ∧ c.headD 0 ≤ 0x7F
  · -- a single byte below 0x80 is its own encoding
    obtain ⟨x, rfl⟩ := List.length_eq_one_iff.mp hbyte.1
    have hx : x.toNat < 0x80 := by
      have := UInt8.le_iff_toNat_le.mp hbyte.2
      simp at this
      omega
    simp only [encodeString, stringKind, if_pos hbyte, List.singleton_append, readKind_byte hx]
    rfl
  · rw [encodeString_of_not_byte hbyte, stringKind_of_not_byte hbyte]
    by_cases hshort : c.length < 56
    · have hb := toNat_shortTag 0x80 (by decide) hshort
      simp only [UInt8.reduceToNat] at hb
      have hcanon : ¬ (c.length = 1 ∧ (c ++ rest).head?.any (· < 128) = true) := by
        rintro ⟨hone, hany⟩
        obtain ⟨x, rfl⟩ := List.length_eq_one_iff.mp hone
        simp only [List.cons_append, List.nil_append, List.head?_cons, Option.any_some,
          decide_eq_true_eq] at hany
        exact hbyte ⟨rfl, by simpa using UInt8.le_iff_toNat_le.mpr (by
          have := UInt8.lt_iff_toNat_lt.mp hany
          simp at this ⊢
          omega)⟩
      rw [puthead_of_lt _ _ hshort, List.singleton_append, List.cons_append,
        readKind_shortString (by omega) (by omega), hb, Nat.add_sub_cancel_left, if_neg hcanon,
        if_neg (by simp)]
      simp
    · obtain ⟨h₁, h₂, -, -⟩ := putint_of_le (by omega) h64
      have hb := toNat_longTag 0xB7 (by decide) (by omega) h64
      simp only [UInt8.reduceToNat] at hb
      have hlo : 0xB8 ≤ ((0xB7 : UInt8) + (putint c.length).length.toUInt8).toNat := by rw [hb]; omega
      have hhi : ((0xB7 : UInt8) + (putint c.length).length.toUInt8).toNat < 0xC0 := by rw [hb]; omega
      rw [puthead_of_le _ _ (by omega), List.cons_append, List.cons_append, readKind_longString hlo hhi, hb,
        Nat.add_sub_cancel_left, List.append_assoc, readSize_putint (by omega) h64]
      simp only [bind, Except.bind, List.length_append]
      rw [if_neg (by omega)]
      simp only [List.length_cons, List.length_append, Except.ok.injEq, Prod.mk.injEq, true_and, and_true]
      omega

/-- The encoding of a list is read back as a list with its contents. -/
theorem readKind_list {c : Bytes} (h64 : c.length < 2 ^ 64) (rest : Bytes) :
    readKind (list c ++ rest) = .ok (.list, (list c).length - c.length, c.length) := by
  unfold list
  by_cases hshort : c.length < 56
  · have hb := toNat_shortTag 0xC0 (by decide) hshort
    simp only [UInt8.reduceToNat] at hb
    rw [puthead_of_lt _ _ hshort, List.singleton_append, List.cons_append,
      readKind_shortList (by omega) (by omega), hb, Nat.add_sub_cancel_left, if_neg (by simp)]
    simp
  · obtain ⟨h₁, h₂, -, -⟩ := putint_of_le (by omega) h64
    have hb := toNat_longTag 0xF7 (by decide) (by omega) h64
    simp only [UInt8.reduceToNat] at hb
    have hlo : 0xF8 ≤ ((0xF7 : UInt8) + (putint c.length).length.toUInt8).toNat := by rw [hb]; omega
    rw [puthead_of_le _ _ (by omega), List.cons_append, List.cons_append, readKind_longList hlo, hb,
      Nat.add_sub_cancel_left, List.append_assoc, readSize_putint (by omega) h64]
    simp only [bind, Except.bind, List.length_append]
    rw [if_neg (by omega)]
    simp only [List.length_cons, List.length_append, Except.ok.injEq, Prod.mk.injEq, true_and, and_true]
    omega

/-! ## What the reader accepts is a writer's encoding -/

theorem tag_eq {t b : UInt8} {m : Nat} (h : t.toNat + m < 256) (hb : b.toNat = t.toNat + m) :
    t + m.toUInt8 = b :=
  UInt8.toNat_inj.mp (by rw [toNat_add_toUInt8 t h, hb])

/-- A one-byte header `b` of `n` bytes of contents, `smalltag + n`, is the
writer's header of `n`. -/
theorem take_shortHeader {b : UInt8} {tail : Bytes} {n : Nat} (smalltag largetag : UInt8)
    (ht : smalltag.toNat + 55 < 256) (hb : b.toNat = smalltag.toNat + n) (hn : n < 56) :
    (b :: tail).take (1 + n) = puthead smalltag largetag n ++ tail.take n := by
  rw [puthead_of_lt _ _ hn, tag_eq (by omega) hb, Nat.add_comm, List.take_succ_cons, List.singleton_append]

/-- A header `b` of `largetag` plus the `slen` bytes of a size `readSize` reads
is the writer's header of that size. -/
theorem take_longHeader {largetag b : UInt8} {tail : Bytes} {slen s : Nat} (smalltag : UInt8)
    (ht : largetag.toNat + 8 < 256) (hb : b.toNat = largetag.toNat + slen) (h8 : slen ≤ 8)
    (hs : readSize tail slen = .ok s) :
    (b :: tail).take (slen + 1 + s) = puthead smalltag largetag s ++ (tail.drop slen).take s := by
  obtain ⟨hput, -⟩ := putint_of_readSize hs h8
  obtain ⟨hlen, -, h56, -⟩ := readSize_eq_ok.mp hs
  have hL : (putint s).length = slen := by rw [hput]; simp; omega
  rw [puthead_of_le _ _ h56, hL, tag_eq (by omega) hb, hput, Nat.add_right_comm, List.take_succ_cons,
    List.take_add, List.cons_append]

/-- What `readKind` accepts: a writer's encoding of its contents, inside the buffer. -/
theorem readKind_eq_ok {buf : Bytes} {k : Kind} {ts cs : Nat} (h : readKind buf = .ok (k, ts, cs)) :
    ts + cs ≤ buf.length ∧ Canonical k ((buf.drop ts).take cs) ∧
      buf.take (ts + cs) = item k ((buf.drop ts).take cs) := by
  cases buf with
  | nil => simp [readKind] at h
  | cons b tail =>
  have hb := b.toNat_lt
  by_cases h₁ : b.toNat < 0x80
  · -- a single byte
    rw [readKind_byte h₁] at h
    cases h
    have hle : b ≤ 0x7F := UInt8.le_iff_toNat_le.mpr (by simp only [UInt8.reduceToNat]; omega)
    have hbyte : [b].length = 1 ∧ [b].headD 0 ≤ 0x7F := ⟨rfl, hle⟩
    refine ⟨by simp, ⟨by simp, .inr (by simp only [List.drop_zero, List.take_succ_cons, List.take_zero,
      stringKind, if_pos hbyte])⟩, ?_⟩
    simp only [Nat.zero_add, List.drop_zero, List.take_succ_cons, List.take_zero, item, encodeString,
      if_pos hbyte]
  by_cases h₂ : b.toNat < 0xB8
  · -- a short string
    rw [readKind_shortString (by omega) h₂] at h
    split_ifs at h with hc hlen
    cases h
    have hlen' : (tail.take (b.toNat - 0x80)).length = b.toNat - 0x80 := by simp; omega
    have hnot : ¬ ((tail.take (b.toNat - 0x80)).length = 1 ∧ (tail.take (b.toNat - 0x80)).headD 0 ≤ 0x7F) := by
      rintro ⟨hone, hle⟩
      obtain ⟨x, xs, hx⟩ := List.exists_cons_of_length_pos (l := tail) (by simp at hlen' hone; omega)
      subst hx
      apply hc
      refine ⟨by simpa [hlen'] using hone, ?_⟩
      have : x ≤ 0x7F := by simpa [List.take_succ_cons, show b.toNat - 128 = 0 + 1 by simp [hlen'] at hone; omega] using hle
      simpa using UInt8.lt_iff_toNat_lt.mpr (by have := UInt8.le_iff_toNat_le.mp this; simp at this ⊢; omega)
    refine ⟨by simp; omega, ⟨by simp; omega, .inr (stringKind_of_not_byte hnot).symm⟩, ?_⟩
    simp only [List.drop_succ_cons, List.drop_zero, item, encodeString_of_not_byte hnot, hlen']
    exact take_shortHeader 0x80 0xB7 (by decide) (by simp; omega) (by omega)
  by_cases h₃ : b.toNat < 0xC0
  · -- a long string
    rw [readKind_longString (by omega) h₃] at h
    cases hs : readSize tail (b.toNat - 0xB7) with
    | error e => simp [hs, bind, Except.bind] at h
    | ok s =>
      simp only [hs, bind, Except.bind] at h
      split_ifs at h with hle
      simp only [Except.ok.injEq, Prod.mk.injEq] at h
      obtain ⟨rfl, rfl, rfl⟩ := h
      obtain ⟨hlen, -, h56, -⟩ := readSize_eq_ok.mp hs
      obtain ⟨-, h64⟩ := putint_of_readSize hs (by omega)
      rw [List.drop_succ_cons]
      have hclen : ((tail.drop (b.toNat - 0xB7)).take s).length = s := by simp; omega
      have hnot : ¬ (((tail.drop (b.toNat - 0xB7)).take s).length = 1 ∧
          ((tail.drop (b.toNat - 0xB7)).take s).headD 0 ≤ 0x7F) := fun h' => by omega
      have hb' : b.toNat = (0xB7 : UInt8).toNat + (b.toNat - 0xB7) := by simp; omega
      refine ⟨by simp; omega, ⟨by rw [hclen]; exact h64, .inr (stringKind_of_not_byte hnot).symm⟩, ?_⟩
      simp only [item, encodeString_of_not_byte hnot, hclen]
      exact take_longHeader 0x80 (by decide) hb' (by omega) hs
  by_cases h₄ : b.toNat < 0xF8
  · -- a short list
    rw [readKind_shortList (by omega) h₄] at h
    split_ifs at h with hlen
    cases h
    have hlen' : (tail.take (b.toNat - 0xC0)).length = b.toNat - 0xC0 := by simp; omega
    refine ⟨by simp; omega, ⟨by simp; omega, .inl rfl⟩, ?_⟩
    simp only [List.drop_succ_cons, List.drop_zero, item, list, hlen']
    exact take_shortHeader 0xC0 0xF7 (by decide) (by simp; omega) (by omega)
  · -- a long list
    rw [readKind_longList (by omega)] at h
    cases hs : readSize tail (b.toNat - 0xF7) with
    | error e => simp [hs, bind, Except.bind] at h
    | ok s =>
      simp only [hs, bind, Except.bind] at h
      split_ifs at h with hle
      simp only [Except.ok.injEq, Prod.mk.injEq] at h
      obtain ⟨rfl, rfl, rfl⟩ := h
      obtain ⟨hlen, -, h56, -⟩ := readSize_eq_ok.mp hs
      obtain ⟨-, h64⟩ := putint_of_readSize hs (by omega)
      rw [List.drop_succ_cons]
      have hclen : ((tail.drop (b.toNat - 0xF7)).take s).length = s := by simp; omega
      have hb' : b.toNat = (0xF7 : UInt8).toNat + (b.toNat - 0xF7) := by simp; omega
      refine ⟨by simp; omega, ⟨by rw [hclen]; exact h64, .inl rfl⟩, ?_⟩
      simp only [item, list, hclen]
      exact take_longHeader 0xC0 (by decide) hb' (by omega) hs

/-! ## `Split` -/

theorem exists_header (k : Kind) (c : Bytes) : ∃ hd, item k c = hd ++ c := by
  cases k with
  | list => exact ⟨_, rfl⟩
  | byte | string =>
    by_cases hbyte : c.length = 1 ∧ c.headD 0 ≤ 0x7F
    · exact ⟨[], show encodeString c = [] ++ c by rw [encodeString, if_pos hbyte, List.nil_append]⟩
    · exact ⟨_, encodeString_of_not_byte hbyte⟩

theorem length_item_pos (k : Kind) (c : Bytes) : 0 < (item k c).length := by
  cases k with
  | list => exact Nat.lt_of_lt_of_le (Nat.succ_pos _) (length_list c)
  | byte | string => exact length_encodeString_pos c

theorem item_stringKind (c : Bytes) : item (stringKind c) c = encodeString c := by
  unfold stringKind
  split <;> rfl

/-- The writers' encoding of an item is read back as the item. -/
theorem readKind_item {k : Kind} {c : Bytes} (h : Canonical k c) (rest : Bytes) :
    readKind (item k c ++ rest) = .ok (k, (item k c).length - c.length, c.length) := by
  obtain ⟨h64, hk⟩ := h
  rcases hk with rfl | rfl
  · exact readKind_list h64 rest
  · rw [item_stringKind]
    exact readKind_encodeString h64 rest

/-- `Split` is the exact inverse of the writers: it accepts a buffer precisely
when the buffer starts with the encoding of an item, and returns the item's
kind and contents and the bytes after it. -/
theorem split_eq_ok_iff {buf : Bytes} {k : Kind} {c rest : Bytes} :
    split buf = .ok (k, c, rest) ↔ Canonical k c ∧ buf = item k c ++ rest := by
  constructor
  · intro h
    simp only [split, bind, Except.bind] at h
    split at h
    · cases h
    · rename_i r hr
      obtain ⟨k', ts, cs⟩ := r
      simp only [pure, Except.pure, Except.ok.injEq, Prod.mk.injEq] at h
      obtain ⟨rfl, rfl, rfl⟩ := h
      obtain ⟨-, hcan, htake⟩ := readKind_eq_ok hr
      exact ⟨hcan, by rw [← htake, List.take_append_drop]⟩
  · rintro ⟨hcan, rfl⟩
    obtain ⟨hd, hhd⟩ := exists_header k c
    have hts : (item k c).length - c.length = hd.length := by rw [hhd, List.length_append]; omega
    simp only [split, readKind_item hcan rest, hts, bind, Except.bind, pure, Except.pure]
    rw [hhd, List.append_assoc, List.drop_left, List.take_left, ← List.length_append,
      ← List.append_assoc, List.drop_left]

theorem splitList_item {k : Kind} {c : Bytes} (h : Canonical k c) (rest : Bytes) :
    splitList (item k c ++ rest) = if k = .list then .ok (c, rest) else .error .expectedList := by
  simp only [splitList, split_eq_ok_iff.mpr ⟨h, rfl⟩, bind, Except.bind]
  by_cases hk : k = .list <;> simp [hk, throw, throwThe, MonadExceptOf.throw, pure, Except.pure]

/-! ## `CountValues` -/

/-- Every value `readKind` reads is at least one byte, inside the buffer. -/
theorem readKind_length {buf : Bytes} {k : Kind} {ts cs : Nat} (h : readKind buf = .ok (k, ts, cs)) :
    0 < ts + cs ∧ ts + cs ≤ buf.length := by
  obtain ⟨hle, -, htake⟩ := readKind_eq_ok h
  have hpos := length_item_pos k ((buf.drop ts).take cs)
  rw [← htake, List.length_take] at hpos
  exact ⟨by omega, hle⟩

/-- The loop of `CountValues(b)`, with `i` values counted. -/
def countValuesFrom (b : Bytes) (i : Nat) : Except DecodeError Nat :=
  if b.length > 0 then
    match hk : readKind b with
    | .error err => .error err
    | .ok (_, tagsize, size) => countValuesFrom (b.drop (tagsize + size)) (i + 1)
  else .ok i
termination_by b.length
decreasing_by
  have := readKind_length hk
  simp only [List.length_drop]
  omega

/-- `CountValues(b)`. -/
def countValues (b : Bytes) : Except DecodeError Nat := countValuesFrom b 0

/-- The encodings of a list of items, one after the other. -/
def encodeItems (l : List (Kind × Bytes)) : Bytes := l.flatMap fun it => item it.1 it.2

@[simp] theorem encodeItems_nil : encodeItems [] = [] := rfl

@[simp] theorem encodeItems_cons (it : Kind × Bytes) (l : List (Kind × Bytes)) :
    encodeItems (it :: l) = item it.1 it.2 ++ encodeItems l := rfl

theorem encodeItems_eq_nil {l : List (Kind × Bytes)} (h : encodeItems l = []) : l = [] := by
  cases l with
  | nil => rfl
  | cons it l =>
    have := length_item_pos it.1 it.2
    simp only [encodeItems_cons, List.append_eq_nil_iff] at h
    rw [h.1] at this
    simp at this

/-- The loop counts exactly the items of a buffer made of items, and fails on any other. -/
theorem countValuesFrom_eq_ok_iff (b : Bytes) (i n : Nat) :
    countValuesFrom b i = .ok n ↔
      ∃ l : List (Kind × Bytes), (∀ it ∈ l, Canonical it.1 it.2) ∧ b = encodeItems l ∧ n = i + l.length := by
  fun_induction countValuesFrom b i with
  | case1 b i hb err hk =>
    -- a buffer of items starts with a header `readKind` accepts
    simp only [reduceCtorEq, false_iff, not_exists, not_and]
    intro l hl hbl _
    cases l with
    | nil => simp [hbl] at hb
    | cons it l =>
      rw [hbl, encodeItems_cons, readKind_item (hl it List.mem_cons_self)] at hk
      cases hk
  | case2 b i hb k tagsize size hk ih =>
    rw [ih]
    obtain ⟨-, hcan, htake⟩ := readKind_eq_ok hk
    constructor
    · rintro ⟨l, hl, hdrop, rfl⟩
      refine ⟨(k, (b.drop tagsize).take size) :: l, ?_, ?_, by simp; omega⟩
      · intro it hit
        rcases List.mem_cons.mp hit with rfl | hit
        · exact hcan
        · exact hl it hit
      · rw [encodeItems_cons, ← hdrop, ← htake, List.take_append_drop]
    · rintro ⟨l, hl, hbl, rfl⟩
      cases l with
      | nil => simp [hbl] at hb
      | cons it l =>
        have hit := hl it List.mem_cons_self
        obtain ⟨hd, hhd⟩ := exists_header it.1 it.2
        rw [hbl, encodeItems_cons, readKind_item hit] at hk
        simp only [Except.ok.injEq, Prod.mk.injEq] at hk
        obtain ⟨-, hts, hcs⟩ := hk
        have hlen : tagsize + size = (item it.1 it.2).length := by
          have : (item it.1 it.2).length = hd.length + it.2.length := by rw [hhd, List.length_append]
          omega
        refine ⟨l, fun it' hit' => hl it' (List.mem_cons_of_mem _ hit'), ?_, by simp; omega⟩
        rw [hbl, encodeItems_cons, hlen, List.drop_left]
  | case3 b i hb =>
    simp only [Except.ok.injEq]
    constructor
    · rintro rfl
      exact ⟨[], by simp, by simpa using hb, rfl⟩
    · rintro ⟨l, -, hbl, rfl⟩
      have : b = [] := by simpa using hb
      rw [this] at hbl
      simp [encodeItems_eq_nil hbl.symm]

/-- `CountValues` accepts exactly the concatenations of encoded items, and
returns how many there are. -/
theorem countValues_eq_ok_iff {b : Bytes} {n : Nat} :
    countValues b = .ok n ↔
      ∃ l : List (Kind × Bytes), (∀ it ∈ l, Canonical it.1 it.2) ∧ b = encodeItems l ∧ l.length = n := by
  rw [countValues, countValuesFrom_eq_ok_iff]
  simp only [Nat.zero_add, eq_comm (a := n)]

/-! ## `ListSize` -/

theorem intsize_eq_length_putintN : ∀ {n : Nat} (i : Nat), 0 < n → i < 256 ^ n → intsize i = (putintN n i).length
  | n + 1, i, _, h => by
    rw [intsize]
    by_cases hi : i < 256
    · rw [if_pos (by omega), putintN_succ_of_lt hi, List.length_singleton]
    · have hn : 0 < n := by
        rcases Nat.eq_zero_or_pos n with rfl | hn
        · simp at h; omega
        · exact hn
      have hdiv : i / 256 < 256 ^ n := by
        rw [Nat.div_lt_iff_lt_mul (by norm_num), ← Nat.pow_succ]
        exact h
      rw [if_neg (by omega), putintN_succ_of_le (by omega), List.length_append, List.length_singleton,
        intsize_eq_length_putintN (i / 256) hn hdiv]

/-- `headsize` is the length of the header `puthead` writes. -/
theorem length_puthead (smalltag largetag : UInt8) {n : Nat} (h64 : n < 2 ^ 64) :
    (puthead smalltag largetag n).length = headsize n := by
  unfold headsize
  by_cases h : n < 56
  · rw [if_pos h, puthead_of_lt _ _ h, List.length_singleton]
  · rw [if_neg h, puthead_of_le _ _ (by omega), List.length_cons, putint,
      @intsize_eq_length_putintN 8 n (by norm_num) (by simpa using h64)]
    omega

/-- `ListSize` is the length of the writer's encoding of a list with that many
bytes of contents. -/
theorem listSize_eq_length_list {c : Bytes} (h64 : (list c).length < 2 ^ 64) :
    listSize c.length = (list c).length := by
  -- the contents alone fit too, so the header has its usual length
  have hc : c.length < 2 ^ 64 := by
    rw [list, List.length_append] at h64
    omega
  rw [listSize, ← length_puthead 0xC0 0xF7 hc, ← List.length_append, ← list, Nat.mod_eq_of_lt h64]

/-- Fifty-six bytes of contents take a header of two bytes. -/
theorem listSize_fiftySix :
    (list (List.replicate 56 (0 : UInt8))).length < 2 ^ 64 ∧
      listSize (List.replicate 56 (0 : UInt8)).length = (list (List.replicate 56 0)).length :=
  have h64 : (list (List.replicate 56 (0 : UInt8))).length < 2 ^ 64 := by decide
  ⟨h64, listSize_eq_length_list h64⟩

/-! ## Integers -/

/-- Among the widths it fits in, `putint` of a positive number does not depend on the width. -/
theorem putintN_eq_of_lt {i n m : Nat} (hi : 0 < i) (hn : i < 256 ^ n) (hm : i < 256 ^ m) :
    putintN n i = putintN m i := by
  have hn0 : 0 < n := by
    rcases Nat.eq_zero_or_pos n with rfl | hn0
    · simp at hn; omega
    · exact hn0
  have hhead := headD_putintN_ne_zero hi hn
  have hval := value_putintN hn0 hn
  obtain ⟨b, bs, hbs⟩ := List.exists_cons_of_length_pos (length_putintN_pos i hn0)
  rw [hbs] at hhead hval ⊢
  have hb : b ≠ 0 := by simpa using hhead
  -- the leading byte is not zero, so the bytes fit in `m` as the number does
  have hlen : (b :: bs).length ≤ m := by
    have hpow : 256 ^ bs.length < 256 ^ m := by
      calc 256 ^ bs.length ≤ BigEndian.value (b :: bs) := BigEndian.pow_le_value hb bs
        _ = i := hval
        _ < 256 ^ m := hm
    have := (Nat.pow_lt_pow_iff_right (by norm_num)).mp hpow
    simp only [List.length_cons]
    omega
  rw [← hval, putintN_value hb bs hlen]

@[simp] theorem encodeString_nil : encodeString [] = [0x80] := rfl

/-- `writeUint` writes a number as `writeBigInt` writes it: `encodeString` of its
big-endian bytes without leading zeros. -/
theorem writeUint_eq_encodeString (i : UInt64) : writeUint i = encodeString (bigIntBytes i.toNat) := by
  have hi := i.toNat_lt
  by_cases h0 : i = 0
  · subst h0
    rfl
  have hpos : 0 < i.toNat := by
    have : i.toNat ≠ 0 := fun h => h0 (UInt64.toNat_inj.mp (by simpa using h))
    omega
  have hbig : bigIntBytes i.toNat = putint i.toNat :=
    (if_neg (by omega)).trans (putintN_eq_of_lt hpos (Nat.lt_of_lt_of_le (Nat.lt_pow_self (by norm_num)) le_rfl)
      (by simpa using hi))
  by_cases h128 : i < 128
  · have hlt : i.toNat < 128 := UInt64.lt_iff_toNat_lt.mp h128
    have hput : putint i.toNat = [i.toUInt8] := by
      rw [putint, putintN_succ_of_lt (by omega)]
      rfl
    have hbyte : [i.toUInt8].headD 0 ≤ 0x7F := by
      simp only [List.headD_cons, UInt8.le_iff_toNat_le, UInt64.toNat_toUInt8]
      simp only [UInt8.reduceToNat]
      omega
    rw [writeUint, if_neg h0, if_pos h128, hbig, hput, encodeString, if_pos ⟨rfl, hbyte⟩]
  · have hge : 128 ≤ i.toNat := by
      have := UInt64.lt_iff_toNat_lt.not.mp h128
      simp only [UInt64.reduceToNat] at this
      omega
    -- one byte of 128 or more is not its own encoding
    have hnot : ¬ ((putint i.toNat).length = 1 ∧ (putint i.toNat).headD 0 ≤ 0x7F) := by
      rintro ⟨h1, h7⟩
      obtain ⟨b, hb⟩ := List.length_eq_one_iff.mp h1
      rw [hb, List.headD_cons, UInt8.le_iff_toNat_le] at h7
      have hval := value_putintN (n := 8) (by norm_num) (by simpa using hi)
      rw [← putint, hb, BigEndian.value_singleton] at hval
      simp only [UInt8.reduceToNat] at h7
      omega
    rw [writeUint, if_neg h0, if_neg h128, hbig, encodeString, if_neg hnot, encodeStringHeader,
      puthead_of_lt _ _ (by have := length_putintN_le 8 i.toNat; rw [putint]; omega)]
    rfl

/-- The writer of a `uint` agrees with the writer of a `*big.Int` of the same number. -/
theorem writeUint_eq_writeBigInt (i : UInt64) : (pure (writeUint i) : Except String Bytes) = writeBigInt i.toNat := by
  rw [writeBigInt, if_neg (by omega)]
  by_cases h0 : i.toNat = 0
  · have : i = 0 := UInt64.toNat_inj.mp (by simpa using h0)
    subst this
    rfl
  · rw [if_neg (by omega), writeUint_eq_encodeString, Int.toNat_natCast]

/-! ## The writers put out items -/

/-- `b` is the encoding of one item. -/
def IsItem (b : Bytes) : Prop := ∃ k c, Canonical k c ∧ b = item k c

theorem isItem_encodeString {c : Bytes} (h : (encodeString c).length < 2 ^ 64) : IsItem (encodeString c) := by
  obtain ⟨hd, hhd⟩ := exists_header (stringKind c) c
  have hlen : (encodeString c).length = hd.length + c.length := by
    rw [← item_stringKind, hhd, List.length_append]
  exact ⟨stringKind c, c, ⟨by omega, .inr rfl⟩, (item_stringKind c).symm⟩

theorem isItem_list {c : Bytes} (h : (list c).length < 2 ^ 64) : IsItem (list c) :=
  ⟨.list, c, ⟨by have := length_list c; omega, .inl rfl⟩, rfl⟩

theorem isItem_writeBigInt {i : Int} {b : Bytes} (h : writeBigInt i = .ok b) (hlen : b.length < 2 ^ 64) :
    IsItem b := by
  unfold writeBigInt at h
  split at h
  · cases h
  split at h
  · cases h
    exact isItem_encodeString (c := []) (by decide)
  · cases h
    exact isItem_encodeString hlen

theorem isItem_writeBool (b : Bool) : IsItem (writeBool b) := by
  cases b
  · exact isItem_encodeString (c := []) (by decide)
  · exact isItem_encodeString (c := [1]) (by decide)

/-- One item, as a list of items. -/
theorem items_of_isItem {b : Bytes} (h : IsItem b) :
    ∃ l : List (Kind × Bytes), (∀ it ∈ l, Canonical it.1 it.2) ∧ b = encodeItems l ∧ l.length = 1 := by
  obtain ⟨k, c, hcan, rfl⟩ := h
  exact ⟨[(k, c)], by simpa using hcan, by simp, rfl⟩

mutual

/-- Every value the writer accepts is written as a run of items, one for every
value but a slice tagged `tail`, which puts out one for each element, once the
`RawValue`s and `EncodeRLP` calls in it each hold one item. -/
theorem writeValue_items : ∀ (ts : Tags) (v : Value) {b : Bytes}, RawAll IsItem v →
    writeValue ts v = .ok b → b.length < 2 ^ 64 →
      ∃ l : List (Kind × Bytes), (∀ it ∈ l, Canonical it.1 it.2) ∧ b = encodeItems l ∧ l.length = itemCount ts v
  | _, .rawValue _, _, hraw, h, _ => by
    cases h
    exact items_of_isItem hraw
  | _, .bigIntPtr none, _, _, h, _ => by
    cases h
    exact items_of_isItem (isItem_encodeString (c := []) (by decide))
  | _, .bigIntPtr (some _), _, _, h, hlen => items_of_isItem (isItem_writeBigInt h hlen)
  | _, .bigInt _, _, _, h, hlen => items_of_isItem (isItem_writeBigInt h hlen)
  | _, .ptr _ none, _, _, h, _ => by
    -- a nil pointer is the empty string or the empty list
    simp only [writeValue, pure, Except.pure, Except.ok.injEq] at h
    subst h
    have hstring : IsItem [0x80] := isItem_encodeString (c := []) (by decide)
    have hlist : IsItem (list []) := isItem_list (c := []) (by decide)
    apply items_of_isItem
    split_ifs <;> assumption
  | _, .ptr _ (some v), _, hraw, h, hlen => by
    obtain ⟨l, hl, rfl, hcount⟩ := writeValue_items {} v hraw h hlen
    exact ⟨l, hl, rfl, by rw [hcount, itemCount_empty]; rfl⟩
  | _, .encoder (.ok _), _, hraw, h, _ => by
    cases h
    exact items_of_isItem hraw
  | _, .encoder (.error _), _, _, h, _ => by cases h
  | _, .uint i, _, _, h, hlen => by
    cases h
    rw [writeUint_eq_encodeString] at hlen ⊢
    exact items_of_isItem (isItem_encodeString hlen)
  | _, .bool b, _, _, h, _ => by
    cases h
    exact items_of_isItem (isItem_writeBool b)
  | _, .string _, _, _, h, hlen => by
    cases h
    exact items_of_isItem (isItem_encodeString hlen)
  | _, .bytes _, _, _, h, hlen => by
    cases h
    exact items_of_isItem (isItem_encodeString hlen)
  | _, .byteArray _, _, _, h, hlen => by
    cases h
    exact items_of_isItem (isItem_encodeString hlen)
  | ts, .slice elems, _, hraw, h, hlen => by
    simp only [writeValue, bind, Except.bind] at h
    split at h
    · cases h
    rename_i body hbody
    cases h
    -- a `tail` slice puts out its elements, any other one list
    by_cases ht : ts.tail = true
    · rw [if_pos ht] at hlen ⊢
      obtain ⟨l, hl, rfl, hcount⟩ := writeElems_items elems hraw hbody hlen
      exact ⟨l, hl, rfl, by simp [itemCount, ht, hcount]⟩
    · rw [if_neg ht] at hlen ⊢
      obtain ⟨l, hl, hb, hcount⟩ := items_of_isItem (isItem_list hlen)
      exact ⟨l, hl, hb, by simp [itemCount, ht, hcount]⟩
  | _, .struct _, _, _, h, hlen => by
    simp only [writeValue, bind, Except.bind] at h
    split at h
    · cases h
    · cases h
      exact items_of_isItem (isItem_list hlen)
  | _, .iface none, _, _, h, _ => by
    cases h
    exact items_of_isItem (isItem_list (c := []) (by decide))
  | _, .iface (some v), _, hraw, h, hlen => by
    obtain ⟨l, hl, rfl, hcount⟩ := writeValue_items {} v hraw h hlen
    exact ⟨l, hl, rfl, by rw [hcount, itemCount_empty]; rfl⟩
  | _, .unsupported, _, _, h, _ => by cases h

/-- The elements of a slice are written as one item each. -/
theorem writeElems_items : ∀ (vs : List Value) {b : Bytes}, RawAllElems IsItem vs →
    writeElems vs = .ok b → b.length < 2 ^ 64 →
      ∃ l : List (Kind × Bytes), (∀ it ∈ l, Canonical it.1 it.2) ∧ b = encodeItems l ∧ l.length = vs.length
  | [], _, _, h, _ => by
    cases h
    exact ⟨[], by simp, rfl, rfl⟩
  | v :: vs, _, hraw, h, hlen => by
    simp only [writeElems, bind, Except.bind] at h
    split at h
    · cases h
    rename_i b₁ h₁
    split at h
    · cases h
    rename_i bs hbs
    cases h
    rw [List.length_append] at hlen
    obtain ⟨l₁, hl₁, rfl, hcount₁⟩ := writeValue_items {} v hraw.1 h₁ (by omega)
    obtain ⟨l, hl, rfl, hcount⟩ := writeElems_items vs hraw.2 hbs (by omega)
    refine ⟨l₁ ++ l, fun it hit => ?_, by simp [encodeItems], ?_⟩
    · rcases List.mem_append.mp hit with hit | hit
      · exact hl₁ it hit
      · exact hl it hit
    · simp only [List.length_append, List.length_cons, hcount₁, hcount, itemCount_empty]
      omega

end

/-- Every value the writer accepts with tags other than `tail` is written as one
item, once the `RawValue`s and `EncodeRLP` calls in it each hold one. -/
theorem isItem_writeValue {ts : Tags} {v : Value} {b : Bytes} (hraw : RawAll IsItem v) (htail : ts.tail = false)
    (h : writeValue ts v = .ok b) (hlen : b.length < 2 ^ 64) : IsItem b := by
  obtain ⟨l, hl, rfl, hcount⟩ := writeValue_items ts v hraw h hlen
  have hone : l.length = 1 := by
    rw [hcount]
    cases v <;> simp [itemCount, htail]
  obtain ⟨it, rfl⟩ := List.length_eq_one_iff.mp hone
  exact ⟨it.1, it.2, hl it List.mem_cons_self, by simp⟩

/-- A struct's fields are written as a run of items, as many as their writers put out. -/
theorem writeFields_items : ∀ (fs : List (Bool × Tags × Value)) {b : Bytes}, RawAllFields IsItem fs →
    writeFields fs = .ok b → b.length < 2 ^ 64 →
      ∃ l : List (Kind × Bytes), (∀ it ∈ l, Canonical it.1 it.2) ∧ b = encodeItems l ∧
        l.length = ((fs.filter Encoded).map fun f => itemCount f.2.1 f.2.2).sum
  | [], b, _, h, _ => by
    cases h
    exact ⟨[], by simp, rfl, rfl⟩
  | f :: fs, b, hraw, h, hlen => by
    unfold writeFields at h
    by_cases he : Encoded f
    · rw [if_pos he] at h
      simp only [bind, Except.bind] at h
      split at h
      · cases h
      rename_i b₁ h₁
      split at h
      · cases h
      rename_i bs hbs
      cases h
      rw [List.length_append] at hlen
      obtain ⟨l₁, hl₁, rfl, hcount₁⟩ := writeValue_items f.2.1 f.2.2 hraw.1 h₁ (by omega)
      obtain ⟨l, hl, rfl, hcount⟩ := writeFields_items fs hraw.2 hbs (by omega)
      refine ⟨l₁ ++ l, fun it hit => ?_, by simp [encodeItems],
        by simp [List.filter_cons_of_pos he, hcount₁, hcount]⟩
      rcases List.mem_append.mp hit with hit | hit
      · exact hl₁ it hit
      · exact hl it hit
    · rw [if_neg he] at h
      rw [List.filter_cons_of_neg he]
      exact writeFields_items fs hraw.2 h hlen

/-- Whatever the writer puts out for a value with tags other than `tail`, its
`RawValue`s and `EncodeRLP` calls each holding one item, `Split` reads back as
one item from any buffer it starts, and leaves the bytes after it. -/
theorem split_writeValue {ts : Tags} {v : Value} {b : Bytes} (hraw : RawAll IsItem v) (htail : ts.tail = false)
    (h : writeValue ts v = .ok b) (hlen : b.length < 2 ^ 64) (rest : Bytes) :
    ∃ k c, split (b ++ rest) = .ok (k, c, rest) ∧ b = item k c := by
  obtain ⟨k, c, hcan, rfl⟩ := isItem_writeValue hraw htail h hlen
  exact ⟨k, c, split_eq_ok_iff.mpr ⟨hcan, rfl⟩, rfl⟩

/-- A struct of a boolean, a `RawValue` holding the string `0x0102` and a slice
tagged `tail` of a string and a zero: one item, in front of a further byte. -/
theorem split_writeValue_pair :
    RawAll IsItem (.struct [(true, {}, .bool true), (true, {}, .rawValue [0x82, 1, 2]),
        (true, { tail := true }, .slice [.string [0x61], .uint 0])]) ∧
      ({} : Tags).tail = false ∧
      writeValue {} (.struct [(true, {}, .bool true), (true, {}, .rawValue [0x82, 1, 2]),
          (true, { tail := true }, .slice [.string [0x61], .uint 0])]) =
        .ok [0xC6, 0x01, 0x82, 1, 2, 0x61, 0x80] ∧
      ([0xC6, 0x01, 0x82, 1, 2, 0x61, 0x80] : Bytes).length < 2 ^ 64 ∧
      ∃ k c, split ([0xC6, 0x01, 0x82, 1, 2, 0x61, 0x80] ++ [0x01]) = .ok (k, c, [0x01]) ∧
        ([0xC6, 0x01, 0x82, 1, 2, 0x61, 0x80] : Bytes) = item k c := by
  have hraw : RawAll IsItem (.struct [(true, {}, .bool true), (true, {}, .rawValue [0x82, 1, 2]),
      (true, { tail := true }, .slice [.string [0x61], .uint 0])]) :=
    ⟨trivial, ⟨.string, [1, 2], ⟨by decide, .inr rfl⟩, rfl⟩, ⟨trivial, trivial, trivial⟩, trivial⟩
  have h : writeValue {} (.struct [(true, {}, .bool true), (true, {}, .rawValue [0x82, 1, 2]),
      (true, { tail := true }, .slice [.string [0x61], .uint 0])]) = .ok [0xC6, 0x01, 0x82, 1, 2, 0x61, 0x80] := by
    decide
  exact ⟨hraw, rfl, h, by decide, split_writeValue hraw rfl h (by decide) [0x01]⟩

/-- A struct's encoding is read back by `SplitList` as a list whose contents are
the written fields, and `CountValues` counts there one value for each field the
writer encodes, or for a slice tagged `tail` one for each of its elements. -/
theorem splitList_writeValue_struct {ts : Tags} {fs : List (Bool × Tags × Value)} {b : Bytes}
    (hraw : RawAllFields IsItem fs) (h : writeValue ts (.struct fs) = .ok b) (hlen : b.length < 2 ^ 64)
    (rest : Bytes) :
    ∃ body, writeFields fs = .ok body ∧ splitList (b ++ rest) = .ok (body, rest) ∧
      countValues body = .ok ((fs.filter Encoded).map fun f => itemCount f.2.1 f.2.2).sum := by
  simp only [writeValue, bind, Except.bind] at h
  split at h
  · cases h
  rename_i body hbody
  cases h
  have hcan : Canonical .list body := ⟨by have := length_list body; omega, .inl rfl⟩
  have hitems := writeFields_items fs hraw hbody (by have := length_list body; omega)
  refine ⟨body, hbody, ?_, countValues_eq_ok_iff.mpr hitems⟩
  rw [show list body = item .list body from rfl, splitList_item hcan rest, if_pos rfl]

/-- The struct of the encoder's example, with a field tagged `rlp:"-"` and a
last field tagged `rlp:"tail"` holding two values: its list holds four. -/
theorem splitList_writeValue_pair :
    RawAllFields IsItem [(true, {}, .uint 1), (true, { ignored := true }, .uint 7), (true, {}, .bytes [0x80]),
        (true, { tail := true }, .slice [.bool true, .string [0x61]])] ∧
      writeValue {} (.struct [(true, {}, .uint 1), (true, { ignored := true }, .uint 7), (true, {}, .bytes [0x80]),
          (true, { tail := true }, .slice [.bool true, .string [0x61]])]) = .ok [0xC5, 1, 0x81, 0x80, 0x01, 0x61] ∧
      ([0xC5, 1, 0x81, 0x80, 0x01, 0x61] : Bytes).length < 2 ^ 64 ∧
      ∃ body, writeFields [(true, {}, .uint 1), (true, { ignored := true }, .uint 7), (true, {}, .bytes [0x80]),
          (true, { tail := true }, .slice [.bool true, .string [0x61]])] = .ok body ∧
        splitList ([0xC5, 1, 0x81, 0x80, 0x01, 0x61] ++ []) = .ok (body, []) ∧
        countValues body = .ok (([(true, ({} : Tags), Value.uint 1), (true, { ignored := true }, .uint 7),
          (true, {}, .bytes [0x80]), (true, { tail := true }, .slice [.bool true, .string [0x61]])].filter
            Encoded).map fun f => itemCount f.2.1 f.2.2).sum := by
  have hraw : RawAllFields IsItem [(true, {}, .uint 1), (true, { ignored := true }, .uint 7),
      (true, {}, .bytes [0x80]), (true, { tail := true }, .slice [.bool true, .string [0x61]])] :=
    ⟨trivial, trivial, trivial, ⟨trivial, trivial, trivial⟩, trivial⟩
  have h : writeValue {} (.struct [(true, {}, .uint 1), (true, { ignored := true }, .uint 7),
      (true, {}, .bytes [0x80]), (true, { tail := true }, .slice [.bool true, .string [0x61]])]) =
      .ok [0xC5, 1, 0x81, 0x80, 0x01, 0x61] := by
    decide
  exact ⟨hraw, h, by decide, splitList_writeValue_struct hraw h (by decide) []⟩

end Rlp

end Nezha
