import Nezha.Core.Bytes

/-!
# The RLP encoder (`ethereum/go-ethereum/rlp/encode.go`)

`rlp.Encode` picks a writer from the static type of a value (`makeWriter`) and
runs it on an `encbuf`. A value is modelled here by the writer its type
selects, in the order of the cases of `makeWriter`: `RawValue`s, `*big.Int`
pointers and `big.Int`s, other pointers with the `Kind` a nil one encodes as,
types whose pointer implements `Encoder` (by what their `EncodeRLP` writes),
unsigned integers, booleans, strings, byte slices and byte arrays, other slices
and arrays by their elements, structs as the list of their fields (each marked
with whether it is exported and with its `rlp` struct tags, as
`parseStructTag` returns them), and interfaces. A value of a type `makeWriter`
rejects, or a struct with a tag `parseStructTag` rejects, is `unsupported`.

The `encbuf` keeps every list header apart from the string data and
`toBytes`/`toWriter` put it back in front of the list's contents; the model
writes each header there directly, as `puthead` computes it from the size of
the contents. A slice with the tag `rlp:"tail"` writes no header of its own:
its elements go into the list of the enclosing struct.

The point of this module is `structFields`: a struct is encoded through its
exported fields without the tag `rlp:"-"`, so a struct with no such field
encodes as the empty list `0xC0`, whatever its fields hold.
-/

namespace Nezha

namespace Rlp

/-- `rlp.Kind`. -/
inductive Kind where
  | byte
  | string
  | list
  deriving DecidableEq, Repr

/-- `tags`, the parsed `rlp` struct tag of a field. The zero value is Go's. -/
structure Tags where
  nilOK : Bool := false
  nilKind : Kind := .byte
  tail : Bool := false
  ignored : Bool := false
  deriving DecidableEq, Repr

/-- A Go value, by the writer `makeWriter` chooses for its type. -/
inductive Value where
  /-- a `RawValue`: `writeRawValue` -/
  | rawValue (b : Bytes)
  /-- a `*big.Int`, nil or not: `writeBigIntPtr` -/
  | bigIntPtr (i : Option Int)
  /-- a `big.Int`: `writeBigIntNoPtr` -/
  | bigInt (i : Int)
  /-- any other pointer, with `defaultNilKind` of its element type: `makePtrWriter` -/
  | ptr (nilKind : Kind) (elem : Option Value)
  /-- a type whose pointer implements `Encoder`, by what its `EncodeRLP` writes
  or the error it returns: `makeEncoderWriter` -/
  | encoder (out : Except String Bytes)
  /-- an unsigned integer: `writeUint` -/
  | uint (i : UInt64)
  /-- a `bool`: `writeBool` -/
  | bool (b : Bool)
  /-- a `string`, by its bytes: `writeString` -/
  | string (s : Bytes)
  /-- a `[]byte`: `writeBytes` -/
  | bytes (b : Bytes)
  /-- a `[N]byte`: `writeByteArray` -/
  | byteArray (b : Bytes)
  /-- any other slice or array, by its elements: `makeSliceWriter` -/
  | slice (elems : List Value)
  /-- a struct, each field with whether it is exported and its tags: `makeStructWriter` -/
  | struct (fields : List (Bool × Tags × Value))
  /-- an interface, nil or holding a value: `writeInterface` -/
  | iface (elem : Option Value)
  /-- a value of a type that is not RLP-serializable -/
  | unsupported

/-- `putint(b, i)` with room for `n` bytes: the big-endian bytes of `i` with
no leading zero, one byte at least. -/
def putintN : Nat → Nat → Bytes
  | 0, _ => []
  | n + 1, i => if i < 256 then [i.toUInt8] else putintN n (i / 256) ++ [(i % 256).toUInt8]

/-- `putint(b, i)` for a `uint64` `i`. -/
def putint (i : Nat) : Bytes := putintN 8 i

/-- `(*big.Int).Bytes()` of a non-negative integer: its big-endian bytes, none for zero. -/
def bigIntBytes (n : Nat) : Bytes := if n = 0 then [] else putintN n n

/-- `puthead(buf, smalltag, largetag, size)`. -/
def puthead (smalltag largetag : UInt8) (size : Nat) : Bytes :=
  if size < 56 then [smalltag + size.toUInt8]
  else (largetag + (putint size).length.toUInt8) :: putint size

/-- `encodeStringHeader(size)`. -/
def encodeStringHeader (size : Nat) : Bytes := puthead 0x80 0xB7 size

/-- `encodeString(b)`: a single byte up to `0x7F` is its own encoding. -/
def encodeString (b : Bytes) : Bytes :=
  if b.length = 1 ∧ b.headD 0 ≤ 0x7F then b else encodeStringHeader b.length ++ b

/-- `writeRawValue`: the bytes as they are. -/
def writeRawValue (b : Bytes) : Bytes := b

/-- `writeUint`. -/
def writeUint (i : UInt64) : Bytes :=
  if i = 0 then [0x80]
  else if i < 128 then [i.toUInt8]
  else (0x80 + (putint i.toNat).length.toUInt8) :: putint i.toNat

/-- `writeBigInt`. -/
def writeBigInt (i : Int) : Except String Bytes :=
  if i < 0 then throw "rlp: cannot encode negative *big.Int"
  else if i = 0 then pure [0x80]
  else pure (encodeString (bigIntBytes i.toNat))

/-- `writeBool`. -/
def writeBool (b : Bool) : Bytes := if b then [0x01] else [0x80]

/-- `writeBigIntNoPtr`. -/
def writeBigIntNoPtr (i : Int) : Except String Bytes := writeBigInt i

/-- `writeBigIntPtr`: a nil pointer is the empty string. -/
def writeBigIntPtr : Option Int → Except String Bytes
  | none => pure [0x80]
  | some i => writeBigInt i

/-- `writeBytes`. -/
def writeBytes (b : Bytes) : Bytes := encodeString b

/-- `writeByteArray`. -/
def writeByteArray (b : Bytes) : Bytes := encodeString b

/-- `writeString`: a single byte up to `0x7F` is its own encoding. -/
def writeString (s : Bytes) : Bytes :=
  if s.length = 1 ∧ s.headD 0 ≤ 0x7F then s else encodeStringHeader s.length ++ s

theorem writeString_eq_encodeString (s : Bytes) : writeString s = encodeString s := rfl

/-- `w.listEnd(lh)` after `lh := w.list()`: the contents behind their list header. -/
def list (body : Bytes) : Bytes := puthead 0xC0 0xF7 body.length ++ body

/-- A field the writer of its struct encodes: `structFields` keeps the
exported fields without the tag `rlp:"-"`. -/
def Encoded (f : Bool × Tags × Value) : Bool := f.1 && !f.2.1.ignored

mutual

/-- The writer `makeWriter(typ, ts)` builds, run on a value of `typ`. A pointer,
an interface or a slice writes its elements with empty tags
(`cachedTypeInfo1(typ.Elem(), tags{})`). -/
def writeValue (ts : Tags) : Value → Except String Bytes
  | .rawValue b => pure (writeRawValue b)
  | .bigIntPtr i => writeBigIntPtr i
  | .bigInt i => writeBigIntNoPtr i
  | .ptr nilKind none =>
    -- `makePtrWriter`: a struct tag's `nilKind` wins over the element type's
    let nilKind := if ts.nilOK then ts.nilKind else nilKind
    pure (if nilKind = .string then [0x80] else list [])
  | .ptr _ (some v) => writeValue {} v
  | .encoder out => out
  | .uint i => pure (writeUint i)
  | .bool b => pure (writeBool b)
  | .string s => pure (writeString s)
  | .bytes b => pure (writeBytes b)
  | .byteArray b => pure (writeByteArray b)
  | .slice elems => do
    -- `makeSliceWriter`: only a slice without the tag `tail` opens a list of its own
    let body ← writeElems elems
    pure (if ts.tail then body else list body)
  | .struct fields => do
    let body ← writeFields fields
    pure (list body)
  | .iface none => pure [0xC0]
  | .iface (some v) => writeValue {} v
  | .unsupported => throw "rlp: type is not RLP-serializable"

/-- The loop of the writer `makeSliceWriter` over the elements. -/
def writeElems : List Value → Except String Bytes
  | [] => pure []
  | v :: vs => do
    let b ← writeValue {} v
    let bs ← writeElems vs
    pure (b ++ bs)

/-- The loop of the writer `makeStructWriter` over `structFields`. -/
def writeFields : List (Bool × Tags × Value) → Except String Bytes
  | [] => pure []
  | f :: fs =>
    if Encoded f then do
      let b ← writeValue f.2.1 f.2.2
      let bs ← writeFields fs
      pure (b ++ bs)
    else writeFields fs

end

/-- `EncodeToBytes(val)`: the writer of `val`'s type, with empty tags. -/
def encode (v : Value) : Except String Bytes := writeValue {} v

/-- What `Encode(w, val)` writes to `w`: nothing when the encoding fails. -/
def encodeWritten (v : Value) : Bytes :=
  match encode v with
  | .ok b => b
  | .error _ => []

example : putint 300 = [1, 44] := by decide
example : encode (.struct [(true, {}, .uint 1), (true, {}, .bytes [0x80])]) = .ok [0xC3, 1, 0x81, 0x80] := by
  decide

@[simp] theorem writeValue_ptr_some (ts : Tags) (nilKind : Kind) (v : Value) :
    writeValue ts (.ptr nilKind (some v)) = writeValue {} v := by
  simp [writeValue]

/-! ## Lengths -/

theorem length_puthead_pos (smalltag largetag : UInt8) (size : Nat) :
    0 < (puthead smalltag largetag size).length := by
  unfold puthead
  split <;> simp

@[simp] theorem puthead_zero (smalltag largetag : UInt8) : puthead smalltag largetag 0 = [smalltag] := by
  simp [puthead]

@[simp] theorem list_nil : list [] = [0xC0] := by simp [list]

theorem length_list (body : Bytes) : body.length + 1 ≤ (list body).length := by
  have h := length_puthead_pos 0xC0 0xF7 body.length
  simp only [list, List.length_append]
  omega

theorem length_encodeString_pos (b : Bytes) : 0 < (encodeString b).length := by
  unfold encodeString
  split
  · omega
  · have h := length_puthead_pos 0x80 0xB7 b.length
    simp only [encodeStringHeader, List.length_append]
    omega

theorem length_writeUint_pos (i : UInt64) : 0 < (writeUint i).length := by
  unfold writeUint
  split
  · simp
  · split <;> simp

theorem length_writeBigIntPtr_pos {i : Option Int} {b : Bytes} (h : writeBigIntPtr i = .ok b) :
    0 < b.length := by
  cases i with
  | none => cases h; simp
  | some i =>
    simp only [writeBigIntPtr, writeBigInt] at h
    split at h
    · cases h
    · split at h
      · cases h; simp
      · cases h; exact length_encodeString_pos _

/-! ## What the `RawValue`s and `Encoder`s of a value write -/

mutual

/-- Every `RawValue` in a value holds bytes with `P`, and every `EncodeRLP` in
it that returns writes bytes with `P`. -/
def RawAll (P : Bytes → Prop) : Value → Prop
  | .rawValue b => P b
  | .bigIntPtr _ => True
  | .bigInt _ => True
  | .ptr _ none => True
  | .ptr _ (some v) => RawAll P v
  | .encoder (.ok b) => P b
  | .encoder (.error _) => True
  | .uint _ => True
  | .bool _ => True
  | .string _ => True
  | .bytes _ => True
  | .byteArray _ => True
  | .slice elems => RawAllElems P elems
  | .struct fields => RawAllFields P fields
  | .iface none => True
  | .iface (some v) => RawAll P v
  | .unsupported => True

def RawAllElems (P : Bytes → Prop) : List Value → Prop
  | [] => True
  | v :: vs => RawAll P v ∧ RawAllElems P vs

def RawAllFields (P : Bytes → Prop) : List (Bool × Tags × Value) → Prop
  | [] => True
  | f :: fs => RawAll P f.2.2 ∧ RawAllFields P fs

end

/-- The number of values the writer of a value puts out: a slice tagged `tail`
puts out its elements, every other writer one value. -/
def itemCount (ts : Tags) : Value → Nat
  | .slice elems => if ts.tail then elems.length else 1
  | _ => 1

@[simp] theorem itemCount_empty (v : Value) : itemCount {} v = 1 := by
  cases v <;> rfl

mutual

/-- Each value a writer puts out takes a byte at least, once no `RawValue` or
`EncodeRLP` in it is empty. -/
theorem itemCount_le_length : ∀ (ts : Tags) (v : Value) (b : Bytes), RawAll (· ≠ []) v →
    writeValue ts v = .ok b → itemCount ts v ≤ b.length
  | _, .rawValue _, _, hraw, h => by
    cases h
    exact List.length_pos_of_ne_nil hraw
  | _, .bigIntPtr _, _, _, h => length_writeBigIntPtr_pos h
  | _, .bigInt _, _, _, h => length_writeBigIntPtr_pos (i := some _) h
  | _, .ptr _ none, _, _, h => by
    simp only [writeValue] at h
    cases h
    split <;> split <;> simp [itemCount]
  | _, .ptr _ (some v), b, hraw, h => by
    show 1 ≤ b.length
    simpa using itemCount_le_length {} v b hraw h
  | _, .encoder (.ok _), _, hraw, h => by
    cases h
    exact List.length_pos_of_ne_nil hraw
  | _, .encoder (.error _), _, _, h => by cases h
  | _, .uint i, _, _, h => by cases h; exact length_writeUint_pos i
  | _, .bool b, _, _, h => by cases h; cases b <;> simp [writeBool, itemCount]
  | _, .string s, _, _, h => by cases h; exact length_encodeString_pos s
  | _, .bytes c, _, _, h => by cases h; exact length_encodeString_pos c
  | _, .byteArray c, _, _, h => by cases h; exact length_encodeString_pos c
  | ts, .slice elems, _, hraw, h => by
    simp only [writeValue, bind, Except.bind] at h
    split at h
    · cases h
    · rename_i body hbody
      cases h
      have hle := length_le_writeElems elems body hraw hbody
      -- a `tail` slice puts out its elements, any other one list
      by_cases ht : ts.tail = true
      · simpa only [itemCount, ht, if_true] using hle
      · simp only [itemCount, ht]
        exact Nat.lt_of_lt_of_le (Nat.succ_pos _) (length_list body)
  | _, .struct _, _, _, h => by
    simp only [writeValue, bind, Except.bind] at h
    split at h
    · cases h
    · cases h
      exact Nat.lt_of_lt_of_le (Nat.succ_pos _) (length_list _)
  | _, .iface none, _, _, h => by cases h; simp [itemCount]
  | _, .iface (some v), b, hraw, h => by
    show 1 ≤ b.length
    simpa using itemCount_le_length {} v b hraw h
  | _, .unsupported, _, _, h => by cases h

/-- Each element of a slice takes a byte at least. -/
theorem length_le_writeElems : ∀ (vs : List Value) (b : Bytes), RawAllElems (· ≠ []) vs →
    writeElems vs = .ok b → vs.length ≤ b.length
  | [], _, _, _ => Nat.zero_le _
  | v :: vs, b, hraw, h => by
    simp only [writeElems, bind, Except.bind] at h
    split at h
    · cases h
    rename_i c hc
    split at h
    · cases h
    rename_i cs hcs
    cases h
    have h₁ := itemCount_le_length {} v c hraw.1 hc
    have h₂ := length_le_writeElems vs cs hraw.2 hcs
    rw [itemCount_empty] at h₁
    simp only [List.length_cons, List.length_append]
    omega

end

/-- Each field a struct encodes adds a byte at least for each value its writer puts out. -/
theorem length_writeFields {fs : List (Bool × Tags × Value)} {b : Bytes} (hraw : RawAllFields (· ≠ []) fs)
    (h : writeFields fs = .ok b) : ((fs.filter Encoded).map fun f => itemCount f.2.1 f.2.2).sum ≤ b.length := by
  induction fs generalizing b with
  | nil => simp
  | cons f fs ih =>
    unfold writeFields at h
    by_cases hf : Encoded f
    · simp only [hf, if_true, bind, Except.bind] at h
      split at h
      · cases h
      · rename_i c hc
        split at h
        · cases h
        · rename_i cs hcs
          cases h
          have h₁ := itemCount_le_length _ _ _ hraw.1 hc
          have h₂ := ih hraw.2 hcs
          simp only [List.filter_cons_of_pos hf, List.map_cons, List.sum_cons, List.length_append]
          omega
    · simp only [hf] at h
      simpa [List.filter_cons_of_neg hf] using ih hraw.2 h

/-- A struct is encoded through the fields `structFields` keeps: with none, it
is the empty list. -/
theorem writeFields_of_not_encoded {fs : List (Bool × Tags × Value)} (h : ∀ f ∈ fs, Encoded f = false) :
    writeFields fs = .ok [] := by
  induction fs with
  | nil => rfl
  | cons f fs ih =>
    have hf := h f (List.mem_cons_self ..)
    unfold writeFields
    simp only [hf]
    exact ih fun g hg => h g (List.mem_cons_of_mem _ hg)

theorem writeValue_struct_of_not_encoded {ts : Tags} {fs : List (Bool × Tags × Value)}
    (h : ∀ f ∈ fs, Encoded f = false) : writeValue ts (.struct fs) = .ok [0xC0] := by
  simp [writeValue, writeFields_of_not_encoded h, bind, Except.bind, pure, Except.pure]

/-- The encoding of a struct is at least one byte longer than the number of
values its fields put out. -/
theorem length_writeValue_struct {ts : Tags} {fs : List (Bool × Tags × Value)} {b : Bytes}
    (hraw : RawAllFields (· ≠ []) fs) (h : writeValue ts (.struct fs) = .ok b) :
    ((fs.filter Encoded).map fun f => itemCount f.2.1 f.2.2).sum + 1 ≤ b.length := by
  simp only [writeValue, bind, Except.bind] at h
  split at h
  · cases h
  · rename_i body hbody
    cases h
    have h₁ := length_writeFields hraw hbody
    have h₂ := length_list body
    omega

end Rlp

end Nezha
