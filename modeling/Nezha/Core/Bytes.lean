import Mathlib.Data.List.Sort
import Mathlib.Data.UInt
import Mathlib.Tactic.Common

/-!
# Go byte strings, `%x` formatting and sorting

A Go `string` is an immutable byte sequence and `<` on strings is bytewise
lexicographic, so both `[]byte` and `string` are modelled as lists of bytes.
`fmt.Sprintf("%x", b)` writes two lower-case hexadecimal digits per byte; the
point proved here is that it is injective, so comparing hexadecimal names is
comparing the original bytes. `sort.Strings` and `sort.Ints` sort ascending;
the lists they receive never repeat an element, where every correct sort has
the same result, so an insertion sort stands for Go's.
-/

/-- A Go `[]byte` or `string`. -/
abbrev Bytes := List UInt8

/-- The lower-case hexadecimal digit of a value below 16. -/
def hexDigit (n : UInt8) : UInt8 := if n < 10 then n + 48 else n + 87

/-- `fmt.Sprintf("%x", bs)`. -/
def sprintfHex (bs : Bytes) : Bytes := bs.flatMap fun b => [hexDigit (b / 16), hexDigit (b % 16)]

/-- `sort.Strings`. -/
def sortStrings (xs : List Bytes) : List Bytes := xs.insertionSort (· ≤ ·)

/-- `sort.Ints`, over the integers or the naturals. -/
def sortInts {α : Type} [LinearOrder α] (xs : List α) : List α := xs.insertionSort (· ≤ ·)

/-- `new(big.Int).SetBytes(b)`: the big-endian value of `b`. -/
def setBytes (b : Bytes) : Nat := b.foldl (fun n c => n * 256 + c.toNat) 0

theorem hexDigit_toNat {n : UInt8} (h : n.toNat < 16) :
    (hexDigit n).toNat = if n.toNat < 10 then n.toNat + 48 else n.toNat + 87 := by
  unfold hexDigit
  split <;> split <;> simp_all [UInt8.lt_iff_toNat_lt, UInt8.toNat_add] <;> omega

/-- The two digits of one byte determine the byte. -/
theorem eq_of_hexDigit_eq {b c : UInt8} (h1 : hexDigit (b / 16) = hexDigit (c / 16))
    (h2 : hexDigit (b % 16) = hexDigit (c % 16)) : b = c := by
  have hb := b.toNat_lt
  have hc := c.toNat_lt
  have e1 := congrArg UInt8.toNat h1
  have e2 := congrArg UInt8.toNat h2
  rw [hexDigit_toNat (by simp [UInt8.toNat_div]; omega),
    hexDigit_toNat (by simp [UInt8.toNat_div]; omega)] at e1
  rw [hexDigit_toNat (by simp [UInt8.toNat_mod]; omega),
    hexDigit_toNat (by simp [UInt8.toNat_mod]; omega)] at e2
  simp only [UInt8.toNat_div, UInt8.toNat_mod, UInt8.reduceToNat] at e1 e2
  apply UInt8.toNat_inj.mp
  split at e1 <;> split at e1 <;> split at e2 <;> split at e2 <;> omega

@[simp] theorem sprintfHex_nil : sprintfHex [] = [] := rfl

@[simp] theorem sprintfHex_cons (b : UInt8) (bs : Bytes) :
    sprintfHex (b :: bs) = hexDigit (b / 16) :: hexDigit (b % 16) :: sprintfHex bs := rfl

@[simp] theorem length_sprintfHex (bs : Bytes) : (sprintfHex bs).length = 2 * bs.length := by
  induction bs with
  | nil => rfl
  | cons b bs ih => simp [ih]; omega

/-- Distinct byte strings get distinct hexadecimal names. -/
theorem sprintfHex_injective : Function.Injective sprintfHex := by
  intro xs
  induction xs with
  | nil =>
    intro ys h
    have hl := congrArg List.length h
    simp only [length_sprintfHex, List.length_nil] at hl
    exact (List.length_eq_zero_iff.mp (by omega)).symm
  | cons x xs ih =>
    intro ys h
    cases ys with
    | nil => simp at h
    | cons y ys =>
      simp only [sprintfHex_cons, List.cons.injEq] at h
      obtain ⟨h1, h2, h3⟩ := h
      rw [eq_of_hexDigit_eq h1 h2, ih h3]

@[simp] theorem sprintfHex_inj {xs ys : Bytes} : sprintfHex xs = sprintfHex ys ↔ xs = ys :=
  sprintfHex_injective.eq_iff

theorem sortStrings_perm (xs : List Bytes) : (sortStrings xs).Perm xs :=
  List.perm_insertionSort _ xs

theorem sortInts_perm {α : Type} [LinearOrder α] (xs : List α) : (sortInts xs).Perm xs :=
  List.perm_insertionSort _ xs

theorem sortInts_pairwise {α : Type} [LinearOrder α] (xs : List α) : (sortInts xs).Pairwise (· ≤ ·) :=
  List.pairwise_insertionSort _ xs
