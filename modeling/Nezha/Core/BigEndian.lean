import Mathlib.Data.List.Induction
import Mathlib.Tactic.Ring

/-!
# Big-endian byte strings

The number a byte string denotes with its first byte the most significant:
each byte in turn is put below the bits read so far, `s <<< 8 ||| b`. No bit
of a byte reaches past the eighth, so this is `256 * s + b`, and a string of
`n` bytes denotes a number below `256 ^ n`. A leading byte other than zero
puts the number at `256 ^ (n - 1)` or above, so among the strings without a
leading zero the length of the string is fixed by the number.
-/

namespace BigEndian

/-- The number `bs` denotes, most significant byte first. -/
def value (bs : List UInt8) : Nat := bs.foldl (fun s b => s <<< 8 ||| b.toNat) 0

@[simp] theorem value_nil : value [] = 0 := rfl

theorem value_append_singleton (bs : List UInt8) (b : UInt8) :
    value (bs ++ [b]) = value bs * 256 + b.toNat := by
  rw [value, List.foldl_append, ← value]
  simp only [List.foldl_cons, List.foldl_nil]
  rw [← Nat.shiftLeft_add_eq_or_of_lt (by simpa using b.toNat_lt), Nat.shiftLeft_eq]

@[simp] theorem value_singleton (b : UInt8) : value [b] = b.toNat := by
  simpa using value_append_singleton [] b

theorem value_lt (bs : List UInt8) : value bs < 256 ^ bs.length := by
  induction bs using List.reverseRecOn with
  | nil => simp
  | append_singleton bs b ih =>
    rw [value_append_singleton, List.length_append, List.length_singleton, Nat.pow_succ]
    have hb := b.toNat_lt
    have : value bs * 256 + 256 ≤ 256 ^ bs.length * 256 := by
      rw [← Nat.succ_mul]
      exact Nat.mul_le_mul_right 256 ih
    omega

theorem value_cons (b : UInt8) (bs : List UInt8) :
    value (b :: bs) = b.toNat * 256 ^ bs.length + value bs := by
  induction bs using List.reverseRecOn with
  | nil => simp
  | append_singleton bs c ih =>
    rw [← List.cons_append, value_append_singleton, ih, value_append_singleton,
      List.length_append, List.length_singleton, Nat.pow_succ]
    ring

/-- A string whose first byte is not zero denotes at least `256 ^ (n - 1)`. -/
theorem pow_le_value {b : UInt8} (hb : b ≠ 0) (bs : List UInt8) : 256 ^ bs.length ≤ value (b :: bs) := by
  have h : 1 ≤ b.toNat := by
    have : b.toNat ≠ 0 := fun h => hb (UInt8.toNat_inj.mp (by simpa using h))
    omega
  rw [value_cons]
  calc 256 ^ bs.length = 1 * 256 ^ bs.length := (Nat.one_mul _).symm
    _ ≤ b.toNat * 256 ^ bs.length := Nat.mul_le_mul_right _ h
    _ ≤ b.toNat * 256 ^ bs.length + value bs := Nat.le_add_right _ _

end BigEndian
