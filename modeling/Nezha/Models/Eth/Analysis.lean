import Nezha.Models.Eth.EthTransaction
import Nezha.Core.Loop
import Nezha.Core.GoMap
import Mathlib.Data.Nat.Bitwise

/-!
# Jump destination analysis (`core/vm/analysis.go`, `contract.go`)

`codeBitmap` walks the code once, instruction by instruction, and sets a bit in
a `bitvec` for every byte that is the data of a `PUSH1` to `PUSH32`; a bit is
the bit `0x80 >> (pos % 8)` of byte `pos / 8`. `validJumpdest` accepts a
destination inside the code that holds a `JUMPDEST` and is no such data byte.
It takes the analysis from the `jumpdests` map of the parent context, by code
hash, or else from the contract's own `analysis`, and computes and stores it
when it is not there.

The bitmap is four bytes longer than the code needs, for a push at the end of
the code whose data runs past it. The main results: `codeBitmap` never indexes
outside its bitmap, and marks exactly the bytes after the instruction
boundaries that the walk visits (`codeBitmap_spec`); and `validJumpdest`,
from caches that hold analyses of the codes their keys stand for, accepts
exactly the `JUMPDEST`s at instruction boundaries and keeps its caches so
(`validJumpdest_spec`).

A Go panic on an index out of range is `Fault.indexOutOfRange`; the loop of
`codeBitmap` runs with as much fuel as the code has bytes. The destination, a
`*big.Int` from the stack, is a `Nat`; `dest.BitLen() >= 63` is `2 ^ 62 ≤ dest`.
-/

namespace Nezha

namespace Analysis

/-! ## `bitvec` -/

/-- `bits.set(pos)`. -/
def set (bits : Bytes) (pos : Nat) : Except Fault Bytes := do
  let b ← sliceIndex bits (pos / 8)
  sliceSet bits (pos / 8) (b ||| (0x80 >>> (pos % 8).toUInt8))

/-- `bits.set8(pos)`: the eight bits from `pos` on. -/
def set8 (bits : Bytes) (pos : Nat) : Except Fault Bytes := do
  let b ← sliceIndex bits (pos / 8)
  let bits ← sliceSet bits (pos / 8) (b ||| (0xFF >>> (pos % 8).toUInt8))
  let b ← sliceIndex bits (pos / 8 + 1)
  sliceSet bits (pos / 8 + 1) (b ||| ~~~(0xFF >>> (pos % 8).toUInt8))

/-- `bits.codeSegment(pos)`: the bit of `pos` is clear. -/
def codeSegment (bits : Bytes) (pos : Nat) : Except Fault Bool := do
  let b ← sliceIndex bits (pos / 8)
  pure ((b &&& (0x80 >>> (pos % 8).toUInt8)) == 0)

/-! ## `codeBitmap` -/

/-- `OpCode(code[pc])` is one of `PUSH1` to `PUSH32`. -/
def isPush (op : UInt8) : Prop := 0x60 ≤ op ∧ op ≤ 0x7F

instance (op : UInt8) : Decidable (isPush op) := inferInstanceAs (Decidable (_ ∧ _))

/-- `for ; numbits >= 8; numbits -= 8 { bits.set8(pc); pc += 8 }`, from
`numbits` and `pc`, to the bits, `pc` and `numbits` it leaves. -/
def set8Loop : Nat → Bytes → Nat → Except Fault (Bytes × Nat × Nat)
  | numbits + 8, bits, pc => do
    let bits ← set8 bits pc
    set8Loop numbits bits (pc + 8)
  | numbits, bits, pc => pure (bits, pc, numbits)

/-- `for ; numbits > 0; numbits-- { bits.set(pc); pc++ }`. -/
def setLoop : Nat → Bytes → Nat → Except Fault (Bytes × Nat)
  | numbits + 1, bits, pc => do
    let bits ← set bits pc
    setLoop numbits bits (pc + 1)
  | 0, bits, pc => pure (bits, pc)

/-- The variables of the loop of `codeBitmap`. -/
structure Scan where
  pc : Nat
  bits : Bytes

/-- One pass of the loop of `codeBitmap`: a push sets the bits of its data. -/
def scanStep (code : Bytes) (st : Scan) : Except Fault Scan := do
  let op ← sliceIndex code st.pc
  if isPush op then
    let numbits := (op - 0x60 + 1).toNat
    let (bits, pc, numbits) ← set8Loop numbits st.bits (st.pc + 1)
    let (bits, pc) ← setLoop numbits bits pc
    pure ⟨pc, bits⟩
  else pure ⟨st.pc + 1, st.bits⟩

/-- `codeBitmap(code)`. -/
def codeBitmap (code : Bytes) : Except Fault Bytes := do
  let st ← whileM (fun st => decide (st.pc < code.length)) (scanStep code) code.length
    ⟨0, List.replicate (code.length / 8 + 1 + 4) 0⟩
  pure st.bits

example : codeBitmap [0x60, 0x5B, 0x5B] = .ok [0x40, 0, 0, 0, 0] := by decide

/-! ## Bits -/

/-- The bit of `pos`: set for a data byte. -/
def bitAt (bits : Bytes) (pos : Nat) : Bool := (bits.getD (pos / 8) 0).toNat.testBit (7 - pos % 8)

theorem testBit_mask {k i : Nat} (hk : k < 8) (hi : i < 8) :
    ((0x80 : UInt8) >>> k.toUInt8).toNat.testBit i = decide (i = 7 - k) := by
  have h : ∀ k i : Fin 8, ((0x80 : UInt8) >>> k.val.toUInt8).toNat.testBit i.val = decide (i.val = 7 - k.val) := by
    decide
  exact h ⟨k, hk⟩ ⟨i, hi⟩

theorem testBit_lowMask {k i : Nat} (hk : k < 8) (hi : i < 8) :
    ((0xFF : UInt8) >>> k.toUInt8).toNat.testBit i = decide (i < 8 - k) := by
  have h : ∀ k i : Fin 8, ((0xFF : UInt8) >>> k.val.toUInt8).toNat.testBit i.val = decide (i.val < 8 - k.val) := by
    decide
  exact h ⟨k, hk⟩ ⟨i, hi⟩

theorem testBit_highMask {k i : Nat} (hk : k < 8) (hi : i < 8) :
    (~~~((0xFF : UInt8) >>> k.toUInt8)).toNat.testBit i = decide (8 - k ≤ i) := by
  have h : ∀ k i : Fin 8,
      (~~~((0xFF : UInt8) >>> k.val.toUInt8)).toNat.testBit i.val = decide (8 - k.val ≤ i.val) := by
    decide
  exact h ⟨k, hk⟩ ⟨i, hi⟩

/-- The bit `codeSegment` tests is the bit `bitAt` reads. -/
theorem and_mask_eq_zero (b : UInt8) {k : Nat} (hk : k < 8) :
    ((b &&& ((0x80 : UInt8) >>> k.toUInt8)) == 0) = !b.toNat.testBit (7 - k) := by
  have hm : ((0x80 : UInt8) >>> k.toUInt8).toNat = 2 ^ (7 - k) := by
    have h : ∀ k : Fin 8, ((0x80 : UInt8) >>> k.val.toUInt8).toNat = 2 ^ (7 - k.val) := by decide
    exact h ⟨k, hk⟩
  have hand : (b &&& ((0x80 : UInt8) >>> k.toUInt8)).toNat = (b.toNat.testBit (7 - k)).toNat * 2 ^ (7 - k) := by
    rw [UInt8.toNat_and, hm, Nat.and_two_pow]
  cases h : b.toNat.testBit (7 - k)
  · rw [h, Bool.toNat_false, Nat.zero_mul] at hand
    have : b &&& ((0x80 : UInt8) >>> k.toUInt8) = 0 := UInt8.toNat_inj.mp (by simpa using hand)
    simp [this]
  · rw [h, Bool.toNat_true, Nat.one_mul] at hand
    have hpos := Nat.two_pow_pos (7 - k)
    have : b &&& ((0x80 : UInt8) >>> k.toUInt8) ≠ 0 := fun h0 => by
      rw [h0] at hand
      simp at hand
      omega
    simp [this]

/-- Or-ing `c` into byte `i` sets the bits of `c` there. -/
theorem bitAt_set_or {bits : Bytes} {i : Nat} (hi : i < bits.length) (c : UInt8) (j : Nat) :
    bitAt (bits.set i (bits[i] ||| c)) j = (bitAt bits j || (j / 8 == i && c.toNat.testBit (7 - j % 8))) := by
  unfold bitAt
  rw [List.getD_eq_getElem?_getD, List.getElem?_set, List.getD_eq_getElem?_getD]
  by_cases hj : j / 8 = i
  · subst hj
    simp [hi, UInt8.toNat_or, Nat.testBit_or]
  · simp [Ne.symm hj, hj]

theorem set_spec {bits : Bytes} {pos : Nat} (h : pos / 8 < bits.length) :
    ∃ bits', set bits pos = .ok bits' ∧ bits'.length = bits.length ∧
      ∀ j, bitAt bits' j = (bitAt bits j || j == pos) := by
  refine ⟨_, by rw [set, sliceIndex_of_lt h, except_ok_bind, sliceSet, if_pos h], List.length_set, fun j => ?_⟩
  rw [bitAt_set_or h, testBit_mask (Nat.mod_lt _ (by decide)) (by omega)]
  congr 1
  -- the mask of `pos` has the one bit of `pos` in its byte
  rw [Bool.eq_iff_iff]
  simp only [Bool.and_eq_true, beq_iff_eq, decide_eq_true_eq]
  omega

theorem set8_spec {bits : Bytes} {pos : Nat} (h : pos / 8 + 1 < bits.length) :
    ∃ bits', set8 bits pos = .ok bits' ∧ bits'.length = bits.length ∧
      ∀ j, bitAt bits' j = (bitAt bits j || (decide (pos ≤ j) && decide (j < pos + 8))) := by
  have h₀ : pos / 8 < bits.length := by omega
  set bits₁ := bits.set (pos / 8) (bits[pos / 8] ||| ((0xFF : UInt8) >>> (pos % 8).toUInt8))
  have h₁ : pos / 8 + 1 < bits₁.length := by simpa [bits₁] using h
  refine ⟨bits₁.set (pos / 8 + 1) (bits₁[pos / 8 + 1] ||| ~~~((0xFF : UInt8) >>> (pos % 8).toUInt8)),
    by rw [set8, sliceIndex_of_lt h₀, except_ok_bind, sliceSet, if_pos h₀, except_ok_bind,
      sliceIndex_of_lt h₁, except_ok_bind, sliceSet, if_pos h₁], by simp [bits₁], fun j => ?_⟩
  have hk : pos % 8 < 8 := Nat.mod_lt _ (by decide)
  have hj : 7 - j % 8 < 8 := by omega
  rw [bitAt_set_or h₁, bitAt_set_or h₀, testBit_lowMask hk hj, testBit_highMask hk hj, Bool.or_assoc]
  congr 1
  -- the low mask covers the rest of the byte of `pos`, the high mask the start of the next
  rw [Bool.eq_iff_iff]
  simp only [Bool.or_eq_true, Bool.and_eq_true, beq_iff_eq, decide_eq_true_eq]
  omega

theorem codeSegment_eq {bits : Bytes} {pos : Nat} (h : pos / 8 < bits.length) :
    codeSegment bits pos = .ok (!bitAt bits pos) := by
  simp only [codeSegment, sliceIndex_of_lt h, except_ok_bind, bitAt, List.getD_eq_getElem?_getD,
    List.getElem?_eq_getElem h, Option.getD_some]
  rw [and_mask_eq_zero _ (Nat.mod_lt _ (by decide))]
  rfl

theorem setLoop_spec : ∀ (n : Nat) (bits : Bytes) (pc : Nat), pc + n ≤ 8 * bits.length →
    ∃ bits', setLoop n bits pc = .ok (bits', pc + n) ∧ bits'.length = bits.length ∧
      ∀ j, bitAt bits' j = (bitAt bits j || (decide (pc ≤ j) && decide (j < pc + n)))
  | 0, bits, pc, _ => ⟨bits, rfl, rfl, fun j => by simp⟩
  | n + 1, bits, pc, h => by
    obtain ⟨bits₁, h₁, hlen₁, hbit₁⟩ := set_spec (show pc / 8 < bits.length by omega)
    obtain ⟨bits₂, h₂, hlen₂, hbit₂⟩ := setLoop_spec n bits₁ (pc + 1) (by omega)
    refine ⟨bits₂, ?_, by omega, fun j => ?_⟩
    · rw [setLoop, h₁, except_ok_bind, h₂]
      congr 2
      omega
    · rw [hbit₂, hbit₁, Bool.or_assoc]
      congr 1
      rw [Bool.eq_iff_iff]
      simp only [Bool.or_eq_true, Bool.and_eq_true, beq_iff_eq, decide_eq_true_eq]
      omega

theorem set8Loop_spec (n : Nat) : ∀ (bits : Bytes) (pc : Nat), pc + 8 * (n / 8) + 1 ≤ 8 * bits.length →
    ∃ bits', set8Loop n bits pc = .ok (bits', pc + 8 * (n / 8), n % 8) ∧ bits'.length = bits.length ∧
      ∀ j, bitAt bits' j = (bitAt bits j || (decide (pc ≤ j) && decide (j < pc + 8 * (n / 8)))) := by
  induction n using Nat.strong_induction_on with
  | _ n ih =>
    intro bits pc h
    by_cases hn : n < 8
    · -- the loop does not run
      have hloop : set8Loop n bits pc = pure (bits, pc, n) := set8Loop.eq_2 _ _ _ fun m hm => by omega
      refine ⟨bits, ?_, rfl, fun j => ?_⟩
      · rw [hloop, Nat.div_eq_of_lt hn, Nat.mod_eq_of_lt hn]
        rfl
      · have hnone : (decide (pc ≤ j) && decide (j < pc + 8 * (n / 8))) = false := by
          rw [Nat.div_eq_of_lt hn, Bool.and_eq_false_iff]
          simp only [decide_eq_false_iff_not]
          omega
        rw [hnone, Bool.or_false]
    · obtain ⟨m, rfl⟩ : ∃ m, n = m + 8 := ⟨n - 8, by omega⟩
      have hdiv : (m + 8) / 8 = m / 8 + 1 := by omega
      obtain ⟨bits₁, h₁, hlen₁, hbit₁⟩ := set8_spec (show pc / 8 + 1 < bits.length by omega)
      obtain ⟨bits₂, h₂, hlen₂, hbit₂⟩ := ih m (by omega) bits₁ (pc + 8) (by omega)
      refine ⟨bits₂, ?_, by omega, fun j => ?_⟩
      · rw [set8Loop, h₁, except_ok_bind, h₂, hdiv, Nat.add_mod_right,
          show pc + 8 * (m / 8 + 1) = pc + 8 + 8 * (m / 8) by omega]
      · rw [hbit₂, hbit₁, Bool.or_assoc, hdiv]
        congr 1
        rw [Bool.eq_iff_iff]
        simp only [Bool.or_eq_true, Bool.and_eq_true, decide_eq_true_eq]
        omega

/-! ## Instruction boundaries

The loop of `codeBitmap` steps from an instruction to the next, past the data
of a push. The boundaries are the positions it comes to from the start, a
strictly increasing sequence; the bytes between two of them are push data. -/

/-- The bytes of data after the opcode `op`. -/
def pushSize (op : UInt8) : Nat := if isPush op then (op - 0x60 + 1).toNat else 0

theorem toNat_pushData {op : UInt8} (h : isPush op) : (op - 0x60 + 1).toNat = op.toNat - 0x5F := by
  obtain ⟨hlo, hhi⟩ := h
  rw [UInt8.le_iff_toNat_le] at hlo hhi
  rw [UInt8.toNat_add, UInt8.toNat_sub_of_le _ _ (UInt8.le_iff_toNat_le.mpr hlo)]
  simp only [UInt8.reduceToNat] at hlo hhi ⊢
  omega

theorem pushSize_le (op : UInt8) : pushSize op ≤ 32 := by
  unfold pushSize
  split_ifs with h
  · rw [toNat_pushData h]
    have := h.2
    rw [UInt8.le_iff_toNat_le] at this
    simp only [UInt8.reduceToNat] at this
    omega
  · omega

/-- Where the instruction after the one at `pc` starts. -/
def nextPc (code : Bytes) (pc : Nat) : Nat := pc + 1 + pushSize (code.getD pc 0)

theorem lt_nextPc (code : Bytes) (pc : Nat) : pc < nextPc code pc := by
  unfold nextPc
  omega

/-- An instruction starts at `pos`: stepping from the start, one instruction at
a time, comes to it. -/
def IsBoundary (code : Bytes) (pos : Nat) : Prop := ∃ n, (nextPc code)^[n] 0 = pos

theorem isBoundary_zero (code : Bytes) : IsBoundary code 0 := ⟨0, rfl⟩

theorem IsBoundary.next {code : Bytes} {pc : Nat} (h : IsBoundary code pc) : IsBoundary code (nextPc code pc) := by
  obtain ⟨n, rfl⟩ := h
  exact ⟨n + 1, Function.iterate_succ_apply' _ _ _⟩

/-- No instruction starts inside the data of another. -/
theorem not_isBoundary_of_lt_nextPc {code : Bytes} {pc j : Nat} (h : IsBoundary code pc) (hlt : pc < j)
    (hj : j < nextPc code pc) : ¬ IsBoundary code j := by
  rintro ⟨m, rfl⟩
  obtain ⟨n, rfl⟩ := h
  have := iterate_next_le (lt_nextPc code) hlt
  omega

/-! ## The loop of `codeBitmap` -/

theorem bitAt_replicate_zero (n j : Nat) : bitAt (List.replicate n 0) j = false := by
  unfold bitAt
  rw [List.getD_eq_getElem?_getD, List.getElem?_replicate]
  split_ifs <;> exact Nat.zero_testBit _

/-- One pass sets the bits from after `pc` to the next instruction, and no other. -/
theorem scanStep_spec {code : Bytes} {st : Scan} (hpc : st.pc < code.length)
    (hlen : st.bits.length = code.length / 8 + 1 + 4) :
    ∃ bits', scanStep code st = .ok ⟨nextPc code st.pc, bits'⟩ ∧ bits'.length = st.bits.length ∧
      ∀ j, bitAt bits' j = (bitAt st.bits j || (decide (st.pc < j) && decide (j < nextPc code st.pc))) := by
  have hop : sliceIndex code st.pc = .ok (code.getD st.pc 0) := by
    rw [sliceIndex_of_lt hpc, List.getD_eq_getElem _ _ hpc]
  by_cases hpush : isPush (code.getD st.pc 0)
  · obtain ⟨n, hn⟩ : ∃ n, (code.getD st.pc 0 - 0x60 + 1).toNat = n := ⟨_, rfl⟩
    have hn32 : n ≤ 32 := by
      have := pushSize_le (code.getD st.pc 0)
      rwa [pushSize, if_pos hpush, hn] at this
    have hnext : nextPc code st.pc = st.pc + 1 + 8 * (n / 8) + n % 8 := by
      rw [nextPc, pushSize, if_pos hpush, hn]
      omega
    -- the bitmap has room for 32 bytes of data after the last opcode
    obtain ⟨bits₁, h₁, hlen₁, hbit₁⟩ := set8Loop_spec n st.bits (st.pc + 1) (by omega)
    obtain ⟨bits₂, h₂, hlen₂, hbit₂⟩ := setLoop_spec (n % 8) bits₁ (st.pc + 1 + 8 * (n / 8)) (by omega)
    refine ⟨bits₂, ?_, by omega, fun j => ?_⟩
    · simp only [scanStep, hop, except_ok_bind, if_pos hpush, hn, h₁, h₂, hnext]
      rfl
    · rw [hbit₂, hbit₁, Bool.or_assoc]
      congr 1
      rw [Bool.eq_iff_iff]
      simp only [Bool.or_eq_true, Bool.and_eq_true, decide_eq_true_eq]
      omega
  · have hnext : nextPc code st.pc = st.pc + 1 := by
      rw [nextPc, pushSize, if_neg hpush, Nat.add_zero]
    refine ⟨st.bits, ?_, rfl, fun j => ?_⟩
    · simp only [scanStep, hop, except_ok_bind, if_neg hpush, hnext]
      rfl
    · have hnone : (decide (st.pc < j) && decide (j < nextPc code st.pc)) = false := by
        rw [hnext, Bool.and_eq_false_iff]
        simp only [decide_eq_false_iff_not]
        omega
      rw [hnone, Bool.or_false]

/-- The invariant of the loop of `codeBitmap`: `pc` is an instruction boundary,
the bits before it mark exactly the bytes that are not, and none after it is set. -/
structure ScanInv (code : Bytes) (st : Scan) : Prop where
  length_bits : st.bits.length = code.length / 8 + 1 + 4
  boundary : IsBoundary code st.pc
  before : ∀ j < st.pc, bitAt st.bits j = true ↔ ¬ IsBoundary code j
  after : ∀ j, st.pc ≤ j → bitAt st.bits j = false

theorem scanInv_start (code : Bytes) : ScanInv code ⟨0, List.replicate (code.length / 8 + 1 + 4) 0⟩ where
  length_bits := List.length_replicate
  boundary := isBoundary_zero code
  before _ hj := absurd hj (Nat.not_lt_zero _)
  after j _ := bitAt_replicate_zero _ j

theorem ScanInv.step {code : Bytes} {st : Scan} (h : ScanInv code st) (hpc : st.pc < code.length) :
    ∃ st', scanStep code st = .ok st' ∧ ScanInv code st' ∧ st.pc < st'.pc := by
  obtain ⟨bits', hstep, hlen, hbit⟩ := scanStep_spec hpc h.length_bits
  have hnext := lt_nextPc code st.pc
  refine ⟨_, hstep, ⟨hlen.trans h.length_bits, h.boundary.next, fun j hj => ?_, fun j hj => ?_⟩, hnext⟩
  · rw [hbit]
    rcases Nat.lt_trichotomy j st.pc with hlt | rfl | hgt
    · -- before `pc` nothing changes
      have hnone : (decide (st.pc < j) && decide (j < nextPc code st.pc)) = false := by
        simp only [Bool.and_eq_false_iff, decide_eq_false_iff_not]
        omega
      rw [hnone, Bool.or_false]
      exact h.before j hlt
    · -- the opcode at `pc` is a boundary and stays clear
      simp [h.after _ (Nat.le_refl _), h.boundary]
    · -- the data of the instruction at `pc` is set
      have hj' : j < nextPc code st.pc := hj
      simp only [hgt, hj', decide_true, Bool.and_true, Bool.or_true, true_iff]
      exact not_isBoundary_of_lt_nextPc h.boundary hgt hj'
  · have hj' : nextPc code st.pc ≤ j := hj
    rw [hbit, h.after j (by omega)]
    simp only [Bool.false_or, Bool.and_eq_false_iff, decide_eq_false_iff_not]
    omega

/-- `codeBitmap` returns, without an index out of range, a bitmap four bytes
longer than the code needs, whose `codeSegment` holds at a position of the code
exactly when an instruction starts there. -/
theorem codeBitmap_spec (code : Bytes) :
    ∃ bits, codeBitmap code = .ok bits ∧ bits.length = code.length / 8 + 1 + 4 ∧
      ∀ pos < code.length, ∃ b, codeSegment bits pos = .ok b ∧ (b = true ↔ IsBoundary code pos) := by
  -- the loop runs while `pc < len(code)` and `pc` only grows: `len(code) - pc` is its variant
  obtain ⟨r, hr, hinv, hexit⟩ := whileM.invariant (ScanInv code) (fun st => code.length - st.pc)
    (fun st hst hc => by
      have hpc : st.pc < code.length := of_decide_eq_true hc
      obtain ⟨st', hstep, hst', hlt⟩ := hst.step hpc
      exact ⟨st', hstep, hst', by omega⟩)
    code.length _ (scanInv_start code) (Nat.sub_le _ _)
  have hend : code.length ≤ r.pc := Nat.le_of_not_lt (of_decide_eq_false hexit)
  refine ⟨r.bits, by rw [codeBitmap, hr, except_ok_bind]; rfl, hinv.length_bits, fun pos hpos => ?_⟩
  refine ⟨_, codeSegment_eq (by rw [hinv.length_bits]; omega), ?_⟩
  rw [Bool.not_eq_true', ← Bool.not_eq_true, hinv.before pos (by omega), not_not]

/-! ## `validJumpdest` -/

/-- The part of a `Contract` `validJumpdest` reads and writes: its code and
code hash, the `jumpdests` map of analyses it shares with its parent context,
and its own `analysis`. -/
structure Contract where
  code : Bytes
  codeHash : Hash
  jumpdests : GoMap Hash Bytes
  analysis : Option Bytes

/-- `JUMPDEST`. -/
def jumpdest : UInt8 := 0x5B

/-- `codeSegment` of `udest` in the analysis, with the contract as it stays. -/
def segmentOf (c : Contract) (analysis : Bytes) (udest : Nat) : Except Fault (Bool × Contract) := do
  let b ← codeSegment analysis udest
  pure (b, c)

/-- `c.validJumpdest(dest)`, with the contract after its caches are filled. -/
def validJumpdest (c : Contract) (dest : Nat) : Except Fault (Bool × Contract) := do
  let udest := dest % 2 ^ 64
  -- PC cannot go beyond len(code) and certainly can't be bigger than 63 bits
  if 2 ^ 62 ≤ dest ∨ c.code.length ≤ udest then pure (false, c)
  else
    let op ← sliceIndex c.code udest
    if op ≠ jumpdest then pure (false, c)
    else if c.codeHash ≠ zeroHash then
      -- the analysis of the parent context, computed and saved there if missing
      match c.jumpdests.get? c.codeHash with
      | some analysis => segmentOf c analysis udest
      | none => do
        let analysis ← codeBitmap c.code
        segmentOf { c with jumpdests := c.jumpdests.insert c.codeHash analysis } analysis udest
    else
      -- no code hash: an analysis of the contract's own, saved with it
      match c.analysis with
      | some analysis => segmentOf c analysis udest
      | none => do
        let analysis ← codeBitmap c.code
        segmentOf { c with analysis := some analysis } analysis udest

/-! ## The caches of `validJumpdest`

A code hash stands for one code, `codeOf`. The caches are right when every
analysis in them is that of the code it is kept for; then `validJumpdest`
answers as a fresh analysis would, and leaves its caches right. -/

/-- Every analysis in `jumpdests` is that of the code its hash stands for. -/
def Coherent (codeOf : Hash → Bytes) (jumpdests : GoMap Hash Bytes) : Prop :=
  ∀ h a, jumpdests.get? h = some a → codeBitmap (codeOf h) = .ok a

/-- A contract whose code hash, when it has one, stands for its code, and whose
caches hold the analyses of the codes they are kept for. -/
structure Contract.WellFormed (codeOf : Hash → Bytes) (c : Contract) : Prop where
  code_codeHash : c.codeHash ≠ zeroHash → codeOf c.codeHash = c.code
  jumpdests : Coherent codeOf c.jumpdests
  analysis : ∀ a, c.analysis = some a → codeBitmap c.code = .ok a

theorem Coherent.insert {codeOf : Hash → Bytes} {m : GoMap Hash Bytes} {k : Hash} {a : Bytes}
    (h : Coherent codeOf m) (ha : codeBitmap (codeOf k) = .ok a) : Coherent codeOf (m.insert k a) := by
  intro j b hj
  rw [GoMap.get?_insert] at hj
  split_ifs at hj with hjk
  · subst hjk
    cases hj
    exact ha
  · exact h j b hj

/-- Reading a position of the code off its analysis. -/
theorem segmentOf_spec {code a : Bytes} {dest : Nat} (ha : codeBitmap code = .ok a) (hd : dest < code.length)
    (c : Contract) : ∃ b, segmentOf c a dest = .ok (b, c) ∧ (b = true ↔ IsBoundary code dest) := by
  obtain ⟨bits, hbits, -, hseg⟩ := codeBitmap_spec code
  obtain rfl : a = bits := Except.ok.inj (ha.symm.trans hbits)
  obtain ⟨b, hb, hiff⟩ := hseg dest hd
  exact ⟨b, by rw [segmentOf, hb, except_ok_bind]; rfl, hiff⟩

/-- From caches that are right, `validJumpdest` never fails, accepts exactly a
destination below `2 ^ 62` that holds a `JUMPDEST` at an instruction boundary,
and leaves the code, its hash and the caches right. -/
theorem validJumpdest_spec {codeOf : Hash → Bytes} {c : Contract} (hc : c.WellFormed codeOf) (dest : Nat) :
    ∃ b c', validJumpdest c dest = .ok (b, c') ∧ c'.WellFormed codeOf ∧ c'.code = c.code ∧
      c'.codeHash = c.codeHash ∧
      (b = true ↔ dest < 2 ^ 62 ∧ c.code[dest]? = some jumpdest ∧ IsBoundary c.code dest) := by
  unfold validJumpdest
  dsimp only
  by_cases hout : 2 ^ 62 ≤ dest ∨ c.code.length ≤ dest % 2 ^ 64
  · -- out of range: no jump
    refine ⟨false, c, by rw [if_pos hout]; rfl, hc, rfl, rfl, ?_⟩
    simp only [Bool.false_eq_true, false_iff, not_and]
    intro h62 hop _
    have hlt := (List.getElem?_eq_some_iff.mp hop).1
    rw [Nat.mod_eq_of_lt (by omega)] at hout
    omega
  have h62 : dest < 2 ^ 62 := by omega
  have hd : dest < c.code.length := by
    rw [Nat.mod_eq_of_lt (by omega)] at hout
    omega
  rw [if_neg hout, Nat.mod_eq_of_lt (by omega), sliceIndex_of_lt hd, except_ok_bind]
  have hop : c.code[dest]? = some c.code[dest] := List.getElem?_eq_getElem hd
  by_cases hj : c.code[dest] ≠ jumpdest
  · refine ⟨false, c, by rw [if_pos hj]; rfl, hc, rfl, rfl, ?_⟩
    simp [hop, hj]
  rw [if_neg hj]
  -- from here the verdict is the analysis's, whichever cache it comes from
  have hverdict : ∀ b, (b = true ↔ IsBoundary c.code dest) →
      (b = true ↔ dest < 2 ^ 62 ∧ c.code[dest]? = some jumpdest ∧ IsBoundary c.code dest) := by
    intro b hb
    rw [hb, hop, not_not.mp hj]
    exact ⟨fun h => ⟨h62, rfl, h⟩, fun h => h.2.2⟩
  by_cases hh : c.codeHash ≠ zeroHash
  · rw [if_pos hh]
    cases hget : c.jumpdests.get? c.codeHash with
    | some a =>
      have ha : codeBitmap c.code = .ok a := hc.code_codeHash hh ▸ hc.jumpdests _ _ hget
      obtain ⟨b, hb, hiff⟩ := segmentOf_spec ha hd c
      exact ⟨b, c, hb, hc, rfl, rfl, hverdict b hiff⟩
    | none =>
      obtain ⟨a, ha, -⟩ := codeBitmap_spec c.code
      have hwf : Contract.WellFormed codeOf { c with jumpdests := c.jumpdests.insert c.codeHash a } :=
        ⟨hc.code_codeHash, hc.jumpdests.insert (by rw [hc.code_codeHash hh]; exact ha), hc.analysis⟩
      obtain ⟨b, hb, hiff⟩ := segmentOf_spec ha hd { c with jumpdests := c.jumpdests.insert c.codeHash a }
      exact ⟨b, _, by rw [ha, except_ok_bind]; exact hb, hwf, rfl, rfl, hverdict b hiff⟩
  · rw [if_neg hh]
    cases hget : c.analysis with
    | some a =>
      obtain ⟨b, hb, hiff⟩ := segmentOf_spec (hc.analysis a hget) hd c
      exact ⟨b, c, hb, hc, rfl, rfl, hverdict b hiff⟩
    | none =>
      obtain ⟨a, ha, -⟩ := codeBitmap_spec c.code
      have hwf : Contract.WellFormed codeOf { c with analysis := some a } :=
        ⟨hc.code_codeHash, hc.jumpdests, fun _ h => Option.some.inj h ▸ ha⟩
      obtain ⟨b, hb, hiff⟩ := segmentOf_spec ha hd { c with analysis := some a }
      exact ⟨b, _, by rw [ha, except_ok_bind]; exact hb, hwf, rfl, rfl, hverdict b hiff⟩

/-- `PUSH1 0x5B JUMPDEST`, without a code hash or an analysis yet. -/
def pushJumpdest : Contract := ⟨[0x60, 0x5B, 0x5B], zeroHash, .empty, none⟩

theorem validJumpdest_spec_pushJumpdest :
    pushJumpdest.WellFormed (fun _ => []) ∧
      ∃ b c', validJumpdest pushJumpdest 1 = .ok (b, c') ∧ c'.WellFormed (fun _ => []) ∧
        c'.code = pushJumpdest.code ∧ c'.codeHash = pushJumpdest.codeHash ∧
        (b = true ↔ 1 < 2 ^ 62 ∧ pushJumpdest.code[1]? = some jumpdest ∧ IsBoundary pushJumpdest.code 1) := by
  have hwf : pushJumpdest.WellFormed (fun _ => []) :=
    ⟨fun h => absurd rfl h, fun _ _ h => by simp [pushJumpdest] at h, fun _ h => by simp [pushJumpdest] at h⟩
  exact ⟨hwf, validJumpdest_spec hwf 1⟩

-- the pushed byte `0x5B` is data, the one after it a destination
example : (validJumpdest pushJumpdest 1).map Prod.fst = .ok false := by decide
example : (validJumpdest pushJumpdest 2).map Prod.fst = .ok true := by decide

end Analysis

end Nezha
