import Mathlib.Logic.Function.Basic
import Mathlib.Data.List.Basic

/-!
# Undo logs and journaled stores

A store that journals every write with the value it overwrote can be taken
back to any earlier point by undoing the entries written since, the last first.
`undo` does that on a function. `Journaled` is such a store together with a
second copy of the values, `committed`, which a commit sets to the current ones;
its log can be cleared, after which nothing before can be reverted.

`Restores n σ₀ st` says that undoing the log of `st` after its first `n`
entries gives back `σ₀`. It holds when the snapshot is taken, every write and
commit keeps it, so does every revert to a later snapshot, and a revert to `n`
then puts the store back at `σ₀`.
-/

namespace UndoLog

variable {κ ν : Type} [DecidableEq κ]

/-- Undo the entries of a log, the last first: each puts its value back at its key. -/
def undo (log : List (κ × ν)) (σ : κ → ν) : κ → ν :=
  log.foldr (fun e σ => Function.update σ e.1 e.2) σ

@[simp] theorem undo_nil (σ : κ → ν) : undo [] σ = σ := rfl

theorem undo_append (l₁ l₂ : List (κ × ν)) (σ : κ → ν) : undo (l₁ ++ l₂) σ = undo l₁ (undo l₂ σ) :=
  List.foldr_append

/-- Undoing the record of a write takes the write back. -/
theorem undo_write (log : List (κ × ν)) (σ : κ → ν) (k : κ) (v : ν) :
    undo (log ++ [(k, σ k)]) (Function.update σ k v) = undo log σ := by
  rw [undo_append]
  simp [undo, Function.update_idem, Function.update_eq_self]

/-- Undoing what comes after the first `n` entries, and then what comes after
the first `m ≤ n` of the rest, undoes what comes after the first `m`. -/
theorem undo_drop_take {m n : Nat} (h : m ≤ n) (log : List (κ × ν)) (σ : κ → ν) :
    undo ((log.take n).drop m) (undo (log.drop n) σ) = undo (log.drop m) σ := by
  rw [← undo_append]
  congr 1
  have hrest : (log.drop m).drop (n - m) = log.drop n := by rw [List.drop_drop, Nat.add_sub_of_le h]
  rw [List.drop_take, ← hrest, List.take_append_drop]

/-- A store with an undo log and the values of its last commit. -/
structure Journaled (κ ν : Type) where
  current : κ → ν
  committed : κ → ν
  log : List (κ × ν)

namespace Journaled

/-- A write, journaled with the value it replaces; a write of the value already
there changes nothing and is not journaled. -/
def set [DecidableEq ν] (st : Journaled κ ν) (k : κ) (v : ν) : Journaled κ ν :=
  if st.current k = v then st
  else { st with current := Function.update st.current k v, log := st.log ++ [(k, st.current k)] }

/-- Revert to the snapshot taken when the log had `n` entries. -/
def revert (st : Journaled κ ν) (n : Nat) : Journaled κ ν :=
  { st with current := undo (st.log.drop n) st.current, log := st.log.take n }

/-- Make the current values the committed ones. -/
def commit (st : Journaled κ ν) : Journaled κ ν := { st with committed := st.current }

/-- Forget the log: nothing before can be reverted any more. -/
def clear (st : Journaled κ ν) : Journaled κ ν := { st with log := [] }

/-- Undoing the log after its first `n` entries gives back `σ₀`. -/
def Restores (n : Nat) (σ₀ : κ → ν) (st : Journaled κ ν) : Prop :=
  n ≤ st.log.length ∧ undo (st.log.drop n) st.current = σ₀

variable {n : Nat} {σ₀ : κ → ν} {st : Journaled κ ν}

/-- A snapshot restores the values it was taken at. -/
theorem restores_snapshot (st : Journaled κ ν) : Restores st.log.length st.current st :=
  ⟨Nat.le_refl _, by simp⟩

theorem Restores.set [DecidableEq ν] (h : Restores n σ₀ st) (k : κ) (v : ν) : Restores n σ₀ (st.set k v) := by
  obtain ⟨hn, hundo⟩ := h
  unfold Journaled.set
  split
  · exact ⟨hn, hundo⟩
  · refine ⟨by simp; omega, ?_⟩
    rw [List.drop_append_of_le_length hn, undo_write, hundo]

theorem Restores.commit (h : Restores n σ₀ st) : Restores n σ₀ st.commit := h

/-- A revert to a later snapshot keeps what an earlier one restores. -/
theorem Restores.revert (h : Restores n σ₀ st) {m : Nat} (hm : n ≤ m) : Restores n σ₀ (st.revert m) := by
  obtain ⟨hn, hundo⟩ := h
  refine ⟨by simp only [Journaled.revert, List.length_take]; omega, ?_⟩
  simp only [Journaled.revert]
  rw [undo_drop_take hm, hundo]

/-- A revert to the snapshot puts the store back at its values. -/
theorem Restores.current_revert (h : Restores n σ₀ st) : (st.revert n).current = σ₀ := h.2

end Journaled

end UndoLog
