import Nezha.Models.Graph.JohnsonCE
import Mathlib.Algebra.BigOperators.Group.Finset.Basic
import Mathlib.Algebra.Order.BigOperators.Group.List
import Mathlib.Tactic.Ring

/-!
# `BreakCycles` runs out of cycles (`graph/johnsonce.go`)

The loop `for sum != 0` of `BreakCycles` clears every row through the vertex
`max` with the largest column sum. It ends when the matrix it starts from is
consistent (`Tallied`): 0/1 rows that vanish from column `n` on, column sums
`sumArray` that are the sums of the rows, and `sum` the total of the column
sums. Then a non-zero `sum` leaves a non-zero column, `max` is one, and the
pass clears its column and lowers no other column below zero. The columns still
non-zero, at most `n`, drop by one each pass, so `n` passes are enough
(`breakLoop_ok`).
-/

namespace Nezha

namespace JohnsonCE

/-- `max` is a column with the largest sum, the first of them. -/
theorem argMax_spec (n : Nat) (sa : Nat → Int) :
    (0 < n → argMax n sa < n) ∧ ∀ i < n, sa i ≤ sa (argMax n sa) := by
  -- the loop over `i < m` keeps its start `0` or moves below `m`, to a largest column so far
  have hloop : ∀ m, ((List.range m).foldl (fun max i => if sa i > sa max then i else max) 0 = 0 ∨
      (List.range m).foldl (fun max i => if sa i > sa max then i else max) 0 < m) ∧
      ∀ i < m, sa i ≤ sa ((List.range m).foldl (fun max i => if sa i > sa max then i else max) 0) := by
    intro m
    induction m with
    | zero => simp
    | succ m ih =>
      rw [List.range_succ, List.foldl_append, List.foldl_cons, List.foldl_nil]
      obtain ⟨hlt, hle⟩ := ih
      by_cases hgt : sa m > sa ((List.range m).foldl (fun max i => if sa i > sa max then i else max) 0)
      · rw [if_pos hgt]
        refine ⟨.inr (by omega), fun i hi => ?_⟩
        rcases Nat.lt_succ_iff_lt_or_eq.mp hi with hi | rfl
        · exact (hle i hi).trans hgt.le
        · exact le_rfl
      · rw [if_neg hgt]
        refine ⟨hlt.imp id (fun h => by omega), fun i hi => ?_⟩
        rcases Nat.lt_succ_iff_lt_or_eq.mp hi with hi | rfl
        · exact hle i hi
        · exact not_lt.mp hgt
  obtain ⟨hlt, hle⟩ := hloop n
  refine ⟨fun hn => ?_, hle⟩
  rcases hlt with h | h
  · rw [argMax, h]
    exact hn
  · exact h

/-- The loop over `k` clearing one row. -/
theorem clearRow_eq (n : Nat) (sum : Int) (sa row : Nat → Int) :
    clearRow n (sum, sa) row = (sum - ∑ k ∈ Finset.range n, row k,
      fun k => if k < n then sa k - row k else sa k, fun k => if k < n then 0 else row k) := by
  induction n with
  | zero => simp [clearRow]
  | succ n ih =>
    rw [clearRow, List.range_succ, List.foldl_append, ← clearRow, ih, List.foldl_cons, List.foldl_nil]
    simp only [lt_irrefl, ↓reduceIte, Finset.sum_range_succ, Prod.mk.injEq]
    refine ⟨by ring, funext fun k => ?_, funext fun k => ?_⟩
    · by_cases hk : k = n
      · simp [hk]
      · simp only [Function.update_of_ne hk]
        by_cases hkn : k < n
        · simp [hkn, show k < n + 1 by omega]
        · simp [hkn, show ¬ k < n + 1 by omega]
    · by_cases hk : k = n
      · simp [hk]
      · simp only [Function.update_of_ne hk]
        by_cases hkn : k < n
        · simp [hkn, show k < n + 1 by omega]
        · simp [hkn, show ¬ k < n + 1 by omega]

/-- A row after the pass through `max`: cleared below `n` when it holds `max`. -/
def clearIf (n max : Nat) (row : Nat → Int) : Nat → Int :=
  if row max = 1 then fun k => if k < n then 0 else row k else row

/-- The loop of one pass over the rows. -/
theorem foldl_breakStep (n max : Nat) (L out : List (Nat → Int)) (sa : Nat → Int) (sum : Int) :
    L.foldl (fun (acc : List (Nat → Int) × (Nat → Int) × Int) row =>
      if row max = 1 then
        let (sum, sumArray, row) := clearRow n (acc.2.2, acc.2.1) row
        (acc.1 ++ [row], sumArray, sum)
      else (acc.1 ++ [row], acc.2.1, acc.2.2)) (out, sa, sum) =
    (out ++ L.map (clearIf n max),
      fun k => sa k - ((L.filter fun row => row max = 1).map fun row => if k < n then row k else 0).sum,
      sum - ((L.filter fun row => row max = 1).map fun row => ∑ k ∈ Finset.range n, row k).sum) := by
  induction L generalizing out sa sum with
  | nil => simp
  | cons row L ih =>
    rw [List.foldl_cons]
    by_cases hr : row max = 1
    · rw [if_pos hr, clearRow_eq]
      dsimp only
      rw [ih]
      simp only [List.filter_cons, hr, decide_true, ↓reduceIte, List.map_cons, List.sum_cons,
        List.append_assoc, List.singleton_append, clearIf, Prod.mk.injEq]
      refine ⟨trivial, funext fun k => ?_, by ring⟩
      by_cases hk : k < n
      · simp [hk]
        ring
      · simp [hk]
    · rw [if_neg hr, ih]
      simp [hr, clearIf]

/-- One pass of `BreakCycles` through the column `max`. -/
theorem breakStep_eq (n : Nat) (b : Breaking) : breakStep n b = { b with
    boolMap := b.boolMap.map (clearIf n (argMax n b.sumArray))
    sumArray := fun k => b.sumArray k - ((b.boolMap.filter fun row => row (argMax n b.sumArray) = 1).map
      fun row => if k < n then row k else 0).sum
    sum := b.sum - ((b.boolMap.filter fun row => row (argMax n b.sumArray) = 1).map
      fun row => ∑ k ∈ Finset.range n, row k).sum
    removeSetSize := b.removeSetSize + 1
    invalidVertices := Function.update b.invalidVertices (argMax n b.sumArray) true } := by
  simp only [breakStep, foldl_breakStep, List.nil_append]

/-- A consistent matrix of cycles over `n` vertices: 0/1 rows vanishing from
`n` on, the column sums, and their total. -/
structure Tallied (n : Nat) (b : Breaking) : Prop where
  rows : ∀ row ∈ b.boolMap, ∀ k, row k = 0 ∨ (row k = 1 ∧ k < n)
  column : ∀ k, b.sumArray k = (b.boolMap.map fun row => row k).sum
  total : b.sum = ∑ k ∈ Finset.range n, b.sumArray k

/-- The columns still holding a cycle. -/
def liveColumns (n : Nat) (sa : Nat → Int) : Nat := ((Finset.range n).filter fun k => sa k ≠ 0).card

section Tallied

variable {n max : Nat}

theorem clearIf_of_rows {row : Nat → Int} (hrow : ∀ k, row k = 0 ∨ (row k = 1 ∧ k < n)) :
    clearIf n max row = if row max = 1 then fun _ => 0 else row := by
  unfold clearIf
  split_ifs
  · funext k
    by_cases hk : k < n
    · simp [hk]
    · rcases hrow k with h | h
      · simp [hk, h]
      · exact absurd h.2 hk
  · rfl

/-- Each column of the rows splits into the rows kept and the rows cleared. -/
theorem sum_column_split (max k : Nat) :
    ∀ L : List (Nat → Int), (∀ row ∈ L, ∀ k, row k = 0 ∨ (row k = 1 ∧ k < n)) →
      (L.map fun row => row k).sum = ((L.map (clearIf n max)).map fun row => row k).sum +
        ((L.filter fun row => row max = 1).map fun row => if k < n then row k else 0).sum := by
  intro L
  induction L with
  | nil => simp
  | cons row L ih =>
    intro hL
    have hrow := hL row List.mem_cons_self
    rw [List.map_cons, List.sum_cons, ih fun r hr => hL r (.tail _ hr), List.map_cons, List.map_cons,
      List.sum_cons, clearIf_of_rows hrow]
    by_cases hr : row max = 1
    · have hk : (if k < n then row k else 0) = row k := by
        rcases hrow k with h | h
        · simp [h]
        · simp [h.2]
      simp only [hr, ↓reduceIte, List.filter_cons, decide_true, List.map_cons, List.sum_cons, hk]
      ring
    · simp only [hr, ↓reduceIte, List.filter_cons, decide_false, Bool.false_eq_true]
      ring

/-- Summing the rows' entries below `n` column by column or row by row. -/
theorem sum_range_list_sum {β : Type} (f : β → Nat → Int) :
    ∀ L : List β, ∑ k ∈ Finset.range n, (L.map fun row => f row k).sum =
      (L.map fun row => ∑ k ∈ Finset.range n, f row k).sum := by
  intro L
  induction L with
  | nil => simp
  | cons row L ih => simp [Finset.sum_add_distrib, ih]

theorem column_nonneg {b : Breaking} (h : Tallied n b) (k : Nat) : 0 ≤ b.sumArray k := by
  rw [h.column]
  exact List.sum_nonneg fun x hx => by
    obtain ⟨row, hrow, rfl⟩ := List.mem_map.mp hx
    rcases h.rows row hrow k with h | h <;> simp [h]

/-- One pass keeps the matrix consistent and clears one more column. -/
theorem Tallied.step {b : Breaking} (h : Tallied n b) (hsum : b.sum ≠ 0) :
    Tallied n (breakStep n b) ∧ liveColumns n (breakStep n b).sumArray < liveColumns n b.sumArray := by
  set M := argMax n b.sumArray with hM
  -- a non-zero total leaves a positive column below `n`, so `max` is a positive column
  obtain ⟨k, hk, hsk⟩ : ∃ k < n, b.sumArray k ≠ 0 := by
    by_contra hall
    simp only [not_exists, not_and, not_not] at hall
    exact hsum (by rw [h.total]; exact Finset.sum_eq_zero fun k hk => hall k (Finset.mem_range.mp hk))
  have hMn : M < n := (argMax_spec n b.sumArray).1 (by omega)
  have hMpos : 0 < b.sumArray M :=
    lt_of_lt_of_le (lt_of_le_of_ne (column_nonneg h k) (Ne.symm hsk)) ((argMax_spec n b.sumArray).2 k hk)
  have hnew : ∀ row ∈ (breakStep n b).boolMap, ∀ k, row k = 0 ∨ (row k = 1 ∧ k < n) := by
    intro row hrow k
    rw [breakStep_eq] at hrow
    obtain ⟨r, hr, rfl⟩ := List.mem_map.mp hrow
    rw [clearIf_of_rows (h.rows r hr)]
    split_ifs
    · exact .inl rfl
    · exact h.rows r hr k
  have hcol : ∀ k, (breakStep n b).sumArray k = ((breakStep n b).boolMap.map fun row => row k).sum := by
    intro k
    rw [breakStep_eq]
    dsimp only
    rw [h.column, sum_column_split M k b.boolMap h.rows]
    ring
  have htot : (breakStep n b).sum = ∑ k ∈ Finset.range n, (breakStep n b).sumArray k := by
    rw [breakStep_eq]
    dsimp only
    rw [Finset.sum_sub_distrib, ← h.total, sum_range_list_sum (fun (row : Nat → Int) k => if k < n then row k else 0)]
    congr 2
    refine List.map_congr_left fun row _ => Finset.sum_congr rfl fun k hk => ?_
    simp [Finset.mem_range.mp hk]
  have hT : Tallied n (breakStep n b) := ⟨hnew, hcol, htot⟩
  refine ⟨hT, ?_⟩
  -- the columns only lose cycles, and the column of `max` loses all of them
  have hle : ∀ k, (breakStep n b).sumArray k ≤ b.sumArray k := by
    intro k
    rw [breakStep_eq]
    dsimp only
    refine sub_le_self _ (List.sum_nonneg fun x hx => ?_)
    obtain ⟨row, hrow, rfl⟩ := List.mem_map.mp hx
    rcases h.rows row (List.mem_filter.mp hrow).1 k with h' | h'
    · simp [h']
    · simp [h']
  have hzero : (breakStep n b).sumArray M = 0 := by
    rw [hcol, breakStep_eq]
    refine List.sum_eq_zero fun x hx => ?_
    obtain ⟨row, hrow, rfl⟩ := List.mem_map.mp hx
    obtain ⟨r, hr, rfl⟩ := List.mem_map.mp hrow
    rw [clearIf_of_rows (h.rows r hr)]
    split_ifs with hrM
    · rfl
    · exact (h.rows r hr M).resolve_right fun h' => hrM h'.1
  refine Finset.card_lt_card ⟨fun k hk => ?_, fun hsub => ?_⟩
  · simp only [Finset.mem_filter, Finset.mem_range] at hk ⊢
    exact ⟨hk.1, fun h0 => hk.2 (le_antisymm (h0 ▸ hle k) (column_nonneg hT k))⟩
  · have := hsub (Finset.mem_filter.mpr ⟨Finset.mem_range.mpr hMn, hMpos.ne'⟩)
    exact (Finset.mem_filter.mp this).2 hzero

/-- The loop of `BreakCycles` over a consistent matrix ends normally within `n` passes. -/
theorem breakLoop_ok {b : Breaking} (h : Tallied n b) :
    ∃ r, whileM (fun b : Breaking => b.sum != 0) (fun b => pure (breakStep n b)) n b = .ok r := by
  have hloop : ∀ fuel (b : Breaking), Tallied n b → liveColumns n b.sumArray ≤ fuel →
      ∃ r, whileM (fun b : Breaking => b.sum != 0) (fun b => pure (breakStep n b)) fuel b = .ok r ∧
        Tallied n r ∧ (r.sum != 0) = false :=
    whileM.invariant (Tallied n) (fun b => liveColumns n b.sumArray)
      fun b hb hc => ⟨breakStep n b, rfl, hb.step (by simpa using hc)⟩
  obtain ⟨r, hr, -⟩ := hloop n b h ((Finset.card_filter_le _ _).trans (by simp))
  exact ⟨r, hr⟩

end Tallied

end JohnsonCE

end Nezha
