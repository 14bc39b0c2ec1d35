import Mathlib.Data.List.Nodup
import Mathlib.Algebra.BigOperators.Group.List.Basic
import Mathlib.Tactic.Abel
import Mathlib.Logic.Function.Basic

/-!
# Go maps as finite partial functions

A Go `map[K]V` binds finitely many keys, each to one value. Its `range` order
is chosen by the runtime on every loop, so it is not part of the value: the
key list below only records insertion order, and a loop over the map is modelled
by an arbitrary permutation of it. A read of a missing key yields the zero value
supplied by the caller, as Go does.
-/

/-- A finite map with its key set; every listed key is bound and no key repeats. -/
structure GoMap (κ ν : Type) where
  /-- The bound keys, in insertion order. -/
  keys : List κ
  /-- The value bound to a key, if any. -/
  get? : κ → Option ν
  nodup : keys.Nodup
  mem_keys : ∀ k, k ∈ keys ↔ (get? k).isSome

namespace GoMap

variable {κ ν : Type}

/-- `make(map[K]V)`. -/
def empty : GoMap κ ν where
  keys := []
  get? := fun _ => none
  nodup := List.nodup_nil
  mem_keys := by simp

/-- `m[k]`, reading the zero value `d` at a missing key. -/
def findD (m : GoMap κ ν) (k : κ) (d : ν) : ν := (m.get? k).getD d

@[simp] theorem get?_empty (k : κ) : (empty : GoMap κ ν).get? k = none := rfl

@[simp] theorem keys_empty : (empty : GoMap κ ν).keys = [] := rfl

theorem findD_eq_of_get? {m : GoMap κ ν} {k : κ} {v : ν} (h : m.get? k = some v) (d : ν) :
    m.findD k d = v := by
  simp [findD, h]

theorem findD_of_not_mem {m : GoMap κ ν} {k : κ} (h : k ∉ m.keys) (d : ν) :
    m.findD k d = d := by
  have hn : m.get? k = none := by
    simpa [m.mem_keys k, Option.not_isSome_iff_eq_none] using h
  simp [findD, hn]

theorem exists_get?_of_mem {m : GoMap κ ν} {k : κ} (h : k ∈ m.keys) : ∃ v, m.get? k = some v :=
  Option.isSome_iff_exists.mp ((m.mem_keys k).mp h)

variable [DecidableEq κ]

/-- `m[k] = v`: a new key is appended, an existing one keeps its place. -/
def insert (m : GoMap κ ν) (k : κ) (v : ν) : GoMap κ ν where
  keys := if k ∈ m.keys then m.keys else m.keys ++ [k]
  get? := Function.update m.get? k (some v)
  nodup := by
    split
    · exact m.nodup
    · exact m.nodup.append (List.nodup_singleton k) (by simpa using ‹k ∉ m.keys›)
  mem_keys := by
    intro j
    by_cases hj : j = k
    · subst hj
      split <;> simp_all
    · have hm := m.mem_keys j
      split <;> simp_all

/-- Update the value behind a present key in place, as a write through the
pointer `m[k]` does; a missing key is left missing. -/
def modify (m : GoMap κ ν) (k : κ) (f : ν → ν) : GoMap κ ν where
  keys := m.keys
  get? := Function.update m.get? k ((m.get? k).map f)
  nodup := m.nodup
  mem_keys := by
    intro j
    by_cases hj : j = k
    · subst hj
      simpa using m.mem_keys j
    · simpa [Function.update_of_ne hj] using m.mem_keys j

theorem get?_insert (m : GoMap κ ν) (k j : κ) (v : ν) :
    (m.insert k v).get? j = if j = k then some v else m.get? j := by
  by_cases hj : j = k
  · subst hj
    simp [insert]
  · simp [insert, hj]

@[simp] theorem get?_insert_self (m : GoMap κ ν) (k : κ) (v : ν) :
    (m.insert k v).get? k = some v := by
  simp [get?_insert]

theorem get?_insert_of_ne (m : GoMap κ ν) {k j : κ} (v : ν) (h : j ≠ k) :
    (m.insert k v).get? j = m.get? j := by
  simp [get?_insert, h]

theorem mem_keys_insert (m : GoMap κ ν) (k j : κ) (v : ν) :
    j ∈ (m.insert k v).keys ↔ j = k ∨ j ∈ m.keys := by
  simp only [insert]
  split
  · constructor
    · exact Or.inr
    · rintro (rfl | h) <;> assumption
  · simp [or_comm]

theorem findD_insert (m : GoMap κ ν) (k j : κ) (v d : ν) :
    (m.insert k v).findD j d = if j = k then v else m.findD j d := by
  by_cases hj : j = k
  · subst hj
    simp [findD]
  · simp [findD, get?_insert_of_ne m v hj, hj]

theorem keys_insert_of_not_mem (m : GoMap κ ν) {k : κ} (v : ν) (h : k ∉ m.keys) :
    (m.insert k v).keys = m.keys ++ [k] := by
  simp [insert, h]

theorem keys_insert_of_mem (m : GoMap κ ν) {k : κ} (v : ν) (h : k ∈ m.keys) :
    (m.insert k v).keys = m.keys := by
  simp [insert, h]

/-! ### Filling a map in a loop

`for _, x := range xs { m[key(x)] = val(x) }` with distinct keys: every key
read afterwards holds its own value, and the keys come in loop order. -/

section FoldInsert

variable {α : Type} (key : α → κ) (val : α → ν)

theorem get?_foldl_insert_of_not_mem : ∀ (xs : List α) (m : GoMap κ ν) {k : κ},
    k ∉ xs.map key → (xs.foldl (fun m x => m.insert (key x) (val x)) m).get? k = m.get? k
  | [], _, _, _ => rfl
  | x :: xs, m, k, hk => by
    simp only [List.map_cons, List.mem_cons, not_or] at hk
    rw [List.foldl_cons, get?_foldl_insert_of_not_mem xs _ hk.2, get?_insert_of_ne _ _ hk.1]

theorem get?_foldl_insert : ∀ (xs : List α) (m : GoMap κ ν), (xs.map key).Nodup →
    ∀ x ∈ xs, (xs.foldl (fun m x => m.insert (key x) (val x)) m).get? (key x) = some (val x)
  | [], _, _, x, hx => by simp at hx
  | y :: xs, m, hnd, x, hx => by
    rw [List.map_cons, List.nodup_cons] at hnd
    rw [List.foldl_cons]
    rcases List.mem_cons.mp hx with rfl | hx
    · rw [get?_foldl_insert_of_not_mem key val xs _ hnd.1, get?_insert_self]
    · exact get?_foldl_insert xs _ hnd.2 x hx

theorem keys_foldl_insert : ∀ (xs : List α) (m : GoMap κ ν), (xs.map key).Nodup →
    (∀ x ∈ xs, key x ∉ m.keys) →
    (xs.foldl (fun m x => m.insert (key x) (val x)) m).keys = m.keys ++ xs.map key
  | [], m, _, _ => by simp
  | y :: xs, m, hnd, hfresh => by
    rw [List.map_cons, List.nodup_cons] at hnd
    have hy : key y ∉ m.keys := hfresh y List.mem_cons_self
    rw [List.foldl_cons, keys_foldl_insert xs _ hnd.2, keys_insert_of_not_mem _ _ hy]
    · simp
    · intro x hx
      rw [keys_insert_of_not_mem _ _ hy, List.mem_append, not_or, List.mem_singleton]
      refine ⟨hfresh x (List.mem_cons_of_mem y hx), fun he => hnd.1 ?_⟩
      exact he ▸ List.mem_map_of_mem hx

end FoldInsert

omit [DecidableEq κ] in
/-- A loop whose every pass may add keys: a key is present afterwards when it
was before or some pass added it. -/
theorem mem_keys_foldl {α : Type} {f : GoMap κ ν → α → GoMap κ ν} {P : α → κ → Prop}
    (h : ∀ m x k, k ∈ (f m x).keys ↔ k ∈ m.keys ∨ P x k) :
    ∀ (xs : List α) (m : GoMap κ ν) (k : κ), k ∈ (xs.foldl f m).keys ↔ k ∈ m.keys ∨ ∃ x ∈ xs, P x k
  | [], m, k => by simp
  | x :: xs, m, k => by
    rw [List.foldl_cons, mem_keys_foldl h xs, h]
    simp only [List.mem_cons, exists_eq_or_imp]
    tauto

theorem get?_modify (m : GoMap κ ν) (k j : κ) (f : ν → ν) :
    (m.modify k f).get? j = if j = k then (m.get? j).map f else m.get? j := by
  by_cases hj : j = k
  · subst hj
    simp [modify]
  · simp [modify, hj]

theorem findD_modify (m : GoMap κ ν) (k j : κ) (f : ν → ν) (d : ν) :
    (m.modify k f).findD j d = if j = k then ((m.get? j).map f).getD d else m.findD j d := by
  unfold findD
  rw [get?_modify]
  split_ifs <;> rfl

@[simp] theorem keys_modify (m : GoMap κ ν) (k : κ) (f : ν → ν) :
    (m.modify k f).keys = m.keys := rfl

/-- Writing a value back at a key leaves every entry as it was, except that
key's entry, which becomes the value if the key is present. -/
theorem findD_modify_const (m : GoMap κ ν) (k j : κ) (v d : ν) :
    ((m.modify k fun _ => v).findD j d = v ∧ j = k) ∨ (m.modify k fun _ => v).findD j d = m.findD j d := by
  rw [findD_modify]
  by_cases hj : j = k
  · rw [if_pos hj]
    cases hg : m.get? j with
    | none =>
      right
      simp [findD, hg]
    | some _ =>
      left
      exact ⟨rfl, hj⟩
  · rw [if_neg hj]
    exact Or.inr rfl

/-- `delete(m, k)`. -/
def erase (m : GoMap κ ν) (k : κ) : GoMap κ ν where
  keys := m.keys.erase k
  get? := Function.update m.get? k none
  nodup := m.nodup.erase k
  mem_keys := by
    intro j
    by_cases hj : j = k
    · subst hj
      simp [m.nodup.not_mem_erase]
    · rw [List.mem_erase_of_ne hj, Function.update_of_ne hj]
      exact m.mem_keys j

theorem get?_erase (m : GoMap κ ν) (k j : κ) :
    (m.erase k).get? j = if j = k then none else m.get? j := by
  by_cases hj : j = k
  · subst hj
    simp [erase]
  · simp [erase, hj]

theorem findD_erase (m : GoMap κ ν) (k j : κ) (d : ν) :
    (m.erase k).findD j d = if j = k then d else m.findD j d := by
  unfold findD
  rw [get?_erase]
  split_ifs <;> rfl

/-! ## The sum of the values -/

section Sum

variable {ν' : Type} [AddCommGroup ν']

/-- Changing one entry of a duplicate-free list of keys changes the sum by the difference. -/
theorem sum_map_update_of_mem {l : List κ} (hl : l.Nodup) {k : κ} (hk : k ∈ l) (f : κ → ν') (v : ν') :
    (l.map fun j => if j = k then v else f j).sum = (l.map f).sum - f k + v := by
  induction l with
  | nil => simp at hk
  | cons j l ih =>
    obtain ⟨hj, hl⟩ := List.nodup_cons.mp hl
    simp only [List.map_cons, List.sum_cons]
    by_cases hjk : j = k
    · subst hjk
      have hrest : (l.map fun i => if i = j then v else f i) = l.map f :=
        List.map_congr_left fun i hi => if_neg fun (h : i = j) => hj (h ▸ hi)
      rw [if_pos rfl, hrest]
      abel
    · have hk' : k ∈ l := (List.mem_cons.mp hk).resolve_left (Ne.symm hjk)
      rw [if_neg hjk, ih hl hk']
      abel

theorem sum_map_update_of_not_mem {l : List κ} {k : κ} (hk : k ∉ l) (f : κ → ν') (v : ν') :
    (l.map fun j => if j = k then v else f j).sum = (l.map f).sum :=
  congrArg List.sum (List.map_congr_left fun j hj => if_neg fun (h : j = k) => hk (h ▸ hj))

/-- The sum of the values bound in a map. -/
def sum (m : GoMap κ ν') : ν' := (m.keys.map fun k => m.findD k 0).sum

/-- Binding `v` to `k` trades the value at `k` for `v` in the sum. -/
theorem sum_insert (m : GoMap κ ν') (k : κ) (v : ν') : (m.insert k v).sum = m.sum - m.findD k 0 + v := by
  unfold sum
  have hfind : ∀ j, (m.insert k v).findD j 0 = if j = k then v else m.findD j 0 := fun j => findD_insert m k j v 0
  simp only [hfind]
  by_cases hk : k ∈ m.keys
  · rw [keys_insert_of_mem m v hk, sum_map_update_of_mem m.nodup hk]
  · rw [keys_insert_of_not_mem m v hk, List.map_append, List.sum_append, sum_map_update_of_not_mem hk,
      findD_of_not_mem hk]
    simp

end Sum

end GoMap
