import Mathlib.Logic.Function.Iterate
import Mathlib.Tactic.Common
import Mathlib.Algebra.Group.Nat.Defs

/-!
# Binary hash trees

A layer of a binary hash tree is hashed into the layer above pair by pair:
two neighbours by `node`, a last element without a neighbour by `lone`.
Hashing goes on until a layer has at most one element (`above`). On a layer
of `2 ^ k` elements that takes `k` steps, each halving the layer.

The path of a position lists, for each layer above, the neighbour it is hashed
with and whether that neighbour is on the left. Climbing from the element
along the first `d` steps of its path gives its ancestor `d` layers up
(`climb_take_path`), and the whole path gives the root (`climb_path`).
-/

namespace MerkleTree

variable {α : Type} (node : α → α → α) (lone : α → α)

/-- One layer up: two neighbours are hashed by `node`, a last element without
a neighbour by `lone`. -/
def up : List α → List α
  | a :: b :: rest => node a b :: up rest
  | [a] => [lone a]
  | [] => []

@[simp] theorem up_nil : up node lone [] = [] := rfl

@[simp] theorem up_singleton (a : α) : up node lone [a] = [lone a] := rfl

@[simp] theorem up_cons_cons (a b : α) (rest : List α) :
    up node lone (a :: b :: rest) = node a b :: up node lone rest := rfl

@[simp] theorem length_up : ∀ l : List α, (up node lone l).length = (l.length + 1) / 2
  | [] => by simp
  | [_] => by simp
  | _ :: _ :: rest => by
    simp only [up_cons_cons, List.length_cons, length_up rest]
    omega

/-- The parent of a pair. -/
theorem getD_up_pair : ∀ (l : List α) {j : Nat}, 2 * j + 1 < l.length → ∀ d : α,
    (up node lone l).getD j d = node (l.getD (2 * j) d) (l.getD (2 * j + 1) d)
  | a :: b :: rest, 0, _, d => rfl
  | a :: b :: rest, j + 1, h, d => by
    have h' : 2 * j + 1 < rest.length := by simp at h; omega
    rw [up_cons_cons, List.getD_cons_succ, getD_up_pair rest h' d,
      show 2 * (j + 1) = 2 * j + 2 by omega]
    rfl
  | [_], j, h, _ => by simp at h
  | [], j, h, _ => by simp at h

/-- The parent of the last element of a layer of odd length. -/
theorem getD_up_lone : ∀ (l : List α) {j : Nat}, 2 * j + 1 = l.length → ∀ d : α,
    (up node lone l).getD j d = lone (l.getD (2 * j) d)
  | [_], 0, _, d => rfl
  | a :: b :: rest, j + 1, h, d => by
    have h' : 2 * j + 1 = rest.length := by simp at h; omega
    rw [up_cons_cons, List.getD_cons_succ, getD_up_lone rest h' d,
      show 2 * (j + 1) = 2 * j + 2 by omega]
    rfl
  | a :: b :: rest, 0, h, _ => by simp at h
  | [_], j + 1, h, _ => by simp at h
  | [], j, h, _ => by simp at h

/-- A layer of `2 ^ k` elements has `2 ^ (k - d)` elements `d` layers up. -/
theorem length_iterate_up {k : Nat} {l : List α} (hl : l.length = 2 ^ k) :
    ∀ {d : Nat}, d ≤ k → ((up node lone)^[d] l).length = 2 ^ (k - d)
  | 0, _ => by simpa using hl
  | d + 1, hd => by
    rw [Function.iterate_succ_apply', length_up, length_iterate_up hl (Nat.le_of_succ_le hd)]
    obtain ⟨e, he⟩ : ∃ e, k - d = e + 1 := ⟨k - d - 1, by omega⟩
    rw [he, show k - (d + 1) = e by omega, Nat.pow_succ]
    omega

/-! ## Climbing a path -/

/-- Climbing from `x` along a path: each step hashes with the neighbour, which
`true` puts on the left. -/
def climb (x : α) : List (α × Bool) → α
  | [] => x
  | (s, left) :: p => climb (if left then node s x else node x s) p

@[simp] theorem climb_nil (x : α) : climb node x [] = x := rfl

@[simp] theorem climb_cons (x s : α) (left : Bool) (p : List (α × Bool)) :
    climb node x ((s, left) :: p) = climb node (if left then node s x else node x s) p := rfl

/-- The neighbour of position `i` in its pair. -/
def buddy (i : Nat) : Nat := if i % 2 = 0 then i + 1 else i - 1

/-- In a layer of even length every position has its neighbour. -/
theorem buddy_lt {n i : Nat} (heven : n % 2 = 0) (hi : i < n) : buddy i < n := by
  unfold buddy
  split_ifs <;> omega

/-- The neighbour of a right element is a left one, and the other way round. -/
theorem buddy_mod_two (i : Nat) : buddy i % 2 = 0 ↔ i % 2 = 1 := by
  unfold buddy
  split_ifs <;> omega

section Path

variable [Inhabited α]

/-- The path of position `i` of a layer through the `k` layers above it: the
neighbour at each layer, and whether it is on the left. -/
def path : Nat → List α → Nat → List (α × Bool)
  | 0, _, _ => []
  | k + 1, l, i => (l.getD (buddy i) default, decide (i % 2 = 1)) :: path k (up node lone l) (i / 2)

@[simp] theorem length_path : ∀ (k : Nat) (l : List α) (i : Nat), (path node lone k l i).length = k
  | 0, _, _ => rfl
  | k + 1, l, i => by simp [path, length_path k]

/-- In a layer of even length, one step of the climb from a position lands on
its parent. -/
theorem climb_step {l : List α} (heven : l.length % 2 = 0) {i : Nat} (hi : i < l.length) :
    (if decide (i % 2 = 1) then node (l.getD (buddy i) default) (l.getD i default)
      else node (l.getD i default) (l.getD (buddy i) default)) = (up node lone l).getD (i / 2) default := by
  by_cases hodd : i % 2 = 1
  · -- `i` is the right element of the pair `i - 1`, `i`
    have hb : buddy i = 2 * (i / 2) := by unfold buddy; split_ifs <;> omega
    rw [getD_up_pair node lone l (by omega), if_pos (decide_eq_true hodd), hb,
      show 2 * (i / 2) + 1 = i by omega]
  · have hb : buddy i = 2 * (i / 2) + 1 := by unfold buddy; split_ifs <;> omega
    rw [getD_up_pair node lone l (by omega), if_neg (by simpa using hodd), hb,
      show 2 * (i / 2) = i by omega]

/-- Climbing `d` steps of the path of a position of a layer of `2 ^ k`
elements reaches its ancestor `d` layers up. -/
theorem climb_take_path : ∀ {d k : Nat}, d ≤ k → ∀ {l : List α}, l.length = 2 ^ k → ∀ {i : Nat}, i < 2 ^ k →
    climb node (l.getD i default) ((path node lone k l i).take d) = ((up node lone)^[d] l).getD (i / 2 ^ d) default
  | 0, _, _, l, _, i, _ => by simp
  | d + 1, k + 1, hd, l, hl, i, hi => by
    have heven : l.length % 2 = 0 := by rw [hl, Nat.pow_succ]; omega
    have hup : (up node lone l).length = 2 ^ k := by rw [length_up, hl, Nat.pow_succ]; omega
    have hi2 : i / 2 < 2 ^ k := by rw [Nat.pow_succ] at hi; omega
    rw [path, List.take_succ_cons, climb_cons, climb_step node lone heven (by omega),
      climb_take_path (Nat.le_of_succ_le_succ hd) hup hi2, Function.iterate_succ_apply,
      Nat.div_div_eq_div_mul, Nat.pow_succ, Nat.mul_comm 2]

/-- The whole path of a position of a layer of `2 ^ k` elements climbs to the root. -/
theorem climb_path {k : Nat} {l : List α} (hl : l.length = 2 ^ k) {i : Nat} (hi : i < 2 ^ k) :
    climb node (l.getD i default) (path node lone k l i) = ((up node lone)^[k] l).getD 0 default := by
  have h := climb_take_path node lone (Nat.le_refl k) hl hi
  rwa [List.take_of_length_le (by simp), Nat.div_eq_of_lt hi] at h

end Path

/-! ## The layers above a layer -/

/-- The layers hashing produces from `l`, up to the first with at most one element. -/
def above (l : List α) : List (List α) :=
  if (up node lone l).length ≤ 1 then [up node lone l] else up node lone l :: above (up node lone l)
termination_by l.length
decreasing_by simp only [length_up] at *; omega

/-- Over a layer of `2 ^ (k + 1)` elements there are `k + 1` layers, each half the one below. -/
theorem above_of_length_eq_pow : ∀ {k : Nat} {l : List α}, l.length = 2 ^ (k + 1) →
    above node lone l = (List.range (k + 1)).map fun m => (up node lone)^[m + 1] l
  | 0, l, hl => by
    rw [above, if_pos (by simp [hl])]
    rfl
  | k + 1, l, hl => by
    have hup : (up node lone l).length = 2 ^ (k + 1) := by rw [length_up, hl, Nat.pow_succ]; omega
    have hbig : ¬ (up node lone l).length ≤ 1 := by
      rw [hup, Nat.pow_succ]
      have := Nat.one_le_two_pow (n := k)
      omega
    rw [above, if_neg hbig, above_of_length_eq_pow hup]
    simp only [List.range_succ_eq_map (n := k + 1), List.map_cons, List.map_map]
    congr 1

/-- The top layer, the last of `above`: at most one element. -/
def top (l : List α) : List α :=
  if (up node lone l).length ≤ 1 then up node lone l else top (up node lone l)
termination_by l.length
decreasing_by simp only [length_up] at *; omega

theorem top_of_length_eq_pow : ∀ {k : Nat} {l : List α}, l.length = 2 ^ (k + 1) →
    top node lone l = (up node lone)^[k + 1] l
  | 0, l, hl => by
    rw [top, if_pos (by simp [hl])]
    rfl
  | k + 1, l, hl => by
    have hup : (up node lone l).length = 2 ^ (k + 1) := by rw [length_up, hl, Nat.pow_succ]; omega
    have hbig : ¬ (up node lone l).length ≤ 1 := by
      rw [hup, Nat.pow_succ]
      have := Nat.one_le_two_pow (n := k)
      omega
    rw [top, if_neg hbig, top_of_length_eq_pow hup]
    exact (Function.iterate_succ_apply _ _ _).symm

end MerkleTree
