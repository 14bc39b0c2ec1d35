import Mathlib.Data.List.Rotate
import Mathlib.Data.List.Chain

/-!
# Elementary cycles

A cycle of a relation is listed by its vertices in order, each related to the
next and the last to the first; it is elementary when no vertex repeats. The
same cycle has one list per rotation: every rotation of an elementary cycle is
one, each of its vertices starts one of them, and two rotations without repeats
that start at the same vertex are the same list.
-/

namespace Digraph

variable {α : Type*} {r : α → α → Prop} {S : Set α} {c : List α}

/-- `c` lists an elementary cycle of `r` through vertices of `S`: no vertex
repeats, consecutive vertices are related, and so are the last and the first. -/
structure IsElementaryCycle (r : α → α → Prop) (S : Set α) (c : List α) : Prop where
  ne_nil : c ≠ []
  nodup : c.Nodup
  subset : ∀ a ∈ c, a ∈ S
  chain : c.IsChain r
  closing : ∀ a ∈ c.getLast?, ∀ b ∈ c.head?, r a b

namespace IsElementaryCycle

/-- Moving the first vertex to the end lists the same cycle. -/
theorem rotate_one {a : α} {l : List α} (h : IsElementaryCycle r S (a :: l)) :
    IsElementaryCycle r S (l ++ [a]) := by
  have hlast : ∀ x ∈ l.getLast?, r x a := fun x hx =>
    h.closing x (by cases l <;> simp_all) a rfl
  refine ⟨by simp, ?_, fun x hx => h.subset x ?_, ?_, ?_⟩
  · exact (List.perm_append_singleton a l).nodup_iff.mpr h.nodup
  · exact (List.perm_append_singleton a l).mem_iff.mp hx
  · exact h.chain.of_cons.append (List.isChain_singleton a) fun x hx y hy => by
      obtain rfl : y = a := by simpa using hy.symm
      exact hlast x hx
  · intro x hx y hy
    obtain rfl : x = a := by simpa using hx.symm
    cases l with
    | nil =>
      obtain rfl : y = x := by simpa using hy.symm
      exact h.closing y (by simp) y rfl
    | cons b l =>
      obtain rfl : y = b := by simpa using hy.symm
      exact (List.isChain_cons_cons.mp h.chain).1

/-- Every rotation of an elementary cycle lists it. -/
theorem rotate (h : IsElementaryCycle r S c) (n : ℕ) : IsElementaryCycle r S (c.rotate n) := by
  induction n generalizing c with
  | zero => simpa using h
  | succ n ih =>
    cases c with
    | nil => exact absurd rfl h.ne_nil
    | cons a l =>
      rw [List.rotate_cons_succ]
      exact ih h.rotate_one

end IsElementaryCycle

/-- A list has a rotation starting at each of its members. -/
theorem exists_rotate_head {c : List α} {a : α} (ha : a ∈ c) : ∃ n, (c.rotate n).head? = some a := by
  classical
  have hlt : c.idxOf a < c.length := List.idxOf_lt_length_iff.mpr ha
  refine ⟨c.idxOf a, ?_⟩
  rw [List.rotate_eq_drop_append_take hlt.le, List.head?_append, List.head?_drop,
    List.getElem?_eq_getElem hlt, List.getElem_idxOf hlt]
  rfl

/-- Two rotations of a list without repeats that start at the same vertex are equal. -/
theorem eq_of_isRotated_of_head {c d : List α} (hc : c.Nodup) (hcd : c ~r d)
    (hhead : c.head? = d.head?) : c = d := by
  obtain ⟨n, hn, rfl⟩ := List.isRotated_iff_mod.mp hcd
  cases c with
  | nil => simp
  | cons a l =>
    have hpos : 0 < (a :: l).length := by simp
    have hmod : n % (a :: l).length < (a :: l).length := Nat.mod_lt _ hpos
    have hget : (a :: l)[0]? = (a :: l)[n % (a :: l).length]? := by
      rw [← List.head?_eq_getElem?, hhead, List.head?_eq_getElem?,
        List.getElem?_rotate hpos, Nat.zero_add]
    rw [List.getElem?_eq_getElem hpos, List.getElem?_eq_getElem hmod, Option.some_inj,
      hc.getElem_inj_iff] at hget
    rw [← List.rotate_mod, ← hget, List.rotate_zero]

/-- In a list of cycles no two of which are rotations of each other, a cycle
with a rotation in the list has exactly one there. -/
theorem countP_isRotated_eq_one [DecidableEq α] {L : List (List α)}
    (hL : L.Pairwise fun c d => ¬ c ~r d) (hc : ∃ d ∈ L, d ~r c) : L.countP (fun d => d ~r c) = 1 := by
  induction L with
  | nil => simp at hc
  | cons d L ih =>
    obtain ⟨hd, hL⟩ := List.pairwise_cons.mp hL
    rw [List.countP_cons]
    by_cases hdc : d ~r c
    · -- a later rotation of c would be one of d
      have hnone : L.countP (fun e => e ~r c) = 0 :=
        List.countP_eq_zero.mpr fun e he hec => hd e he (hdc.trans (of_decide_eq_true hec).symm)
      simp [hnone, hdc]
    · obtain ⟨e, he, hec⟩ := hc
      have he' : e ∈ L := by
        rcases List.mem_cons.mp he with rfl | he
        · exact absurd hec hdc
        · exact he
      simp [ih hL ⟨e, he', hec⟩, hdc]

end Digraph
