import Mathlib.Order.WellFoundedSet
import Mathlib.Algebra.BigOperators.Group.Finset.Basic
import Mathlib.Algebra.Order.BigOperators.Group.Finset
import Mathlib.Algebra.BigOperators.Fin
import Mathlib.Data.List.GetD

/-!
# Finite digraphs given by adjacency lists

A digraph on the vertices `0, …, n - 1` is a list of `n` successor lists;
parallel arcs are allowed. In-degrees are counted with multiplicity, as the
degree tables of list-based graph code count them, and relative to a set of
source vertices: Kahn-style sorts keep, for every vertex not yet output, the
number of arcs into it from vertices not yet output.

An acyclic relation has a source in every finite non-empty set, which is what
makes such a sort progress, and a list is a topological order when every arc
into one of its vertices starts at a vertex listed before it.
-/

namespace Digraph

open Relation

section Relation

variable {α β : Type*} {r : α → α → Prop} {s : β → β → Prop}

/-- `r` has no cycle. -/
def Acyclic (r : α → α → Prop) : Prop := ∀ a, ¬ TransGen r a a

/-- An acyclic relation has an `r`-source in every finite non-empty set. -/
theorem Acyclic.exists_source (h : Acyclic r) {t : Set α} (ht : t.Finite) (hne : t.Nonempty) :
    ∃ a ∈ t, ∀ b ∈ t, ¬ r b a := by
  have : IsStrictOrder α (TransGen r) :=
    { irrefl := h, trans := fun _ _ _ => TransGen.trans }
  have hwf := Set.wellFoundedOn_iff.mp (ht.wellFoundedOn (r := TransGen r))
  obtain ⟨a, ha, hmin⟩ := hwf.has_min t hne
  exact ⟨a, ha, fun b hb hba => hmin b hb ⟨TransGen.single hba, hb, ha⟩⟩

/-- Acyclicity is inherited along a map that sends arcs to arcs. -/
theorem Acyclic.comap (f : α → β) (hf : ∀ a b, r a b → s (f a) (f b)) (h : Acyclic s) :
    Acyclic r := by
  intro a hcyc
  exact h (f a) (TransGen.lift f hf a a hcyc)

/-- A relation none of whose arcs can be followed by another is acyclic. -/
theorem acyclic_of_not_comp (h : ∀ a b c, r a b → ¬ r b c) : Acyclic r := by
  intro a hcyc
  obtain ⟨b, hab, hba⟩ := TransGen.head'_iff.mp hcyc
  rcases ReflTransGen.cases_head hba with rfl | ⟨c, hbc, -⟩
  · exact h b b b hab hab
  · exact h a b c hab hbc

/-- `a` and `b` lie in one strongly connected component of `r`: each reaches the other. -/
def SameComponent (r : α → α → Prop) (a b : α) : Prop := ReflTransGen r a b ∧ ReflTransGen r b a

/-- A set closed under `r` holds everything reachable from its members. -/
theorem mem_of_reflTransGen {t : Set α} (ht : ∀ a b, a ∈ t → r a b → b ∈ t) {a b : α} (ha : a ∈ t)
    (hab : ReflTransGen r a b) : b ∈ t := by
  induction hab with
  | refl => exact ha
  | tail _ hbc ih => exact ht _ _ ih hbc

/-- The arcs of `r` between elements outside `s`: the subgraph that removing
`s` leaves. -/
def Outside (r : α → α → Prop) (s : Set α) (a b : α) : Prop := r a b ∧ a ∉ s ∧ b ∉ s

/-- A two-cycle that avoids `s` survives its removal. -/
theorem not_acyclic_outside {s : Set α} {a b : α} (hab : r a b) (hba : r b a) (ha : a ∉ s) (hb : b ∉ s) :
    ¬ Acyclic (Outside r s) :=
  fun h => h a (TransGen.tail (TransGen.single ⟨hab, ha, hb⟩) ⟨hba, hb, ha⟩)

/-- Every arc into a vertex of `l` starts at a vertex listed before it. -/
def IsTopological (r : α → α → Prop) (l : List α) : Prop :=
  ∀ a b, r a b → b ∈ l → [a, b].Sublist l

theorem IsTopological.nil : IsTopological r [] := by
  intro a b _ hb
  simp at hb

/-- Appending a vertex all of whose predecessors are listed keeps the order topological. -/
theorem IsTopological.append_singleton {l : List α} {x : α} (h : IsTopological r l)
    (hx : ∀ a, r a x → a ∈ l) : IsTopological r (l ++ [x]) := by
  intro a b hab hb
  rcases List.mem_append.mp hb with hb | hb
  · exact (h a b hab hb).trans (List.sublist_append_left l [x])
  · obtain rfl : b = x := List.mem_singleton.mp hb
    exact List.Sublist.append (List.singleton_sublist.mpr (hx a hab)) (List.Sublist.refl [b])

end Relation

/-! ## Adjacency lists -/

/-- The arc `u → v` of the adjacency lists `g`, once for any number of parallel arcs. -/
def Arc (g : List (List Nat)) (u v : Nat) : Prop := u < g.length ∧ v ∈ g.getD u []

/-- Every arc ends at a vertex of the graph. -/
def InRange (g : List (List Nat)) : Prop := ∀ l ∈ g, ∀ v ∈ l, v < g.length

instance (g : List (List Nat)) : Decidable (InRange g) :=
  inferInstanceAs (Decidable (∀ l ∈ g, ∀ v ∈ l, v < g.length))

/-- No vertex lists itself as a successor. -/
def Loopless (g : List (List Nat)) : Prop := ∀ u, ¬ Arc g u u

theorem loopless_iff {g : List (List Nat)} : Loopless g ↔ ∀ u < g.length, u ∉ g.getD u [] := by
  simp only [Loopless, Arc, not_and]

instance (g : List (List Nat)) : Decidable (Loopless g) :=
  decidable_of_iff _ loopless_iff.symm

/-- No vertex lists a successor twice: there are no parallel arcs. -/
def NoParallel (g : List (List Nat)) : Prop := ∀ l ∈ g, l.Nodup

instance (g : List (List Nat)) : Decidable (NoParallel g) :=
  inferInstanceAs (Decidable (∀ l ∈ g, l.Nodup))

theorem NoParallel.getD {g : List (List Nat)} (h : NoParallel g) (u : Nat) : (g.getD u []).Nodup := by
  rw [List.getD_eq_getElem?_getD]
  cases hu : g[u]? with
  | none => exact List.nodup_nil
  | some l => exact h l (List.mem_of_getElem? hu)

/-- The arcs into `v` from the vertices satisfying `p`, with multiplicity. -/
def inArcs (g : List (List Nat)) (p : Nat → Prop) [DecidablePred p] (v : Nat) : Nat :=
  ∑ u ∈ (Finset.range g.length).filter p, (g.getD u []).count v

section InArcs

variable {g : List (List Nat)} {p q : Nat → Prop} [DecidablePred p] [DecidablePred q]

theorem InRange.lt (hg : InRange g) {u v : Nat} (h : Arc g u v) : v < g.length := by
  obtain ⟨hu, hv⟩ := h
  rw [List.getD_eq_getElem _ _ hu] at hv
  exact hg _ (List.getElem_mem hu) v hv

/-- The arcs into `v` from every vertex are the counts of `v` in all lists. -/
theorem inArcs_true (g : List (List Nat)) (v : Nat) :
    inArcs g (fun _ => True) v = (g.map (List.count v)).sum := by
  rw [inArcs, Finset.filter_true, Finset.sum_range, ← List.sum_ofFn]
  congr 1
  apply List.ext_getElem (by simp)
  intro i _ _
  simp

theorem inArcs_eq_zero_iff (v : Nat) : inArcs g p v = 0 ↔ ∀ u, p u → ¬ Arc g u v := by
  simp only [inArcs, Finset.sum_eq_zero_iff, Finset.mem_filter, Finset.mem_range,
    List.count_eq_zero, Arc]
  constructor
  · rintro h u hp ⟨hu, hv⟩
    exact h u ⟨hu, hp⟩ hv
  · rintro h u ⟨hu, hp⟩ hv
    exact h u hp ⟨hu, hv⟩

/-- Taking vertex `x` out of the source set removes exactly its arcs. -/
theorem inArcs_erase {x : Nat} (hx : x < g.length) (hpx : p x) (v : Nat) :
    inArcs g p v = inArcs g (fun u => p u ∧ u ≠ x) v + (g.getD x []).count v := by
  have hset : (Finset.range g.length).filter (fun u => p u ∧ u ≠ x) =
      ((Finset.range g.length).filter p).erase x := by
    ext u
    simp only [Finset.mem_filter, Finset.mem_erase, Finset.mem_range]
    tauto
  rw [inArcs, inArcs, hset, Finset.sum_erase_add]
  simpa using ⟨hx, hpx⟩

theorem inArcs_congr (h : ∀ u < g.length, p u ↔ q u) (v : Nat) : inArcs g p v = inArcs g q v := by
  unfold inArcs
  congr 1
  ext u
  simp only [Finset.mem_filter, Finset.mem_range]
  exact ⟨fun ⟨hu, hp⟩ => ⟨hu, (h u hu).mp hp⟩, fun ⟨hu, hq⟩ => ⟨hu, (h u hu).mpr hq⟩⟩

theorem inArcs_mono (h : ∀ u < g.length, p u → q u) (v : Nat) : inArcs g p v ≤ inArcs g q v := by
  apply Finset.sum_le_sum_of_subset
  intro u
  simp only [Finset.mem_filter, Finset.mem_range]
  exact fun ⟨hu, hp⟩ => ⟨hu, h u hu hp⟩

theorem inArcs_le_true (v : Nat) : inArcs g p v ≤ (g.map (List.count v)).sum := by
  rw [← inArcs_true]
  exact inArcs_mono (fun _ _ _ => trivial) v

/-- Successor lists without repeats give each vertex at most one arc from each vertex. -/
theorem sum_count_le_length (h : ∀ l ∈ g, l.Nodup) (v : Nat) :
    (g.map (List.count v)).sum ≤ g.length := by
  induction g with
  | nil => simp
  | cons l g ih =>
    have hl : l.count v ≤ 1 := List.nodup_iff_count_le_one.mp (h l List.mem_cons_self) v
    have hg := ih fun l' hl' => h l' (List.mem_cons_of_mem _ hl')
    simp only [List.map_cons, List.sum_cons, List.length_cons]
    omega

end InArcs

/-! ## Building adjacency lists -/

/-- A loop whose every pass may add entries to a list: an entry is in the
result when it was there before or some pass added it. -/
theorem mem_foldl_of_step {α β : Type*} {step : List β → α → List β} {P : α → β → Prop}
    (h : ∀ row x m, m ∈ step row x ↔ m ∈ row ∨ P x m) :
    ∀ (l : List α) (row : List β) (m : β), m ∈ l.foldl step row ↔ m ∈ row ∨ ∃ x ∈ l, P x m
  | [], row, m => by simp
  | x :: l, row, m => by
    rw [List.foldl_cons, mem_foldl_of_step h l, h]
    simp only [List.mem_cons, exists_eq_or_imp]
    tauto

/-! ## Lists of distinct vertices -/

/-- A duplicate-free list of vertices below `n` has at most `n` entries. -/
theorem length_le_of_nodup {l : List Nat} {n : Nat} (hd : l.Nodup) (hl : ∀ x ∈ l, x < n) :
    l.length ≤ n := by
  have hsub : l.Subperm (List.range n) :=
    List.subperm_of_subset hd fun x hx => List.mem_range.mpr (hl x hx)
  simpa using hsub.length_le

/-- A list shorter than `n` leaves out some vertex below `n`. -/
theorem exists_not_mem_of_length_lt {l : List Nat} {n : Nat} (hlen : l.length < n) :
    ∃ u < n, u ∉ l := by
  by_contra h
  push Not at h
  have hsub : (List.range n).Subperm l :=
    List.subperm_of_subset List.nodup_range fun u hu => h u (List.mem_range.mp hu)
  have := hsub.length_le
  rw [List.length_range] at this
  omega

/-- A duplicate-free list of `n` vertices below `n` lists every vertex. -/
theorem mem_of_nodup_of_length {l : List Nat} {n : Nat} (hd : l.Nodup) (hl : ∀ x ∈ l, x < n)
    (hlen : n ≤ l.length) {u : Nat} (hu : u < n) : u ∈ l := by
  have hsub : l.Subperm (List.range n) :=
    List.subperm_of_subset hd fun x hx => List.mem_range.mpr (hl x hx)
  have hperm : l.Perm (List.range n) := hsub.perm_of_length_le (by simpa using hlen)
  exact hperm.mem_iff.mpr (List.mem_range.mpr hu)

/-- A duplicate-free list of vertices below `n` missing `v` misses no other
vertex once it has `n - 1` entries. -/
theorem eq_of_not_mem_of_length {l : List Nat} {n : Nat} (hd : l.Nodup) (hl : ∀ x ∈ l, x < n)
    (hlen : n ≤ l.length + 1) {u v : Nat} (hu : u < n) (hv : v < n) (hun : u ∉ l) (hvn : v ∉ l) :
    u = v := by
  by_contra hne
  have hd' : (v :: l).Nodup := List.nodup_cons.mpr ⟨hvn, hd⟩
  have hl' : ∀ x ∈ v :: l, x < n := by
    intro x hx
    rcases List.mem_cons.mp hx with rfl | hx
    · exact hv
    · exact hl x hx
  have := mem_of_nodup_of_length hd' hl' (by simpa using hlen) hu
  rcases List.mem_cons.mp this with h | h
  · exact hne h
  · exact hun h

end Digraph
