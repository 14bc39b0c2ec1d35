import Nezha.Models.ClassicalGraph.BasicSort

/-!
# `AdvancedTopologicalSort` (`core/classical_graph.go`)

Rank division sorts the queue dependency graph with Kahn's algorithm, except
that whenever no unsorted vertex of in-degree zero is left, `findMaxNode`
supplies an unsorted vertex of least in-degree. The sort is run on a fresh
`Init g` for adjacency lists `g` whose arcs stay in the graph, without
self-loops, and whose in-degrees fit in a Go `int`.

The loop invariant `AdvInv` says what the table holds between iterations:
the sorted flags are the vertices output so far, the in-degree of every
unsorted vertex counts the arcs into it from unsorted vertices (`pending`),
the queue holds distinct unsorted vertices, among them every unsorted vertex
of pending in-degree zero, and either all of the queue has pending in-degree
zero or it is the single vertex `findMaxNode` picked. Two facts about the
stored minimum close the loop: it is not positive once at most one vertex is
left (so the stale minimum, which the loop stops recomputing when every vertex
is sorted, never makes `findMaxNode` push its default `0` again), and an empty
queue means every vertex is sorted.

From the invariant: the sort returns every vertex exactly once, after at most
one iteration per vertex; and on an acyclic graph `findMaxNode` is never used,
so every arc goes forward in the result.
-/

namespace Nezha

namespace AlGraph

open Digraph

/-- The arcs into `v` from the vertices not in `order`. -/
def pending (g : List (List Nat)) (order : List Nat) (v : Nat) : Nat := inArcs g (· ∉ order) v

/-- The vertex list of `Init g` once the vertices of `order` are marked sorted. -/
def sortedVertices (g : List (List Nat)) (order : List Nat) : List VNode :=
  (List.range g.length).map fun i => ⟨i, initArcs g i, decide (i ∈ order)⟩

section Tables

variable {g : List (List Nat)}

theorem sortedVertices_nil (g : List (List Nat)) : sortedVertices g [] = (init g).vertices := by
  simp [sortedVertices, init_vertices]

@[simp] theorem length_sortedVertices (g : List (List Nat)) (order : List Nat) :
    (sortedVertices g order).length = g.length := by
  simp [sortedVertices]

theorem getElem?_sortedVertices {order : List Nat} {i : Nat} (hi : i < g.length) :
    (sortedVertices g order)[i]? = some ⟨i, initArcs g i, decide (i ∈ order)⟩ := by
  simp [sortedVertices, List.getElem?_range hi]

theorem sortedAt_eq {al : AlGraph} {order : List Nat} (hv : al.vertices = sortedVertices g order)
    {i : Nat} (hi : i < g.length) : al.sortedAt i = decide (i ∈ order) := by
  simp [sortedAt, hv, List.getD_eq_getElem?_getD, getElem?_sortedVertices hi]

/-- `al.vertices[top].isSorted = true` adds `top` to the sorted vertices. -/
theorem markSorted_vertices {al : AlGraph} {order : List Nat} (hv : al.vertices = sortedVertices g order)
    (top : Nat) :
    (al.markSorted top).vertices = sortedVertices g (order ++ [top]) := by
  simp only [markSorted, hv]
  apply List.ext_getElem?
  intro i
  by_cases hi : i < g.length
  · rw [List.getElem?_modify, getElem?_sortedVertices hi, getElem?_sortedVertices hi]
    by_cases hit : top = i
    · subst hit
      simp
    · simp [hit, Ne.symm hit]
  · rw [List.getElem?_modify, List.getElem?_eq_none (by simp; omega),
      List.getElem?_eq_none (by simp; omega)]
    rfl

/-- Sorting one more unsorted vertex removes exactly its arcs from the pending counts. -/
theorem pending_append {order : List Nat} {top : Nat} (htop : top < g.length) (hnot : top ∉ order)
    (v : Nat) : pending g order v = pending g (order ++ [top]) v + (g.getD top []).count v := by
  unfold pending
  rw [inArcs_erase htop hnot v]
  congr 1
  apply inArcs_congr
  intro u _
  simp

theorem pending_append_le {order : List Nat} (top v : Nat) :
    pending g (order ++ [top]) v ≤ pending g order v := by
  apply inArcs_mono
  intro u _ hu
  exact fun h => hu (List.mem_append_left _ h)

theorem pending_le (order : List Nat) (v : Nat) : pending g order v ≤ (g.map (List.count v)).sum :=
  inArcs_le_true v

theorem pending_nil (v : Nat) : pending g [] v = (g.map (List.count v)).sum := by
  rw [pending, ← inArcs_true]
  exact inArcs_congr (fun u _ => by simp) v

end Tables

/-! ## The minimum scans and `findMaxNode` -/

/-- A minimum scan that skips the entries `p`: it stays below its start, below
every unskipped entry, and is its start or one of them. -/
theorem foldl_min_spec {p : Nat → Bool} {f : Nat → Int} : ∀ (l : List Nat) (m₀ : Int),
    l.foldl (fun m i => if p i then m else if f i < m then f i else m) m₀ ≤ m₀ ∧
      (∀ i ∈ l, p i = false → l.foldl (fun m i => if p i then m else if f i < m then f i else m) m₀ ≤ f i) ∧
      (l.foldl (fun m i => if p i then m else if f i < m then f i else m) m₀ = m₀ ∨
        ∃ i ∈ l, p i = false ∧ l.foldl (fun m i => if p i then m else if f i < m then f i else m) m₀ = f i)
  | [], m₀ => ⟨le_rfl, by simp, Or.inl rfl⟩
  | i :: l, m₀ => by
    set m₁ := if p i then m₀ else if f i < m₀ then f i else m₀ with hm₁
    obtain ⟨hle, hall, hval⟩ := foldl_min_spec l m₁
    simp only [List.foldl_cons]
    have h₁ : m₁ ≤ m₀ := by rw [hm₁]; split_ifs <;> omega
    refine ⟨hle.trans h₁, fun j hj hpj => ?_, ?_⟩
    · rcases List.mem_cons.mp hj with rfl | hj
      · have : m₁ ≤ f j := by
          rw [hm₁]
          simp only [hpj, Bool.false_eq_true, if_false]
          split_ifs <;> omega
        exact hle.trans this
      · exact hall j hj hpj
    · rcases hval with hval | ⟨j, hj, hpj, hval⟩
      · rw [hval, hm₁]
        by_cases hpi : p i = true
        · simp [hpi]
        · split_ifs with hlt
          · exact Or.inr ⟨i, List.mem_cons_self, by simpa using hpi, rfl⟩
          · exact Or.inl rfl
      · exact Or.inr ⟨j, List.mem_cons_of_mem _ hj, hpj, hval⟩

/-- The maximum scan of `findMaxNode`: it ends at its start or at an entry's
value, and above both. -/
theorem foldl_max_spec {f : Nat → Nat} : ∀ (l : List Nat) (m₀ : Nat),
    (l.foldl (fun m v => if f v > m then f v else m) m₀ = m₀ ∨
      ∃ x ∈ l, f x = l.foldl (fun m v => if f v > m then f v else m) m₀) ∧
    m₀ ≤ l.foldl (fun m v => if f v > m then f v else m) m₀ ∧
    ∀ x ∈ l, f x ≤ l.foldl (fun m v => if f v > m then f v else m) m₀
  | [], m₀ => ⟨Or.inl rfl, le_rfl, by simp⟩
  | v :: l, m₀ => by
    set m₁ := if f v > m₀ then f v else m₀ with hm₁
    obtain ⟨hval, hge₁, hall⟩ := foldl_max_spec l m₁
    simp only [List.foldl_cons]
    have hm : m₀ ≤ m₁ ∧ f v ≤ m₁ ∧ (m₁ = m₀ ∨ m₁ = f v) := by
      rw [hm₁]
      split_ifs <;> omega
    refine ⟨?_, hm.1.trans hge₁, fun x hx => ?_⟩
    · rcases hval with hval | ⟨x, hx, hval⟩
      · rcases hm.2.2 with h | h
        · exact Or.inl (hval.trans h)
        · exact Or.inr ⟨v, List.mem_cons_self, (hval.trans h).symm⟩
      · exact Or.inr ⟨x, List.mem_cons_of_mem _ hx, hval⟩
    · rcases List.mem_cons.mp hx with rfl | hx
      · exact hm.2.1.trans hge₁
      · exact hall x hx

/-- Over a non-empty list the maximum scan from `0` ends at a value one of its entries has. -/
theorem exists_foldl_max_eq {f : Nat → Nat} {l : List Nat} (hl : l ≠ []) :
    ∃ x ∈ l, f x = l.foldl (fun m v => if f v > m then f v else m) 0 := by
  obtain ⟨hval, -, hall⟩ := foldl_max_spec (f := f) l 0
  rcases hval with hval | hval
  · obtain ⟨x, hx⟩ := List.exists_mem_of_ne_nil l hl
    exact ⟨x, hx, by have := hall x hx; omega⟩
  · exact hval

/-- The stored minimum: below `math.MaxInt64`, below every unsorted in-degree,
and equal to one of them unless it is still `math.MaxInt64`. -/
theorem unsortedMin_spec (al : AlGraph) :
    al.unsortedMin ≤ maxInt64 ∧
      (∀ i < al.inDegree.length, al.sortedAt i = false → al.unsortedMin ≤ al.inDegree.getD i 0) ∧
      (al.unsortedMin = maxInt64 ∨
        ∃ i < al.inDegree.length, al.sortedAt i = false ∧ al.unsortedMin = al.inDegree.getD i 0) := by
  obtain ⟨hle, hall, hval⟩ := foldl_min_spec (p := al.sortedAt) (f := fun i => al.inDegree.getD i 0)
    (List.range al.inDegree.length) maxInt64
  refine ⟨hle, fun i hi hs => hall i (List.mem_range.mpr hi) hs, ?_⟩
  rcases hval with hval | ⟨i, hi, hs, hval⟩
  · exact Or.inl hval
  · exact Or.inr ⟨i, List.mem_range.mp hi, hs, hval⟩

/-- `findMaxNode min` picks an unsorted vertex of in-degree `min` whenever there is one. -/
theorem findMaxNode_spec (al : AlGraph) {m : Int}
    (h : ∃ i < al.inDegree.length, al.sortedAt i = false ∧ al.inDegree.getD i 0 = m) :
    al.findMaxNode m < al.inDegree.length ∧ al.sortedAt (al.findMaxNode m) = false ∧
      al.inDegree.getD (al.findMaxNode m) 0 = m := by
  set inDegreeVex := (List.range al.inDegree.length).filter fun i =>
    !al.sortedAt i && al.inDegree.getD i 0 = m with hvex
  have hne : inDegreeVex ≠ [] := by
    obtain ⟨i, hi, hs, hd⟩ := h
    apply List.ne_nil_of_mem (a := i)
    refine List.mem_filter.mpr ⟨List.mem_range.mpr hi, ?_⟩
    rw [hs, hd]
    simp
  obtain ⟨x, hx, hmax⟩ := exists_foldl_max_eq (f := fun v => al.outDegree.getD v 0) hne
  obtain ⟨y, hfind⟩ : ∃ y, inDegreeVex.find? (fun v => al.outDegree.getD v 0 =
      inDegreeVex.foldl (fun m v => if al.outDegree.getD v 0 > m then al.outDegree.getD v 0 else m) 0)
      = some y := by
    apply Option.isSome_iff_exists.mp
    rw [List.find?_isSome]
    exact ⟨x, hx, by simpa using hmax⟩
  have hy : y ∈ inDegreeVex := List.mem_of_find?_eq_some hfind
  have hpick : al.findMaxNode m = y := by
    simp only [findMaxNode, ← hvex, hfind, Option.getD_some]
  simp only [hvex, List.mem_filter, List.mem_range, Bool.and_eq_true, Bool.not_eq_true',
    decide_eq_true_eq] at hy
  rw [hpick]
  exact ⟨hy.1, hy.2.1, hy.2.2⟩

/-- The minimum `AdvancedTopologicalSort` starts with, over the whole in-degree table. -/
theorem foldl_minValue_spec : ∀ (l : List Int) (m₀ : Int),
    l.foldl (fun m v => if v < m then v else m) m₀ ≤ m₀ ∧
      (∀ v ∈ l, l.foldl (fun m v => if v < m then v else m) m₀ ≤ v) ∧
      (l.foldl (fun m v => if v < m then v else m) m₀ = m₀ ∨
        l.foldl (fun m v => if v < m then v else m) m₀ ∈ l)
  | [], m₀ => ⟨le_rfl, by simp, Or.inl rfl⟩
  | v :: l, m₀ => by
    set m₁ := if v < m₀ then v else m₀ with hm₁
    obtain ⟨hle, hall, hval⟩ := foldl_minValue_spec l m₁
    simp only [List.foldl_cons]
    have hm : m₁ ≤ m₀ ∧ m₁ ≤ v ∧ (m₁ = m₀ ∨ m₁ = v) := by
      rw [hm₁]
      split_ifs <;> omega
    refine ⟨hle.trans hm.1, fun w hw => ?_, ?_⟩
    · rcases List.mem_cons.mp hw with rfl | hw
      · exact hle.trans hm.2.1
      · exact hall w hw
    · rcases hval with hval | hval
      · rcases hm.2.2 with h | h
        · exact Or.inl (hval.trans h)
        · exact Or.inr (by rw [hval, h]; exact List.mem_cons_self)
      · exact Or.inr (List.mem_cons_of_mem _ hval)

/-! ## The arc loop -/

theorem count_cons_ite (t a : Nat) (l : List Nat) :
    (a :: l).count t = l.count t + if t = a then 1 else 0 := by
  by_cases h : t = a
  · subst h
    simp
  · simp [Ne.symm h, h]

/-- The arc loop of `AdvancedTopologicalSort` over arcs whose unsorted targets
have at least as much in-degree as arcs: it takes one in-degree per arc from
each unsorted target and enqueues, once, exactly the targets that reach zero. -/
theorem advancedArcs_spec (g : List (List Nat)) (order : List Nat) :
    ∀ (arcs : List Nat) (al : AlGraph) (queue : List Nat),
    al.vertices = sortedVertices g order → al.inDegree.length = g.length →
    (∀ a ∈ arcs, a < g.length) →
    (∀ t < g.length, t ∉ order → (arcs.count t : Int) ≤ al.inDegree.getD t 0) →
    ∃ al' new, advancedArcs al (arcs.map fun vv => ⟨vv, false⟩) queue = .ok (al', queue ++ new) ∧
      al'.vertices = al.vertices ∧ al'.outDegree = al.outDegree ∧
      al'.inDegree.length = al.inDegree.length ∧
      (∀ t < g.length, t ∉ order → al'.inDegree.getD t 0 = al.inDegree.getD t 0 - arcs.count t) ∧
      new.Nodup ∧
      ∀ t, t ∈ new ↔ t < g.length ∧ t ∉ order ∧ t ∈ arcs ∧ al.inDegree.getD t 0 = arcs.count t
  | [], al, queue, _, _, _, _ =>
    ⟨al, [], by simp [advancedArcs, pure, Except.pure], rfl, rfl, rfl, by simp, List.nodup_nil,
      by simp⟩
  | a :: rest, al, queue, hv, hl, harcs, hcount => by
    have ha : a < g.length := harcs a List.mem_cons_self
    have hrest : ∀ b ∈ rest, b < g.length := fun b hb => harcs b (List.mem_cons_of_mem _ hb)
    have hva : sliceIndex al.vertices a = .ok ⟨a, initArcs g a, decide (a ∈ order)⟩ := by
      simp [sliceIndex, hv, getElem?_sortedVertices ha]
    by_cases hao : a ∈ order
    · -- a sorted target is skipped
      have hne : ∀ t, t ∉ order → t ≠ a := fun t hto h => hto (h ▸ hao)
      have hcnt : ∀ t, t ∉ order → (a :: rest).count t = rest.count t := by
        intro t hto
        rw [count_cons_ite, if_neg (hne t hto), Nat.add_zero]
      obtain ⟨al', new, hrun, hv', ho', hl', hd', hnd, hmem⟩ := advancedArcs_spec g order rest al queue
        hv hl hrest (fun t ht hto => hcnt t hto ▸ hcount t ht hto)
      refine ⟨al', new, ?_, hv', ho', hl', fun t ht hto => ?_, hnd, fun t => ?_⟩
      · simp [advancedArcs, hva, hao, hrun]
      · rw [hd' t ht hto, hcnt t hto]
      · rw [hmem t]
        constructor
        · rintro ⟨ht, hto, htr, hd⟩
          exact ⟨ht, hto, List.mem_cons_of_mem _ htr, by rw [hcnt t hto]; exact hd⟩
        · rintro ⟨ht, hto, htr, hd⟩
          refine ⟨ht, hto, ?_, by rw [← hcnt t hto]; exact hd⟩
          rcases List.mem_cons.mp htr with h | h
          · exact absurd h (hne t hto)
          · exact h
    · -- an unsorted target loses one in-degree, and is enqueued when it reaches zero
      have hla : a < al.inDegree.length := hl ▸ ha
      set d := al.inDegree.getD a 0 with hd
      let al₁ : AlGraph := { al with inDegree := al.inDegree.set a (d - 1) }
      have hget₁ : ∀ t, al₁.inDegree.getD t 0 = if t = a then d - 1 else al.inDegree.getD t 0 :=
        fun t => getD_set_int _ hla _ t
      have hca := hcount a ha hao
      rw [count_cons_ite, if_pos rfl] at hca
      push_cast at hca
      obtain ⟨al', new', hrun, hv', ho', hl', hd', hnd, hmem⟩ := advancedArcs_spec g order rest al₁
        (if al₁.inDegree.getD a 0 = 0 then queue ++ [a] else queue) hv (by simpa [al₁] using hl) hrest
        (fun t ht hto => by
          have := hcount t ht hto
          rw [count_cons_ite] at this
          rw [hget₁ t]
          split_ifs at this ⊢ with h <;> first | omega | (subst h; omega))
      have hz : al₁.inDegree.getD a 0 = d - 1 := by rw [hget₁ a, if_pos rfl]
      refine ⟨al', (if d - 1 = 0 then [a] else []) ++ new', ?_, hv', ho', by simpa [al₁] using hl',
        fun t ht hto => ?_, ?_, fun t => ?_⟩
      · have hq : (if al₁.inDegree.getD a 0 = 0 then queue ++ [a] else queue) ++ new' =
            queue ++ ((if d - 1 = 0 then [a] else []) ++ new') := by
          rw [hz]
          split <;> simp
        simp only [List.map_cons, advancedArcs, hva, except_ok_bind, decide_eq_true_eq, hao,
          if_false, decInDegree_eq hla]
        rw [← hd, ← hq]
        exact hrun
      · rw [hd' t ht hto, hget₁ t, count_cons_ite]
        split_ifs with h
        · rw [h, ← hd]
          push_cast
          omega
        · push_cast
          omega
      · split
        · have hnot : a ∉ new' := by
            intro hmem'
            have hr := ((hmem a).mp hmem').2.2.1
            have : 0 < rest.count a := List.count_pos_iff.mpr hr
            omega
          exact List.nodup_cons.mpr ⟨hnot, hnd⟩
        · exact hnd
      · rw [List.mem_append, List.mem_ite_nil_right, List.mem_singleton, hmem t, hget₁ t,
          count_cons_ite, List.mem_cons]
        by_cases hta : t = a
        · -- the target itself: enqueued now, or later by the last of its arcs
          subst t
          simp only [true_or, ha, hao, not_false_eq_true, true_and, and_true]
          by_cases hr : a ∈ rest
          · have : 0 < rest.count a := List.count_pos_iff.mpr hr
            simp only [hr, true_and]
            push_cast
            omega
          · have : rest.count a = 0 := List.count_eq_zero.mpr hr
            simp only [hr, false_and, or_false, this]
            push_cast
            omega
        · simp only [hta, and_false, false_or, if_false, Nat.add_zero]

/-! ## One iteration -/

/-- What one iteration that sorts the head `top` of the queue leaves: the
table of `order ++ [top]`, the queue's rest followed by the targets of `top`
the iteration freed, the stored minimum, and the `findMaxNode` pick a positive
minimum adds. -/
structure StepResult (g : List (List Nat)) (s s' : TopoState) (top : Nat) (rest new : List Nat) :
    Prop where
  order : s'.topologicalOrder = s.topologicalOrder ++ [top]
  vertices : s'.al.vertices = sortedVertices g s'.topologicalOrder
  inDegree_length : s'.al.inDegree.length = g.length
  inDegree : ∀ v < g.length, v ∉ s'.topologicalOrder →
    s'.al.inDegree.getD v 0 = pending g s'.topologicalOrder v
  new_nodup : new.Nodup
  mem_new : ∀ t, t ∈ new ↔ t < g.length ∧ t ∉ s'.topologicalOrder ∧ t ∈ g.getD top [] ∧
    pending g s'.topologicalOrder t = 0
  min : s'.min = if s'.topologicalOrder.length < g.length then s'.al.unsortedMin else s.min
  queue : s'.queue = rest ++ new ++ if s'.min > 0 then [s'.al.findMaxNode s'.min] else []

/-- One iteration of `AdvancedTopologicalSort` from a table that records the
sorted vertices and the pending in-degrees of the others, with an unsorted
vertex at the head of the queue. -/
theorem advancedStep_spec {g : List (List Nat)} (hg : InRange g) {s : TopoState}
    (hv : s.al.vertices = sortedVertices g s.topologicalOrder)
    (hl : s.al.inDegree.length = g.length)
    (hd : ∀ v < g.length, v ∉ s.topologicalOrder →
      s.al.inDegree.getD v 0 = pending g s.topologicalOrder v)
    {top : Nat} {rest : List Nat} (hq : s.queue = top :: rest) (ht : top < g.length)
    (hto : top ∉ s.topologicalOrder) :
    ∃ s' new, advancedStep s = .ok s' ∧ StepResult g s s' top rest new := by
  set order := s.topologicalOrder
  have hv₁ : (s.al.markSorted top).vertices = sortedVertices g (order ++ [top]) :=
    markSorted_vertices hv top
  have hfirst : sliceIndex s.al.vertices top = .ok ⟨top, initArcs g top, decide (top ∈ order)⟩ := by
    simp [sliceIndex, hv, getElem?_sortedVertices ht]
  have harcs : ∀ a ∈ g.getD top [], a < g.length := fun a ha => hg.lt ⟨ht, ha⟩
  -- the pending in-degree of an unsorted target covers the arcs from `top`
  have hsplit : ∀ t, t ∉ order ++ [top] → pending g order t =
      pending g (order ++ [top]) t + (g.getD top []).count t :=
    fun t _ => pending_append ht hto t
  have hdeg : ∀ t < g.length, t ∉ order ++ [top] →
      (s.al.markSorted top).inDegree.getD t 0 = pending g order t := fun t htn hton =>
    hd t htn fun h => hton (List.mem_append_left _ h)
  obtain ⟨al, new, hrun, hvl, -, hll, hdl, hnd, hmem⟩ :=
    advancedArcs_spec g (order ++ [top]) (g.getD top []) (s.al.markSorted top) s.queue hv₁ hl harcs
      (fun t htn hton => by rw [hdeg t htn hton, hsplit t hton]; push_cast; omega)
  have hvlen : al.vertices.length = g.length := by rw [hvl, hv₁, length_sortedVertices]
  let m := if (order ++ [top]).length < g.length then al.unsortedMin else s.min
  refine ⟨⟨al, rest ++ new ++ (if m > 0 then [al.findMaxNode m] else []), order ++ [top], m⟩, new,
    ?_, ⟨rfl, hvl.trans hv₁, hll.trans hl, fun t htn hton => ?_, hnd, fun t => ?_, rfl, rfl⟩⟩
  · have hhead : sliceIndex s.queue 0 = .ok top := by simp [sliceIndex, hq]
    have hfirst' : (⟨top, initArcs g top, decide (top ∈ order)⟩ : VNode).first =
        (g.getD top []).map fun vv => ⟨vv, false⟩ := rfl
    simp only [advancedStep]
    rw [hhead, except_ok_bind, hfirst, except_ok_bind, hfirst', hrun, except_ok_bind, hq]
    simp only [hvlen, m, order, List.tail_cons, List.cons_append]
    split_ifs <;> simp [pure, Except.pure]
  · dsimp only
    rw [hdl t htn hton, hdeg t htn hton, hsplit t hton]
    push_cast
    omega
  · dsimp only
    rw [hmem t]
    constructor
    · rintro ⟨htn, hton, hta, heq⟩
      rw [hdeg t htn hton, hsplit t hton] at heq
      exact ⟨htn, hton, hta, by omega⟩
    · rintro ⟨htn, hton, hta, heq⟩
      rw [hdeg t htn hton, hsplit t hton, heq]
      exact ⟨htn, hton, hta, by simp⟩

/-! ## The loop invariant -/

/-- What holds of `AdvancedTopologicalSort` on `Init g` between iterations. -/
structure AdvInv (g : List (List Nat)) (s : TopoState) : Prop where
  vertices : s.al.vertices = sortedVertices g s.topologicalOrder
  inDegree_length : s.al.inDegree.length = g.length
  inDegree : ∀ v < g.length, v ∉ s.topologicalOrder →
    s.al.inDegree.getD v 0 = pending g s.topologicalOrder v
  order_nodup : s.topologicalOrder.Nodup
  order_lt : ∀ v ∈ s.topologicalOrder, v < g.length
  queue_nodup : s.queue.Nodup
  queue_lt : ∀ q ∈ s.queue, q < g.length
  queue_unsorted : ∀ q ∈ s.queue, q ∉ s.topologicalOrder
  /-- Every unsorted vertex without pending arcs waits in the queue. -/
  sources_queued : ∀ v < g.length, v ∉ s.topologicalOrder →
    pending g s.topologicalOrder v = 0 → v ∈ s.queue
  /-- The queue holds sources only, or the one vertex `findMaxNode` picked. -/
  queue_shape : (∀ q ∈ s.queue, pending g s.topologicalOrder q = 0) ∨ ∃ q, s.queue = [q]
  /-- The minimum is not positive once at most one vertex is left. -/
  min_last : g.length ≤ s.topologicalOrder.length + 1 → s.min ≤ 0
  progress : s.queue = [] → g.length ≤ s.topologicalOrder.length

section Invariant

variable {g : List (List Nat)}

/-- With in-degrees that fit in an `int`, some unsorted vertex has the
in-degree the minimum scan returns. -/
theorem exists_unsortedMin (hfit : ∀ v, ((g.map (List.count v)).sum : Int) ≤ maxInt64)
    {al : AlGraph} {order : List Nat} (hv : al.vertices = sortedVertices g order)
    (hl : al.inDegree.length = g.length)
    (hd : ∀ v < g.length, v ∉ order → al.inDegree.getD v 0 = pending g order v)
    (hlen : order.length < g.length) :
    ∃ i < al.inDegree.length, al.sortedAt i = false ∧ al.inDegree.getD i 0 = al.unsortedMin := by
  obtain ⟨-, hall, hval⟩ := unsortedMin_spec al
  rcases hval with hmax | ⟨i, hi, hs, heq⟩
  · -- the scan kept its start, which bounds every in-degree
    obtain ⟨v, hvn, hvo⟩ := exists_not_mem_of_length_lt hlen
    have hs : al.sortedAt v = false := by simp [sortedAt_eq hv hvn, hvo]
    have hvl : v < al.inDegree.length := hl ▸ hvn
    have hup : al.inDegree.getD v 0 ≤ al.unsortedMin := by
      rw [hd v hvn hvo, hmax]
      exact le_trans (by exact_mod_cast pending_le order v) (hfit v)
    exact ⟨v, hvl, hs, le_antisymm hup (hall v hvl hs)⟩
  · exact ⟨i, hi, hs, heq.symm⟩

theorem AdvInv.length_lt {s : TopoState} (hI : AdvInv g s) {q : Nat} (hq : q ∈ s.queue) :
    s.topologicalOrder.length < g.length := by
  have hnd : (q :: s.topologicalOrder).Nodup :=
    List.nodup_cons.mpr ⟨hI.queue_unsorted q hq, hI.order_nodup⟩
  have hlt : ∀ x ∈ q :: s.topologicalOrder, x < g.length := by
    intro x hx
    rcases List.mem_cons.mp hx with rfl | hx
    · exact hI.queue_lt x hq
    · exact hI.order_lt x hx
  have := length_le_of_nodup hnd hlt
  simp only [List.length_cons] at this
  omega

/-! One iteration from a state of the invariant, whose queue is `top :: rest`. -/

variable {s s' : TopoState} {top : Nat} {rest new : List Nat}
  (hI : AdvInv g s) (hq : s.queue = top :: rest) (hS : StepResult g s s' top rest new)
include hI hq hS

omit hI hq in
theorem StepResult.order_length : s'.topologicalOrder.length = s.topologicalOrder.length + 1 := by
  rw [hS.order, List.length_append, List.length_singleton]

omit hS in
theorem AdvInv.top_unsorted : top < g.length ∧ top ∉ s.topologicalOrder := by
  have htop : top ∈ s.queue := by rw [hq]; exact List.mem_cons_self
  exact ⟨hI.queue_lt top htop, hI.queue_unsorted top htop⟩

theorem StepResult.order_spec :
    s'.topologicalOrder.Nodup ∧ ∀ v ∈ s'.topologicalOrder, v < g.length := by
  obtain ⟨htn, hto⟩ := hI.top_unsorted hq
  rw [hS.order]
  refine ⟨List.nodup_append.mpr ⟨hI.order_nodup, List.nodup_singleton top, ?_⟩, fun v hv => ?_⟩
  · intro a ha b hb hab
    rw [List.mem_singleton] at hb
    subst hb hab
    exact hto ha
  · rcases List.mem_append.mp hv with hv | hv
    · exact hI.order_lt v hv
    · rw [List.mem_singleton.mp hv]
      exact htn

/-- The queue left after `top`: unsorted vertices below `n`. -/
theorem StepResult.queued_unsorted :
    ∀ t ∈ rest ++ new, t < g.length ∧ t ∉ s'.topologicalOrder := by
  intro t ht
  rcases List.mem_append.mp ht with ht | ht
  · have htq : t ∈ s.queue := by rw [hq]; exact List.mem_cons_of_mem _ ht
    have htt : t ≠ top := by
      have hnd := hI.queue_nodup
      rw [hq] at hnd
      exact fun h => (List.nodup_cons.mp hnd).1 (h ▸ ht)
    refine ⟨hI.queue_lt t htq, ?_⟩
    rw [hS.order, List.mem_append, List.mem_singleton]
    rintro (h | h)
    · exact hI.queue_unsorted t htq h
    · exact htt h
  · obtain ⟨htn, hto, -⟩ := (hS.mem_new t).mp ht
    exact ⟨htn, hto⟩

/-- The queue left after `top` holds sources only: a source stays one, and the
freed targets are sources by construction. -/
theorem StepResult.queued_pending : ∀ t ∈ rest ++ new, pending g s'.topologicalOrder t = 0 := by
  intro t ht
  rcases List.mem_append.mp ht with ht | ht
  · rcases hI.queue_shape with hall | ⟨q, hq₁⟩
    · have h0 := hall t (by rw [hq]; exact List.mem_cons_of_mem _ ht)
      have hle : pending g (s.topologicalOrder ++ [top]) t ≤ pending g s.topologicalOrder t :=
        pending_append_le top t
      rw [hS.order]
      omega
    · rw [hq, List.cons.injEq] at hq₁
      rw [hq₁.2] at ht
      simp at ht
  · exact ((hS.mem_new t).mp ht).2.2.2

theorem StepResult.queued_nodup : (rest ++ new).Nodup := by
  have hqn : (top :: rest).Nodup := hq ▸ hI.queue_nodup
  obtain ⟨htn, hto⟩ := hI.top_unsorted hq
  refine List.nodup_append.mpr ⟨(List.nodup_cons.mp hqn).2, hS.new_nodup, ?_⟩
  intro a ha b hb hab
  subst hab
  -- a freed target had arcs from `top` pending, a queued source had none
  have hat := ((hS.mem_new a).mp hb).2.2.1
  rcases hI.queue_shape with hall | ⟨q, hq₁⟩
  · have h0 := hall a (by rw [hq]; exact List.mem_cons_of_mem _ ha)
    have hsplit := pending_append htn hto a
    have hc : 0 < (g.getD top []).count a := List.count_pos_iff.mpr hat
    omega
  · rw [hq, List.cons.injEq] at hq₁
    rw [hq₁.2] at ha
    simp at ha

/-- `findMaxNode` is only called while vertices remain and the queue is empty. -/
theorem StepResult.queued_nil_of_min_pos (hpos : 0 < s'.min) :
    rest ++ new = [] ∧ s'.topologicalOrder.length < g.length := by
  have hrec : s'.topologicalOrder.length < g.length := by
    by_contra hge
    have hmin := hS.min
    rw [if_neg hge] at hmin
    have hlen : g.length ≤ s.topologicalOrder.length + 1 := by
      rw [hS.order_length] at hge
      omega
    have := hI.min_last hlen
    omega
  refine ⟨List.eq_nil_iff_forall_not_mem.mpr fun t ht => ?_, hrec⟩
  obtain ⟨htn, hto⟩ := hS.queued_unsorted hI hq t ht
  have hs : s'.al.sortedAt t = false := by simp [sortedAt_eq hS.vertices htn, hto]
  have hmin := (unsortedMin_spec s'.al).2.1 t (by rw [hS.inDegree_length]; exact htn) hs
  rw [hS.inDegree t htn hto, hS.queued_pending hI hq t ht] at hmin
  rw [hS.min, if_pos hrec] at hpos
  omega

theorem StepResult.findMaxNode_unsorted (hfit : ∀ v, ((g.map (List.count v)).sum : Int) ≤ maxInt64)
    (hpos : 0 < s'.min) :
    s'.al.findMaxNode s'.min < g.length ∧ s'.al.findMaxNode s'.min ∉ s'.topologicalOrder := by
  have hrec := (hS.queued_nil_of_min_pos hI hq hpos).2
  have hm : s'.min = s'.al.unsortedMin := by rw [hS.min, if_pos hrec]
  have hex := exists_unsortedMin hfit hS.vertices hS.inDegree_length hS.inDegree hrec
  rw [← hm] at hex
  obtain ⟨hlt, hs, -⟩ := findMaxNode_spec s'.al hex
  rw [hS.inDegree_length] at hlt
  refine ⟨hlt, ?_⟩
  simpa [sortedAt_eq hS.vertices hlt] using hs

theorem StepResult.sources_queued : ∀ v < g.length, v ∉ s'.topologicalOrder →
    pending g s'.topologicalOrder v = 0 → v ∈ rest ++ new := by
  intro v hvn hvo h0
  obtain ⟨htn, hto⟩ := hI.top_unsorted hq
  rw [hS.order] at hvo h0
  have hvo' : v ∉ s.topologicalOrder := fun h => hvo (List.mem_append_left _ h)
  by_cases hp : pending g s.topologicalOrder v = 0
  · -- already a source: it waits behind `top`
    have hvq := hI.sources_queued v hvn hvo' hp
    rw [hq] at hvq
    rcases List.mem_cons.mp hvq with h | h
    · exact absurd (List.mem_append_right _ (List.mem_singleton.mpr h)) hvo
    · exact List.mem_append_left _ h
  · -- its last pending arcs came from `top`, so the arc loop freed it
    have hsplit := pending_append htn hto v
    have hc : 0 < (g.getD top []).count v := by omega
    refine List.mem_append_right _ ((hS.mem_new v).mpr ⟨hvn, ?_, List.count_pos_iff.mp hc, ?_⟩)
    · rw [hS.order]
      exact hvo
    · rw [hS.order]
      exact h0

omit hI hq in
/-- An unsorted vertex with nothing pending on it holds the recomputed minimum at `0`. -/
theorem StepResult.unsortedMin_nonpos {v : Nat} (hvn : v < g.length) (hvo : v ∉ s'.topologicalOrder)
    (h0 : pending g s'.topologicalOrder v = 0) : s'.al.unsortedMin ≤ 0 := by
  have hs : s'.al.sortedAt v = false := by simp [sortedAt_eq hS.vertices hvn, hvo]
  have hmin := (unsortedMin_spec s'.al).2.1 v (by rw [hS.inDegree_length]; exact hvn) hs
  rw [hS.inDegree v hvn hvo, h0] at hmin
  exact_mod_cast hmin

theorem StepResult.min_last (hloop : Loopless g) :
    g.length ≤ s'.topologicalOrder.length + 1 → s'.min ≤ 0 := by
  intro hlen
  obtain ⟨hnd, hlt⟩ := hS.order_spec hI hq
  rw [hS.min]
  split_ifs with hrec
  · -- one vertex is left, and without self-loops nothing is pending on it
    obtain ⟨v, hvn, hvo⟩ := exists_not_mem_of_length_lt hrec
    have h0 : pending g s'.topologicalOrder v = 0 := by
      rw [pending, inArcs_eq_zero_iff]
      intro u huo harc
      have hu : u = v := eq_of_not_mem_of_length hnd hlt hlen harc.1 hvn huo hvo
      subst hu
      exact hloop u harc
    exact hS.unsortedMin_nonpos hvn hvo h0
  · apply hI.min_last
    rw [hS.order_length] at hrec
    omega

theorem StepResult.progress (hfit : ∀ v, ((g.map (List.count v)).sum : Int) ≤ maxInt64) :
    s'.queue = [] → g.length ≤ s'.topologicalOrder.length := by
  intro hnil
  by_contra hrec
  push Not at hrec
  obtain ⟨i, hi, hs, heq⟩ :=
    exists_unsortedMin hfit hS.vertices hS.inDegree_length hS.inDegree hrec
  rw [hS.inDegree_length] at hi
  have hio : i ∉ s'.topologicalOrder := by simpa [sortedAt_eq hS.vertices hi] using hs
  -- an empty queue means no pick: the minimum is not positive, so `i` is a source
  have hpos : ¬ s'.min > 0 := fun hpos => by simp [hS.queue, hpos] at hnil
  have hm : s'.min = s'.al.unsortedMin := by rw [hS.min, if_pos hrec]
  have h0 : pending g s'.topologicalOrder i = 0 := by
    have := hS.inDegree i hi hio
    omega
  have hmem := hS.sources_queued hI hq i hi hio h0
  have hq' := hS.queue
  rw [hnil, if_neg hpos, List.append_nil] at hq'
  rw [← hq'] at hmem
  simp at hmem

/-- One iteration keeps the invariant. -/
theorem AdvInv.step (hloop : Loopless g)
    (hfit : ∀ v, ((g.map (List.count v)).sum : Int) ≤ maxInt64) : AdvInv g s' := by
  obtain ⟨hnd, hlt⟩ := hS.order_spec hI hq
  have hqueue : ∀ q ∈ s'.queue, q < g.length ∧ q ∉ s'.topologicalOrder := by
    intro q hmem
    rw [hS.queue] at hmem
    rcases List.mem_append.mp hmem with hmem | hmem
    · exact hS.queued_unsorted hI hq q hmem
    · split_ifs at hmem with hpos
      · rw [List.mem_singleton.mp hmem]
        exact hS.findMaxNode_unsorted hI hq hfit hpos
      · simp at hmem
  refine ⟨hS.vertices, hS.inDegree_length, hS.inDegree, hnd, hlt, ?_,
    fun q hmem => (hqueue q hmem).1, fun q hmem => (hqueue q hmem).2, fun v hvn hvo h0 => ?_, ?_,
    hS.min_last hI hq hloop, hS.progress hI hq hfit⟩
  · rw [hS.queue]
    split_ifs with hpos
    · rw [(hS.queued_nil_of_min_pos hI hq hpos).1]
      exact List.nodup_singleton _
    · rw [List.append_nil]
      exact hS.queued_nodup hI hq
  · rw [hS.queue]
    exact List.mem_append_left _ (hS.sources_queued hI hq v hvn hvo h0)
  · by_cases hpos : s'.min > 0
    · refine Or.inr ⟨s'.al.findMaxNode s'.min, ?_⟩
      rw [hS.queue, if_pos hpos, (hS.queued_nil_of_min_pos hI hq hpos).1, List.nil_append]
    · left
      rw [hS.queue, if_neg hpos, List.append_nil]
      exact hS.queued_pending hI hq

end Invariant

/-! ## Runs -/

section Run

variable {g : List (List Nat)} (hg : InRange g) (hloop : Loopless g)
  (hfit : ∀ v, ((g.map (List.count v)).sum : Int) ≤ maxInt64)

include hg in
/-- An iteration from a state of the invariant with `top` at the head of the queue. -/
theorem AdvInv.exists_step {s : TopoState} (hI : AdvInv g s) {top : Nat} {rest : List Nat}
    (hq : s.queue = top :: rest) :
    ∃ s' new, advancedStep s = .ok s' ∧ StepResult g s s' top rest new := by
  have htop : top ∈ s.queue := by rw [hq]; exact List.mem_cons_self
  exact advancedStep_spec hg hI.vertices hI.inDegree_length hI.inDegree hq
    (hI.queue_lt top htop) (hI.queue_unsorted top htop)

include hg hloop hfit in
/-- From a state of the invariant with a non-empty queue, one iteration
succeeds, keeps the invariant and sorts one more vertex. -/
theorem AdvInv.advance {s : TopoState} (hI : AdvInv g s) (hne : s.queue ≠ []) :
    ∃ s', advancedStep s = .ok s' ∧ AdvInv g s' ∧
      s'.topologicalOrder.length = s.topologicalOrder.length + 1 := by
  obtain ⟨top, rest, hq⟩ := List.exists_cons_of_ne_nil hne
  obtain ⟨s', new, hrun, hS⟩ := hI.exists_step hg hq
  exact ⟨s', hrun, hI.step hq hS hloop hfit, hS.order_length⟩

include hloop hfit in
/-- The state the loop starts from satisfies the invariant. -/
theorem advInv_start (hne : g ≠ []) : AdvInv g (advancedStart (init g)) := by
  set al := init g
  have hv : al.vertices = sortedVertices g [] := (sortedVertices_nil g).symm
  have hl : al.inDegree.length = g.length := init_inDegree_length g
  have hd : ∀ v < g.length, al.inDegree.getD v 0 = pending g [] v := fun v hvn => by
    rw [init_inDegree_getD g hvn, pending_nil]
  have hzero : ∀ v, v ∈ al.emptyInDegreeVex ↔ v < g.length ∧ pending g [] v = 0 := by
    intro v
    rw [mem_emptyInDegreeVex, hl]
    constructor
    · rintro ⟨hvn, h0⟩
      rw [hd v hvn] at h0
      exact ⟨hvn, by exact_mod_cast h0⟩
    · rintro ⟨hvn, h0⟩
      exact ⟨hvn, by rw [hd v hvn, h0]; rfl⟩
  obtain ⟨-, hmle, hmval⟩ := foldl_minValue_spec al.inDegree maxInt64
  set m := al.inDegree.foldl (fun m v => if v < m then v else m) maxInt64 with hm
  have hle : ∀ v < g.length, m ≤ al.inDegree.getD v 0 := fun v hvn => by
    apply hmle
    rw [List.getD_eq_getElem _ _ (by rw [hl]; exact hvn)]
    exact List.getElem_mem _
  have h0 : 0 < g.length := List.length_pos_iff.mpr hne
  -- with one vertex and no self-loops, that vertex is a source
  have hmin_last : g.length ≤ 0 + 1 → m ≤ 0 := by
    intro h1
    have hp : pending g [] 0 = 0 := by
      rw [pending, inArcs_eq_zero_iff]
      intro u _ harc
      obtain rfl : u = 0 := by have := harc.1; omega
      exact hloop 0 harc
    have := hle 0 h0
    rw [hd 0 h0, hp] at this
    exact_mod_cast this
  by_cases hemp : al.emptyInDegreeVex = []
  · -- no source: the queue starts with the pick of `findMaxNode`
    have hq : (advancedStart al).queue = [al.findMaxNode m] := by
      simp [advancedStart, hemp, hm]
    have hex : ∃ i < al.inDegree.length, al.sortedAt i = false ∧ al.inDegree.getD i 0 = m := by
      have hs : ∀ i < g.length, al.sortedAt i = false := fun i hi => by simp [sortedAt_eq hv hi]
      rcases hmval with hmax | hmem
      · -- the scan kept its start, which bounds every in-degree
        refine ⟨0, by rw [hl]; exact h0, hs 0 h0, le_antisymm ?_ (hle 0 h0)⟩
        rw [hd 0 h0, hmax]
        exact le_trans (by exact_mod_cast pending_le [] 0) (hfit 0)
      · obtain ⟨i, hi, hget⟩ := List.mem_iff_getElem.mp hmem
        exact ⟨i, hi, hs i (by rw [← hl]; exact hi), by rw [List.getD_eq_getElem _ _ hi, hget]⟩
    obtain ⟨hlt, -, -⟩ := findMaxNode_spec al hex
    rw [hl] at hlt
    exact {
      vertices := hv
      inDegree_length := hl
      inDegree := fun v hvn _ => hd v hvn
      order_nodup := List.nodup_nil
      order_lt := by simp [advancedStart]
      queue_nodup := by rw [hq]; exact List.nodup_singleton _
      queue_lt := by rw [hq]; simpa using hlt
      queue_unsorted := by simp [advancedStart]
      sources_queued := fun v hvn _ hp => by
        have := (hzero v).mpr ⟨hvn, hp⟩
        rw [hemp] at this
        simp at this
      queue_shape := Or.inr ⟨_, hq⟩
      min_last := hmin_last
      progress := by rw [hq]; simp }
  · have hq : (advancedStart al).queue = al.emptyInDegreeVex := by simp [advancedStart, hemp]
    exact {
      vertices := hv
      inDegree_length := hl
      inDegree := fun v hvn _ => hd v hvn
      order_nodup := List.nodup_nil
      order_lt := by simp [advancedStart]
      queue_nodup := by rw [hq]; exact nodup_emptyInDegreeVex al
      queue_lt := fun q hmem => ((hzero q).mp (by rw [← hq]; exact hmem)).1
      queue_unsorted := by simp [advancedStart]
      sources_queued := fun v hvn _ hp => by rw [hq]; exact (hzero v).mpr ⟨hvn, hp⟩
      queue_shape := Or.inl fun q hmem => ((hzero q).mp (by rw [← hq]; exact hmem)).2
      min_last := hmin_last
      progress := fun h => absurd (by rw [← hq]; exact h) hemp }

end Run

/-- A run that keeps an invariant contained in `AdvInv` and sorts one vertex
per iteration ends, within one iteration per vertex, with every vertex listed
exactly once. -/
theorem advancedTopologicalSort_of_inv {g : List (List Nat)} (Inv : TopoState → Prop)
    (hInv : ∀ s, Inv s → AdvInv g s) (hstart : Inv (advancedStart (init g)))
    (hstep : ∀ s, Inv s → s.queue ≠ [] → ∃ s', advancedStep s = .ok s' ∧ Inv s' ∧
      s'.topologicalOrder.length = s.topologicalOrder.length + 1) :
    ∃ r, Inv r ∧ r.topologicalOrder.Perm (List.range g.length) ∧
      ∀ fuel, g.length ≤ fuel → (init g).advancedTopologicalSort fuel = .ok r.topologicalOrder := by
  -- the variant: the vertices not yet sorted
  have hrun : ∀ s, Inv s → (!s.queue.isEmpty) = true →
      ∃ s', advancedStep s = .ok s' ∧ Inv s' ∧
        g.length - s'.topologicalOrder.length < g.length - s.topologicalOrder.length := by
    intro s hs hc
    have hne : s.queue ≠ [] := by simpa using hc
    obtain ⟨top, rest, hq⟩ := List.exists_cons_of_ne_nil hne
    have hlt := (hInv s hs).length_lt (q := top) (by rw [hq]; exact List.mem_cons_self)
    obtain ⟨s', hs', hinv', hlen⟩ := hstep s hs hne
    exact ⟨s', hs', hinv', by omega⟩
  obtain ⟨r, hr, hinv, hc⟩ := whileM.invariant Inv
    (fun s => g.length - s.topologicalOrder.length) hrun g.length _ hstart (by simp [advancedStart])
  have hI := hInv r hinv
  have hlen := hI.progress (by simpa using hc)
  refine ⟨r, hinv, ?_, fun fuel hfuel => ?_⟩
  · rw [List.perm_ext_iff_of_nodup hI.order_nodup List.nodup_range]
    intro v
    rw [List.mem_range]
    exact ⟨hI.order_lt v, fun hv => mem_of_nodup_of_length hI.order_nodup hI.order_lt hlen hv⟩
  · simp [advancedTopologicalSort, whileM.mono hr hfuel]

/-- A sort that finishes finishes with the same order given more iterations. -/
theorem advancedTopologicalSort_mono {al : AlGraph} {fuel : Nat} {order : List Nat}
    (h : al.advancedTopologicalSort fuel = .ok order) {fuel' : Nat} (hle : fuel ≤ fuel') :
    al.advancedTopologicalSort fuel' = .ok order := by
  unfold advancedTopologicalSort at h ⊢
  cases hw : whileM (fun s => !s.queue.isEmpty) advancedStep fuel (advancedStart al) with
  | error e => simp [hw] at h
  | ok s => rw [whileM.mono hw hle]; simpa [hw] using h

/-- `AdvancedTopologicalSort` on `Init g` returns every vertex exactly once,
within one iteration per vertex, whatever cycles `g` has. -/
theorem advancedTopologicalSort_perm {g : List (List Nat)} (hg : InRange g) (hloop : Loopless g)
    (hfit : ∀ v, ((g.map (List.count v)).sum : Int) ≤ maxInt64) (hne : g ≠ []) :
    ∃ order, order.Perm (List.range g.length) ∧
      ∀ fuel, g.length ≤ fuel → (init g).advancedTopologicalSort fuel = .ok order := by
  obtain ⟨r, -, hperm, hrun⟩ := advancedTopologicalSort_of_inv (AdvInv g) (fun _ h => h)
    (advInv_start hloop hfit hne) (fun _ hs hq => hs.advance hg hloop hfit hq)
  exact ⟨r.topologicalOrder, hperm, hrun⟩

/-! ## Acyclic graphs -/

/-- On an acyclic graph the queue only ever holds sources, and the order is topological. -/
structure AcycInv (g : List (List Nat)) (s : TopoState) : Prop extends AdvInv g s where
  queue_sources : ∀ q ∈ s.queue, pending g s.topologicalOrder q = 0
  topological : IsTopological (Arc g) s.topologicalOrder

section Acyclic

variable {g : List (List Nat)} (hacyc : Acyclic (Arc g))
include hacyc

theorem loopless_of_acyclic : Loopless g := fun u h => hacyc u (Relation.TransGen.single h)

/-- An acyclic graph has a source among the vertices left unsorted. -/
theorem exists_pending_zero {order : List Nat} (hlen : order.length < g.length) :
    ∃ v < g.length, v ∉ order ∧ pending g order v = 0 := by
  have hfin : {v | v < g.length ∧ v ∉ order}.Finite :=
    (Set.finite_lt_nat g.length).subset fun v hv => hv.1
  obtain ⟨u, hun, huo⟩ := exists_not_mem_of_length_lt hlen
  obtain ⟨v, ⟨hvn, hvo⟩, hsrc⟩ := hacyc.exists_source hfin ⟨u, hun, huo⟩
  refine ⟨v, hvn, hvo, ?_⟩
  rw [pending, inArcs_eq_zero_iff]
  intro w hwo harc
  exact hsrc w ⟨harc.1, hwo⟩ harc

/-- On an acyclic graph the stored minimum is never positive: `findMaxNode` is never called. -/
theorem StepResult.min_nonpos {s s' : TopoState} {top : Nat} {rest new : List Nat}
    (hI : AdvInv g s) (hS : StepResult g s s' top rest new) : s'.min ≤ 0 := by
  rw [hS.min]
  split_ifs with hrec
  · obtain ⟨v, hvn, hvo, h0⟩ := exists_pending_zero hacyc hrec
    exact hS.unsortedMin_nonpos hvn hvo h0
  · apply hI.min_last
    rw [hS.order_length] at hrec
    omega

theorem AcycInv.step (hfit : ∀ v, ((g.map (List.count v)).sum : Int) ≤ maxInt64)
    {s s' : TopoState} {top : Nat} {rest new : List Nat} (hI : AcycInv g s)
    (hq : s.queue = top :: rest) (hS : StepResult g s s' top rest new) : AcycInv g s' := by
  have hpos : ¬ s'.min > 0 := not_lt.mpr (hS.min_nonpos hacyc hI.toAdvInv)
  refine ⟨hI.toAdvInv.step hq hS (loopless_of_acyclic hacyc) hfit, ?_, ?_⟩
  · rw [hS.queue, if_neg hpos, List.append_nil]
    exact hS.queued_pending hI.toAdvInv hq
  · -- `top` was a source: every predecessor of it is sorted already
    have h0 := hI.queue_sources top (by rw [hq]; exact List.mem_cons_self)
    rw [pending, inArcs_eq_zero_iff] at h0
    rw [hS.order]
    refine hI.topological.append_singleton fun a harc => ?_
    by_contra hao
    exact h0 a hao harc

theorem acycInv_start (hfit : ∀ v, ((g.map (List.count v)).sum : Int) ≤ maxInt64)
    (hne : g ≠ []) : AcycInv g (advancedStart (init g)) := by
  have hI := advInv_start (loopless_of_acyclic hacyc) hfit hne
  have hlen : ([] : List Nat).length < g.length := List.length_pos_iff.mpr hne
  -- a source exists, so the queue starts with the vertices of in-degree zero
  obtain ⟨v, hvn, -, hv0⟩ := exists_pending_zero hacyc hlen
  have hmem : v ∈ (init g).emptyInDegreeVex := by
    rw [mem_emptyInDegreeVex, init_inDegree_length, init_inDegree_getD g hvn, ← pending_nil, hv0]
    exact ⟨hvn, rfl⟩
  have hq : (advancedStart (init g)).queue = (init g).emptyInDegreeVex := by
    simp [advancedStart, List.ne_nil_of_mem hmem]
  refine ⟨hI, fun q hmq => ?_, IsTopological.nil⟩
  rw [hq, mem_emptyInDegreeVex, init_inDegree_length] at hmq
  obtain ⟨hqn, hq0⟩ := hmq
  rw [init_inDegree_getD g hqn, ← pending_nil] at hq0
  exact_mod_cast hq0

theorem AcycInv.advance (hg : InRange g)
    (hfit : ∀ v, ((g.map (List.count v)).sum : Int) ≤ maxInt64) {s : TopoState}
    (hI : AcycInv g s) (hne : s.queue ≠ []) :
    ∃ s', advancedStep s = .ok s' ∧ AcycInv g s' ∧
      s'.topologicalOrder.length = s.topologicalOrder.length + 1 := by
  obtain ⟨top, rest, hq⟩ := List.exists_cons_of_ne_nil hne
  obtain ⟨s', new, hrun, hS⟩ := hI.toAdvInv.exists_step hg hq
  exact ⟨s', hrun, hI.step hacyc hfit hq hS, hS.order_length⟩

/-- On an acyclic graph, `AdvancedTopologicalSort` on `Init g` returns a
topological order of all vertices: Kahn's algorithm, without a `findMaxNode`
pick. -/
theorem advancedTopologicalSort_topological (hg : InRange g)
    (hfit : ∀ v, ((g.map (List.count v)).sum : Int) ≤ maxInt64) (hne : g ≠ []) :
    ∃ order, order.Perm (List.range g.length) ∧ IsTopological (Arc g) order ∧
      ∀ fuel, g.length ≤ fuel → (init g).advancedTopologicalSort fuel = .ok order := by
  obtain ⟨r, hr, hperm, hrun⟩ := advancedTopologicalSort_of_inv (AcycInv g) (fun _ h => h.toAdvInv)
    (acycInv_start hacyc hfit hne) (fun _ hs hq => hs.advance hacyc hg hfit hq)
  exact ⟨r.topologicalOrder, hperm, hr.topological, hrun⟩

end Acyclic

/-! ## Cyclic graphs -/

/-- `u = 0 ↔ w = 1`, `u → v = 2` and `v → 3, 4, 5`: the components are `{0, 1}`
and four single vertices, and the arc `0 → 2` joins two of them. -/
def crossedCycle : List (List Nat) := [[1, 2], [0], [3, 4, 5], [], [], []]

/-- Every vertex of `crossedCycle` has in-degree one, so `findMaxNode` picks the
one of most out-degree: `v = 2`, below the cycle `0 ↔ 1` and not on it. The
order then lists `v` before `u = 0`, against the arc `0 → 2` between two
components. -/
theorem advancedTopologicalSort_crosses_components :
    Loopless crossedCycle ∧ Arc crossedCycle 0 2 ∧ ¬ SameComponent (Arc crossedCycle) 0 2 ∧
      ∀ fuel, crossedCycle.length ≤ fuel →
        (init crossedCycle).advancedTopologicalSort fuel = .ok [2, 3, 4, 5, 0, 1] := by
  -- nothing reachable from `2` lies below it
  have hbelow : ∀ a < crossedCycle.length, 2 ≤ a → ∀ b ∈ crossedCycle.getD a [], 2 ≤ b := by decide
  have hclosed : ∀ a b, a ∈ {v | 2 ≤ v} → Arc crossedCycle a b → b ∈ {v | 2 ≤ v} :=
    fun a b ha hab => hbelow a hab.1 ha b hab.2
  have hloop : ∀ u < crossedCycle.length, u ∉ crossedCycle.getD u [] := by decide
  refine ⟨fun u hu => hloop u hu.1 hu.2, ⟨by decide, by decide⟩, fun hsame => ?_, fun fuel hfuel => ?_⟩
  · exact absurd (mem_of_reflTransGen hclosed (show 2 ∈ {v | 2 ≤ v} from Nat.le_refl 2) hsame.2) (by simp)
  · have h6 : (init crossedCycle).advancedTopologicalSort 6 = .ok [2, 3, 4, 5, 0, 1] := by decide
    exact advancedTopologicalSort_mono h6 hfuel

/-- An iteration on a single vertex with a loop, from before or after it is
first sorted: the vertex is sorted before its arc is read, so the arc is
skipped, and with no vertex left unsorted `findMaxNode` falls back to `0`. -/
theorem advancedStep_selfLoop {al : AlGraph} (hal : al = init [[0]] ∨ al = (init [[0]]).markSorted 0)
    (order : List Nat) :
    advancedStep ⟨al, [0], order, 1⟩ = .ok ⟨(init [[0]]).markSorted 0, [0], order ++ [0], 1⟩ := by
  have harcs : ∀ al' : AlGraph, al' = init [[0]] ∨ al' = (init [[0]]).markSorted 0 →
      ∃ v, sliceIndex al'.vertices 0 = .ok v ∧
        (al'.markSorted 0).advancedArcs v.first [0] = .ok ((init [[0]]).markSorted 0, [0]) := by
    rintro al' (rfl | rfl) <;> exact ⟨_, rfl, by decide⟩
  obtain ⟨v, hv, ha⟩ := harcs al hal
  have hlen : ¬ (order ++ [0]).length < ((init [[0]]).markSorted 0).vertices.length := by simp [markSorted, init]
  have hmax : ((init [[0]]).markSorted 0).findMaxNode 1 = 0 := by decide
  unfold advancedStep
  rw [show sliceIndex [0] 0 = .ok 0 from rfl, except_ok_bind, hv, except_ok_bind, ha, except_ok_bind]
  simp only [hlen, if_false, hmax]
  rfl

/-- On a single vertex with a loop, `AdvancedTopologicalSort` never returns:
its queue holds the vertex again after every iteration. -/
theorem advancedTopologicalSort_selfLoop (fuel : Nat) :
    (init [[0]]).advancedTopologicalSort fuel = .error .outOfFuel := by
  have hspin := @whileM.outOfFuel_of_invariant TopoState (fun s => !s.queue.isEmpty) advancedStep
    (fun s => s.queue = [0] ∧ s.min = 1 ∧ (s.al = init [[0]] ∨ s.al = (init [[0]]).markSorted 0))
    (fun s hs => by rw [hs.1]; rfl)
    (fun ⟨al, queue, order, min⟩ ⟨hq, hm, hal⟩ => by
      dsimp only at hq hm hal
      subst hq hm
      exact ⟨_, advancedStep_selfLoop hal order, rfl, rfl, Or.inr rfl⟩) fuel (advancedStart (init [[0]]))
    ⟨by decide, by decide, Or.inl rfl⟩
  unfold advancedTopologicalSort
  rw [hspin]
  rfl

end AlGraph

end Nezha
