import Nezha.Models.ClassicalGraph.AlGraph
import Nezha.Core.Digraph

/-!
# `RebuildGraph` and `BasicTopologicalSort` (`core/classical_graph.go`)

The conflict-graph baseline of `TestConflictGraph` drops the transactions that
Johnson's cycle breaking marked invalid, then commits in the order
`BasicTopologicalSort` returns. `RebuildGraph` removes the arcs at an aborted
vertex in two different ways: an arc out of one is subtracted from its
target's in-degree, an arc into one is marked. The aborted vertices stay in
the graph.

`BasicTopologicalSort` always terminates: a vertex is enqueued when its
in-degree reaches zero, which happens at most once, so the vertices enqueued
so far are distinct (`Enqueued`). Its first vertices are all those of
in-degree zero. So an aborted vertex whose predecessors are all aborted reaches
in-degree zero in `RebuildGraph`, and the baseline commits it.
-/

namespace Nezha

namespace AlGraph

open Digraph

/-- The arc list `Init` builds for vertex `i`. -/
def initArcs (g : List (List Nat)) (i : Nat) : List ArcNode := (g.getD i []).map fun vv => ⟨vv, false⟩

@[simp] theorem map_adj_initArcs (g : List (List Nat)) (i : Nat) :
    (initArcs g i).map (·.adj) = g.getD i [] := by
  simp [initArcs, Function.comp_def]

@[simp] theorem map_adj_markAbortedArcs (abortedTx : List Nat) (arcs : List ArcNode) :
    (markAbortedArcs abortedTx arcs).map (·.adj) = arcs.map (·.adj) := by
  induction arcs with
  | nil => rfl
  | cons a rest ih =>
    simp only [markAbortedArcs, List.map_cons] at ih ⊢
    split <;> simp [ih]

theorem init_vertices (g : List (List Nat)) :
    (init g).vertices = (List.range g.length).map fun i => ⟨i, initArcs g i, false⟩ := rfl

/-! ## `RebuildGraph` on a fresh graph -/

/-- `RebuildGraph` on `Init g` after its first `k` vertices: the arcs of the
surviving vertices among them are marked where they enter an aborted vertex,
and the in-degrees no longer count the arcs out of the aborted ones. -/
structure RebuildStage (g : List (List Nat)) (abortedTx : List Nat) (k : Nat) (al : AlGraph) :
    Prop where
  vertices : al.vertices = (List.range g.length).map fun i =>
    ⟨i, if i < k ∧ i ∉ abortedTx then markAbortedArcs abortedTx (initArcs g i) else initArcs g i,
      false⟩
  outDegree : al.outDegree = g.map List.length
  inDegree_length : al.inDegree.length = g.length
  inDegree : ∀ v < g.length, al.inDegree.getD v 0 = inArcs g (fun u => u ∉ abortedTx ∨ k ≤ u) v

theorem rebuildStage_zero (g : List (List Nat)) (abortedTx : List Nat) :
    RebuildStage g abortedTx 0 (init g) where
  vertices := by simp [init_vertices]
  outDegree := rfl
  inDegree_length := init_inDegree_length g
  inDegree v hv := by
    rw [init_inDegree_getD g hv, inArcs_congr (q := fun _ => True) (fun u _ => by simp), inArcs_true]

/-- `dropTargets` subtracts one from the in-degree of the target of every arc. -/
theorem dropTargets_spec : ∀ (arcs : List ArcNode) (al : AlGraph),
    (∀ a ∈ arcs, a.adj < al.inDegree.length) →
    ∃ al', al.dropTargets arcs = .ok al' ∧ al'.vertices = al.vertices ∧
      al'.outDegree = al.outDegree ∧ al'.inDegree.length = al.inDegree.length ∧
      ∀ v, al'.inDegree.getD v 0 = al.inDegree.getD v 0 - ((arcs.map (·.adj)).count v : Int)
  | [], al, _ => ⟨al, rfl, rfl, rfl, rfl, fun v => by simp⟩
  | farc :: rest, al, h => by
    have hlt : farc.adj < al.inDegree.length := h farc List.mem_cons_self
    let al₁ : AlGraph :=
      { al with inDegree := al.inDegree.set farc.adj (al.inDegree.getD farc.adj 0 - 1) }
    obtain ⟨al', hrun, hv, ho, hl, hd⟩ := dropTargets_spec rest al₁
      (fun a ha => by simpa [al₁] using h a (List.mem_cons_of_mem _ ha))
    refine ⟨al', ?_, hv, ho, by simpa [al₁] using hl, fun v => ?_⟩
    · simp only [dropTargets, decInDegree_eq hlt, except_ok_bind]
      exact hrun
    · rw [hd v, getD_set_int _ hlt]
      by_cases hv : v = farc.adj
      · subst hv
        simp only [if_true, List.map_cons, List.count_cons_self]
        push_cast
        omega
      · simp [hv, Ne.symm hv]

/-- The vertex list after one more vertex: only the entry of `k` can change. -/
private theorem stage_vertices_succ (g : List (List Nat)) (abortedTx : List Nat) (k : Nat)
    (hk : k ∈ abortedTx) :
    ((List.range g.length).map fun i => (⟨i, if i < k ∧ i ∉ abortedTx then
        markAbortedArcs abortedTx (initArcs g i) else initArcs g i, false⟩ : VNode)) =
      (List.range g.length).map fun i => ⟨i, if i < k + 1 ∧ i ∉ abortedTx then
        markAbortedArcs abortedTx (initArcs g i) else initArcs g i, false⟩ := by
  apply List.map_congr_left
  intro i _
  by_cases hi : i = k
  · subst hi
    simp [hk]
  · have : i < k + 1 ↔ i < k := by omega
    simp [this]

/-- One pass of `RebuildGraph`'s loop extends the stage by one vertex. -/
theorem RebuildStage.step {g : List (List Nat)} {abortedTx : List Nat} {k : Nat} {al : AlGraph}
    (hst : RebuildStage g abortedTx k al) (hg : InRange g) (hk : k < g.length) :
    ∃ al', rebuildVertex abortedTx al k = .ok al' ∧ RebuildStage g abortedTx (k + 1) al' := by
  have hvk : al.vertices[k]? = some ⟨k, initArcs g k, false⟩ := by
    simp [hst.vertices, List.getElem?_range hk]
  have hdeg : ∀ v < g.length, inArcs g (fun u => u ∉ abortedTx ∨ k ≤ u) v =
      (if k ∈ abortedTx then (g.getD k []).count v else 0) +
        inArcs g (fun u => u ∉ abortedTx ∨ k + 1 ≤ u) v := by
    intro v _
    split
    · rename_i hin
      rw [inArcs_erase hk (Or.inr le_rfl), Nat.add_comm]
      congr 1
      apply inArcs_congr
      intro u _
      by_cases hu : u = k
      · subst hu
        simp [hin]
      · have : k + 1 ≤ u ↔ k ≤ u := by omega
        simp [hu, this]
    · rename_i hin
      rw [Nat.zero_add]
      apply inArcs_congr
      intro u _
      by_cases hu : u = k
      · subst hu
        simp [hin]
      · have : k + 1 ≤ u ↔ k ≤ u := by omega
        simp [this]
  by_cases hin : k ∈ abortedTx
  · -- an aborted vertex: its targets lose one in-degree per arc
    have htargets : ∀ a ∈ initArcs g k, a.adj < al.inDegree.length := by
      intro a ha
      have hmem : a.adj ∈ (initArcs g k).map (·.adj) := List.mem_map_of_mem ha
      rw [map_adj_initArcs, hst.inDegree_length] at *
      exact hg.lt ⟨hk, hmem⟩
    obtain ⟨al', hrun, hv, ho, hl, hd⟩ := dropTargets_spec (initArcs g k) al htargets
    refine ⟨al', ?_, ⟨?_, ho.trans hst.outDegree, hl.trans hst.inDegree_length, fun v hv' => ?_⟩⟩
    · simp only [rebuildVertex, hvk, isExistForInt, List.contains_iff_mem.mpr hin, if_true]
      exact hrun
    · rw [hv, hst.vertices]
      exact stage_vertices_succ g abortedTx k hin
    · rw [hd v, hst.inDegree v hv', hdeg v hv', if_pos hin, map_adj_initArcs]
      push_cast
      omega
  · -- a surviving vertex: its arcs into aborted vertices are marked
    refine ⟨{ al with
        vertices := al.vertices.set k ⟨k, markAbortedArcs abortedTx (initArcs g k), false⟩ }, ?_,
      ⟨?_, hst.outDegree, hst.inDegree_length, fun v hv' => ?_⟩⟩
    · simp only [rebuildVertex, hvk]
      rw [if_neg (by simpa [isExistForInt] using hin)]
      rfl
    · simp only [hst.vertices]
      apply List.ext_getElem?
      intro i
      simp only [List.getElem?_set, List.length_map, List.length_range, List.getElem?_map]
      by_cases hi : i < g.length
      · rw [List.getElem?_range hi]
        by_cases hik : k = i
        · subst hik
          simp [hk, hin]
        · have h₁ : (i < k + 1 ∧ i ∉ abortedTx) ↔ (i < k ∧ i ∉ abortedTx) :=
            and_congr_left fun _ => by omega
          simp only [hik, if_false, Option.map_some, h₁]
      · rw [List.getElem?_eq_none (by simp; omega)]
        simp [show k ≠ i by omega]
    · rw [hst.inDegree v hv', hdeg v hv', if_neg hin, Nat.zero_add]

/-- `RebuildGraph` on `Init g` visits every vertex and never panics. -/
theorem rebuildGraph_init {g : List (List Nat)} (hg : InRange g) (abortedTx : List Nat) :
    ∃ al, (init g).rebuildGraph abortedTx = .ok al ∧ RebuildStage g abortedTx g.length al := by
  have hrun : ∀ k ≤ g.length, ∃ al,
      (List.range k).foldlM (rebuildVertex abortedTx) (init g) = .ok al ∧
        RebuildStage g abortedTx k al := by
    intro k
    induction k with
    | zero => exact fun _ => ⟨init g, rfl, rebuildStage_zero g abortedTx⟩
    | succ k ih =>
      intro hk
      obtain ⟨al, hal, hst⟩ := ih (by omega)
      obtain ⟨al', hal', hst'⟩ := hst.step hg (by omega)
      refine ⟨al', ?_, hst'⟩
      rw [List.range_succ, List.foldlM_append, hal, except_ok_bind]
      simpa using hal'
  simpa [rebuildGraph] using hrun g.length le_rfl

/-! ## `BasicTopologicalSort` -/

/-- The vertices `BasicTopologicalSort` has enqueued so far: distinct, and
exactly those whose in-degree has dropped to zero or below. -/
structure Enqueued (al : AlGraph) (pushed : List Nat) : Prop where
  nodup : pushed.Nodup
  lt : ∀ x ∈ pushed, x < al.inDegree.length
  mem_iff : ∀ v < al.inDegree.length, v ∈ pushed ↔ al.inDegree.getD v 0 ≤ 0

/-- `al.inDegree[t]--` and the enqueueing that follows it: `t` is enqueued
exactly when its in-degree passes from one to zero. -/
theorem Enqueued.dec {al : AlGraph} {pushed : List Nat} (h : Enqueued al pushed) {t : Nat}
    (ht : t < al.inDegree.length) :
    Enqueued { al with inDegree := al.inDegree.set t (al.inDegree.getD t 0 - 1) }
      (if al.inDegree.getD t 0 - 1 = 0 then pushed ++ [t] else pushed) := by
  have hdeg : ∀ v, (al.inDegree.set t (al.inDegree.getD t 0 - 1)).getD v 0 =
      if v = t then al.inDegree.getD t 0 - 1 else al.inDegree.getD v 0 :=
    getD_set_int _ ht _
  split
  · rename_i hz
    have hnot : t ∉ pushed := fun hm => by
      have := (h.mem_iff t ht).mp hm
      omega
    refine ⟨List.nodup_append.mpr ⟨h.nodup, List.nodup_singleton t, ?_⟩, ?_, ?_⟩
    · intro a ha b hb
      rw [List.mem_singleton.mp hb]
      exact fun hat => hnot (hat ▸ ha)
    · intro x hx
      rcases List.mem_append.mp hx with hx | hx
      · simpa using h.lt x hx
      · simpa [List.mem_singleton.mp hx] using ht
    · intro v hv
      simp only [List.length_set] at hv
      rw [hdeg v, List.mem_append, List.mem_singleton]
      by_cases hvt : v = t
      · rw [if_pos hvt, hz]
        exact ⟨fun _ => le_refl 0, fun _ => Or.inr hvt⟩
      · simp only [hvt, if_false, or_false]
        exact h.mem_iff v hv
  · rename_i hz
    refine ⟨h.nodup, fun x hx => by simpa using h.lt x hx, fun v hv => ?_⟩
    simp only [List.length_set] at hv
    rw [hdeg v]
    by_cases hvt : v = t
    · subst hvt
      rw [if_pos rfl, h.mem_iff v hv]
      omega
    · rw [if_neg hvt]
      exact h.mem_iff v hv

/-- The arc loop of `BasicTopologicalSort` only appends to the queue and keeps
the enqueued vertices distinct. -/
theorem basicArcs_spec (order : List Nat) : ∀ (arcs : List ArcNode) (al : AlGraph) (queue : List Nat),
    (∀ a ∈ arcs, a.adj < al.inDegree.length) → Enqueued al (order ++ queue) →
    ∃ al' queue', basicArcs al arcs queue = .ok (al', queue') ∧ al'.vertices = al.vertices ∧
      al'.inDegree.length = al.inDegree.length ∧ Enqueued al' (order ++ queue') ∧
      queue <+: queue'
  | [], al, queue, _, h => ⟨al, queue, rfl, rfl, rfl, h, List.prefix_refl queue⟩
  | farc :: rest, al, queue, harcs, h => by
    have hrest : ∀ a ∈ rest, a.adj < al.inDegree.length :=
      fun a ha => harcs a (List.mem_cons_of_mem _ ha)
    by_cases hab : farc.isAborted = true
    · obtain ⟨al', queue', hrun, hv, hl, he, hp⟩ := basicArcs_spec order rest al queue hrest h
      exact ⟨al', queue', by simpa [basicArcs, hab] using hrun, hv, hl, he, hp⟩
    · have hlt : farc.adj < al.inDegree.length := harcs farc List.mem_cons_self
      let al₁ : AlGraph :=
        { al with inDegree := al.inDegree.set farc.adj (al.inDegree.getD farc.adj 0 - 1) }
      have hget : al₁.inDegree.getD farc.adj 0 = al.inDegree.getD farc.adj 0 - 1 := by
        show (al.inDegree.set farc.adj _).getD farc.adj 0 = _
        rw [getD_set_int _ hlt, if_pos rfl]
      let queue₁ := if al₁.inDegree.getD farc.adj 0 = 0 then queue ++ [farc.adj] else queue
      have he₁ : Enqueued al₁ (order ++ queue₁) := by
        have hdec := h.dec hlt
        by_cases hz : al.inDegree.getD farc.adj 0 - 1 = 0
        · have hq : queue₁ = queue ++ [farc.adj] := by simp only [queue₁, hget, if_pos hz]
          rw [hq, ← List.append_assoc]
          rw [if_pos hz] at hdec
          exact hdec
        · have hq : queue₁ = queue := by simp only [queue₁, hget, if_neg hz]
          rw [hq]
          rw [if_neg hz] at hdec
          exact hdec
      obtain ⟨al', queue', hrun, hv, hl, he, hp⟩ :=
        basicArcs_spec order rest al₁ queue₁ (fun a ha => by simpa [al₁] using hrest a ha) he₁
      refine ⟨al', queue', ?_, hv, by simpa [al₁] using hl, he, ?_⟩
      · simp only [basicArcs, hab, Bool.false_eq_true, if_false, decInDegree_eq hlt, except_ok_bind]
        exact hrun
      · refine List.IsPrefix.trans ?_ hp
        simp only [queue₁]
        split
        · exact List.prefix_append queue [farc.adj]
        · exact List.prefix_refl queue

/-- The loop invariant of `BasicTopologicalSort` started on `al₀`. -/
structure BasicInv (al₀ : AlGraph) (s : TopoState) : Prop where
  vertices : s.al.vertices = al₀.vertices
  inDegree_length : s.al.inDegree.length = al₀.inDegree.length
  enqueued : Enqueued s.al (s.topologicalOrder ++ s.queue)
  start : al₀.emptyInDegreeVex <+: s.topologicalOrder ++ s.queue

section Run

variable {al₀ : AlGraph} (hvl : al₀.vertices.length = al₀.inDegree.length)
  (harcs : ∀ v ∈ al₀.vertices, ∀ a ∈ v.first, a.adj < al₀.inDegree.length)

include hvl harcs in
/-- One iteration moves the queue's head to the order and appends to the queue. -/
theorem basicStep_inv {s : TopoState} (hs : BasicInv al₀ s) (hq : s.queue ≠ []) :
    ∃ s', basicStep s = .ok s' ∧ BasicInv al₀ s' ∧
      s'.topologicalOrder.length = s.topologicalOrder.length + 1 := by
  obtain ⟨top, rest, hqr⟩ := List.exists_cons_of_ne_nil hq
  have htop : top < al₀.inDegree.length := by
    rw [← hs.inDegree_length]
    exact hs.enqueued.lt top (by simp [hqr])
  have htopv : top < s.al.vertices.length := by rw [hs.vertices, hvl]; exact htop
  have hva : ∀ a ∈ s.al.vertices[top].first, a.adj < s.al.inDegree.length := by
    intro a ha
    rw [hs.inDegree_length]
    exact harcs _ (hs.vertices ▸ List.getElem_mem htopv) a ha
  obtain ⟨al', queue', hrun, hv, hl, he, hp⟩ :=
    basicArcs_spec s.topologicalOrder _ s.al s.queue hva hs.enqueued
  obtain ⟨new, rfl⟩ := hp
  have hrun' := hrun
  rw [hqr] at hrun'
  refine ⟨⟨al', (s.queue ++ new).tail, s.topologicalOrder ++ [top], s.min⟩, ?_, ⟨?_, ?_, ?_, ?_⟩, ?_⟩
  · simp [basicStep, hqr, sliceIndex, List.getElem?_eq_getElem htopv, hrun']
  · exact hv.trans hs.vertices
  · exact hl.trans hs.inDegree_length
  · simpa [hqr] using he
  · refine hs.start.trans ?_
    simp [hqr]
  · simp

include hvl harcs in
/-- `BasicTopologicalSort` returns after at most one iteration per vertex, with
distinct vertices, starting with every vertex of in-degree zero. -/
theorem basicTopologicalSort_spec
    (hnn : ∀ v < al₀.inDegree.length, 0 ≤ al₀.inDegree.getD v 0) :
    ∃ order, al₀.basicTopologicalSort al₀.inDegree.length = .ok order ∧ order.Nodup ∧
      (∀ x ∈ order, x < al₀.inDegree.length) ∧ al₀.emptyInDegreeVex <+: order := by
  have hstart : BasicInv al₀ ⟨al₀, al₀.emptyInDegreeVex, [], 0⟩ := by
    refine ⟨rfl, rfl, ⟨?_, ?_, ?_⟩, by simp⟩
    · exact List.nodup_range.filter _
    · intro x hx
      simp only [List.nil_append, emptyInDegreeVex, List.mem_filter, List.mem_range] at hx
      exact hx.1
    · intro v hv
      have := hnn v hv
      simp only [List.nil_append, emptyInDegreeVex, List.mem_filter, List.mem_range, hv,
        true_and, decide_eq_true_eq]
      omega
  -- the variant: the vertices not yet output, which the enqueued ones bound
  have hstep : ∀ s, BasicInv al₀ s → (!s.queue.isEmpty) = true →
      ∃ s', basicStep s = .ok s' ∧ BasicInv al₀ s' ∧
        al₀.inDegree.length - s'.topologicalOrder.length <
          al₀.inDegree.length - s.topologicalOrder.length := by
    intro s hs hc
    have hq : s.queue ≠ [] := by simpa using hc
    obtain ⟨s', hs', hinv', hlen⟩ := basicStep_inv hvl harcs hs hq
    refine ⟨s', hs', hinv', ?_⟩
    have hle := length_le_of_nodup hs.enqueued.nodup
      (fun x hx => hs.inDegree_length ▸ hs.enqueued.lt x hx)
    have : 0 < s.queue.length := List.length_pos_of_ne_nil hq
    simp only [List.length_append] at hle
    omega
  obtain ⟨r, hr, hinv, hc⟩ := whileM.invariant (BasicInv al₀)
    (fun s => al₀.inDegree.length - s.topologicalOrder.length) hstep
    al₀.inDegree.length _ hstart (by simp)
  have hq : r.queue = [] := by simpa using hc
  refine ⟨r.topologicalOrder, by simp [basicTopologicalSort, hr], ?_, ?_, ?_⟩
  · simpa [hq] using hinv.enqueued.nodup
  · intro x hx
    rw [← hinv.inDegree_length]
    exact hinv.enqueued.lt x (by simp [hx])
  · simpa [hq] using hinv.start

end Run

/-- The conflict-graph baseline commits every vertex whose predecessors are all
aborted, aborted or not: `RebuildGraph` brings its in-degree to zero, and
`BasicTopologicalSort` returns it. -/
theorem basicTopologicalSort_emits_aborted {g : List (List Nat)} (hg : InRange g)
    (abortedTx : List Nat) {v : Nat} (hv : v < g.length)
    (hpred : ∀ u, Arc g u v → u ∈ abortedTx) :
    ∃ al order, (init g).rebuildGraph abortedTx = .ok al ∧
      al.basicTopologicalSort g.length = .ok order ∧ v ∈ order := by
  obtain ⟨al, hal, hst⟩ := rebuildGraph_init hg abortedTx
  have hvl : al.vertices.length = al.inDegree.length := by
    rw [hst.vertices, hst.inDegree_length]
    simp
  have harcs : ∀ w ∈ al.vertices, ∀ a ∈ w.first, a.adj < al.inDegree.length := by
    intro w hw a ha
    rw [hst.vertices] at hw
    obtain ⟨i, hi, rfl⟩ := List.mem_map.mp hw
    have hi' : i < g.length := List.mem_range.mp hi
    have hmem : a.adj ∈ g.getD i [] := by
      have := List.mem_map_of_mem (f := (·.adj)) ha
      split at this <;> simpa using this
    rw [hst.inDegree_length]
    exact hg.lt ⟨hi', hmem⟩
  have hnn : ∀ w < al.inDegree.length, 0 ≤ al.inDegree.getD w 0 := by
    intro w hw
    rw [hst.inDegree w (hst.inDegree_length ▸ hw)]
    exact Int.natCast_nonneg _
  obtain ⟨order, hrun, -, -, hpre⟩ := basicTopologicalSort_spec hvl harcs hnn
  have hzero : al.inDegree.getD v 0 = 0 := by
    rw [hst.inDegree v hv]
    have : inArcs g (fun u => u ∉ abortedTx ∨ g.length ≤ u) v = 0 := by
      rw [inArcs_eq_zero_iff]
      rintro u hu harc
      rcases hu with hu | hu
      · exact hu (hpred u harc)
      · exact absurd harc.1 (by omega)
    simp [this]
  have hmem : v ∈ al.emptyInDegreeVex := by
    simp only [emptyInDegreeVex, List.mem_filter, List.mem_range, decide_eq_true_eq]
    exact ⟨hst.inDegree_length ▸ hv, hzero⟩
  exact ⟨al, order, hal, hst.inDegree_length ▸ hrun, hpre.subset hmem⟩

/-- A single transaction aborted by Johnson's cycle breaking, with no conflicts:
the baseline still commits it. -/
theorem basicTopologicalSort_emits_isolated_aborted :
    InRange [[]] ∧ (∀ u, Arc [[]] u 0 → u ∈ [0]) ∧ ∃ al order,
      (init [[]]).rebuildGraph [0] = .ok al ∧ al.basicTopologicalSort 1 = .ok order ∧ 0 ∈ order := by
  have hg : InRange [[]] := by decide
  have hpred : ∀ u, Arc [[]] u 0 → u ∈ [0] := by
    rintro u ⟨hu, -⟩
    simp only [List.length_singleton, Nat.lt_one_iff] at hu
    simp [hu]
  exact ⟨hg, hpred, basicTopologicalSort_emits_aborted hg [0] (by decide) hpred⟩

end AlGraph

end Nezha
