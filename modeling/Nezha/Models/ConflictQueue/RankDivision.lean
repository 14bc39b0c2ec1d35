import Nezha.Models.ConflictQueue.GraphShape
import Nezha.Models.ConflictQueue.QueuesSort
import Nezha.Models.ClassicalGraph.AdvancedSort

/-!
# Rank division orders the queues (`QueuesSort`)

`QueuesSort` ranks the queues by their sorted names, lists for each queue the
ranks of the queues of the other keys read by the transactions writing in it,
and emits the names in the order `AdvancedTopologicalSort` returns for these
lists. On a well-formed batch the lists are exactly the queue dependency
relation `QueueDep` under the ranking, without repeats or self-loops, so the
theorems of the sort apply: every queue is emitted once, and when `QueueDep`
is acyclic the source of every dependency comes before its target.

The dependency lists are read through `cq.Edges`, keyed by transaction ID:
two transactions with one ID share the node list of the later one, and the
reads of the earlier one drop out.
-/

namespace Nezha

open Digraph

/-- The queue dependency relation of a batch: `X → Y` when a transaction
writes the key named `X` and reads another key, named `Y`. -/
def QueueDep (batch : List (List RWNode)) (X Y : Bytes) : Prop :=
  ∃ tx ∈ batch, ∃ k ∈ writeKeys tx, ∃ k' ∈ readKeys tx, k ≠ k' ∧
    convertByte2String k = X ∧ convertByte2String k' = Y

/-- The queue names in rank order (`sortedStrings`). -/
def QueueGraph.sortedNames (cq : QueueGraph) : List Bytes := sortStrings cq.queues.keys

/-- `sortedQueues[key]`. -/
def QueueGraph.rankOf (cq : QueueGraph) (key : Bytes) : Nat :=
  (indexNames cq.sortedNames).findD key 0

/-- `deps`, the adjacency lists `QueuesSort` hands to `Init`. -/
def QueueGraph.rankGraph (h : Heap) (cq : QueueGraph) (σ : Schedule) : List (List Nat) :=
  depLists (buildDepQueue h cq σ (indexNames cq.sortedNames))

theorem queuesSort_eq (h : Heap) (cq : QueueGraph) (σ : Schedule) (fuel : Nat) :
    queuesSort h cq σ fuel = (do
      let order ← (AlGraph.init (cq.rankGraph h σ)).advancedTopologicalSort fuel
      namesOf cq.sortedNames order) := rfl

/-- `QueuesSort` that returns returns the same names given more iterations. -/
theorem queuesSort_mono {h : Heap} {cq : QueueGraph} {σ : Schedule} {fuel : Nat} {names : List Bytes}
    (hs : queuesSort h cq σ fuel = .ok names) {fuel' : Nat} (hle : fuel ≤ fuel') :
    queuesSort h cq σ fuel' = .ok names := by
  rw [queuesSort_eq] at hs ⊢
  cases ho : (AlGraph.init (cq.rankGraph h σ)).advancedTopologicalSort fuel with
  | error e => simp [ho] at hs
  | ok order =>
    rw [ho, except_ok_bind] at hs
    rw [AlGraph.advancedTopologicalSort_mono ho hle, except_ok_bind, hs]

/-! ## Ranks -/

theorem map_getD_range {α : Type} (l : List (List α)) :
    (List.range l.length).map (fun i => l.getD i []) = l := by
  apply List.ext_getElem (by rw [List.length_map, List.length_range])
  intro i _ h₂
  simp only [List.getElem_map, List.getElem_range]
  exact List.getD_eq_getElem _ _ h₂

section Ranks

variable {ss : List Bytes} (hnd : ss.Nodup)
include hnd

theorem get?_indexNames {i : Nat} (hi : i < ss.length) : (indexNames ss).get? (ss.getD i []) = some i :=
  GoMap.get?_foldl_insert (fun i => ss.getD i []) id (List.range ss.length) GoMap.empty
    (by rw [map_getD_range]; exact hnd) i (List.mem_range.mpr hi)

/-- A name's rank is its place among the sorted names. -/
theorem rank_spec {k : Bytes} (hk : k ∈ ss) :
    (indexNames ss).findD k 0 < ss.length ∧ ss.getD ((indexNames ss).findD k 0) [] = k := by
  obtain ⟨i, hi, rfl⟩ := List.getElem_of_mem hk
  rw [← List.getD_eq_getElem _ [] hi, GoMap.findD_eq_of_get? (get?_indexNames hnd hi)]
  exact ⟨hi, rfl⟩

theorem rank_getD {i : Nat} (hi : i < ss.length) : (indexNames ss).findD (ss.getD i []) 0 = i :=
  GoMap.findD_eq_of_get? (get?_indexNames hnd hi) 0

theorem rank_inj {a b : Bytes} (ha : a ∈ ss) (hb : b ∈ ss)
    (h : (indexNames ss).findD a 0 = (indexNames ss).findD b 0) : a = b := by
  rw [← (rank_spec hnd ha).2, ← (rank_spec hnd hb).2, h]

end Ranks

/-! ## The dependency lists -/

theorem mem_depEntry (σ : Schedule) (sq : GoMap Bytes Nat) (key : Bytes) (temp : GoMap Bytes Unit)
    (v : Nat) : v ∈ depEntry σ sq key temp ↔ ∃ kk ∈ temp.keys, sq.findD kk 0 = v := by
  unfold depEntry
  split_ifs with h
  · simp [(σ.temp_perm key temp.keys).mem_iff]
  · have : temp.keys = [] := List.eq_nil_of_length_eq_zero (by omega)
    simp [this]

theorem nodup_depEntry (σ : Schedule) (sq : GoMap Bytes Nat) (key : Bytes) (temp : GoMap Bytes Unit)
    (hinj : ∀ a ∈ temp.keys, ∀ b ∈ temp.keys, sq.findD a 0 = sq.findD b 0 → a = b) :
    (depEntry σ sq key temp).Nodup := by
  unfold depEntry
  split_ifs
  · have hperm := σ.temp_perm key temp.keys
    exact List.Nodup.map_on (fun a ha b hb => hinj a (hperm.subset ha) b (hperm.subset hb))
      (hperm.nodup_iff.mpr temp.nodup)
  · exact List.nodup_nil

theorem mem_keys_collectReads (h : Heap) (cq : QueueGraph) (temp : GoMap Bytes Unit) (w : NodeRef)
    (kk : Bytes) :
    kk ∈ (collectReads h cq temp w).keys ↔ kk ∈ temp.keys ∨
      ∃ n ∈ cq.edgeSet (h w).transInfo.id, (h n).label = .r ∧ (h w).rwSet.key ≠ (h n).rwSet.key ∧
        convertByte2String (h n).rwSet.key = kk := by
  unfold collectReads
  refine GoMap.mem_keys_foldl (P := fun n kk => (h n).label = .r ∧ (h w).rwSet.key ≠ (h n).rwSet.key ∧
    convertByte2String (h n).rwSet.key = kk) (fun m n k => ?_) _ _ _
  split_ifs with hc
  · rw [GoMap.mem_keys_insert]
    constructor
    · rintro (rfl | hk)
      · exact Or.inr ⟨hc.1, hc.2, rfl⟩
      · exact Or.inl hk
    · rintro (hk | ⟨-, -, rfl⟩)
      · exact Or.inr hk
      · exact Or.inl rfl
  · constructor
    · exact Or.inl
    · rintro (hk | ⟨h₁, h₂, -⟩)
      · exact hk
      · exact absurd ⟨h₁, h₂⟩ hc

/-- The dependency set of a queue: the names of the keys other than its own
that the transactions of its writes read. -/
theorem mem_keys_dependencySet (h : Heap) (cq : QueueGraph) (q : Queue) (kk : Bytes) :
    kk ∈ (dependencySet h cq q).keys ↔ ∃ w ∈ q.wSlice, ∃ n ∈ cq.edgeSet (h w).transInfo.id,
      (h n).label = .r ∧ (h w).rwSet.key ≠ (h n).rwSet.key ∧ convertByte2String (h n).rwSet.key = kk := by
  unfold dependencySet
  rw [GoMap.mem_keys_foldl (fun m w k => mem_keys_collectReads h cq m w k)]
  simp

section RankGraph

variable (h : Heap) (cq : QueueGraph) (σ : Schedule)

theorem nodup_sortedNames : cq.sortedNames.Nodup :=
  (sortStrings_perm _).nodup_iff.mpr cq.queues.nodup

theorem mem_sortedNames {k : Bytes} : k ∈ cq.sortedNames ↔ k ∈ cq.queues.keys :=
  (sortStrings_perm _).mem_iff

theorem length_sortedNames : cq.sortedNames.length = cq.queues.keys.length :=
  (sortStrings_perm _).length_eq

theorem rankOf_spec {k : Bytes} (hk : k ∈ cq.queues.keys) :
    cq.rankOf k < cq.queues.keys.length ∧ cq.sortedNames.getD (cq.rankOf k) [] = k := by
  rw [← length_sortedNames]
  exact rank_spec (nodup_sortedNames cq) ((mem_sortedNames cq).mpr hk)

theorem rankOf_getD {i : Nat} (hi : i < cq.queues.keys.length) :
    cq.rankOf (cq.sortedNames.getD i []) = i :=
  rank_getD (nodup_sortedNames cq) (by rw [length_sortedNames]; exact hi)

theorem rankOf_inj {a b : Bytes} (ha : a ∈ cq.queues.keys) (hb : b ∈ cq.queues.keys)
    (hab : cq.rankOf a = cq.rankOf b) : a = b :=
  rank_inj (nodup_sortedNames cq) ((mem_sortedNames cq).mpr ha) ((mem_sortedNames cq).mpr hb) hab

theorem getD_sortedNames_mem {i : Nat} (hi : i < cq.queues.keys.length) :
    cq.sortedNames.getD i [] ∈ cq.queues.keys := by
  rw [← mem_sortedNames, List.getD_eq_getElem _ _ (by rw [length_sortedNames]; exact hi)]
  exact List.getElem_mem _

/-- `depQueue` files every queue's entry under the queue's rank. -/
theorem buildDepQueue_eq :
    buildDepQueue h cq σ (indexNames cq.sortedNames) = cq.queues.keys.foldl (fun depQueue key =>
      depQueue.insert (cq.rankOf key)
        (depEntry σ (indexNames cq.sortedNames) key (dependencySet h cq (cq.queues.findD key Queue.zero))))
      GoMap.empty := rfl

theorem nodup_map_rankOf : (cq.queues.keys.map cq.rankOf).Nodup :=
  List.Nodup.map_on (fun _ ha _ hb hab => rankOf_inj cq ha hb hab) cq.queues.nodup

@[simp] theorem length_rankGraph : (cq.rankGraph h σ).length = cq.queues.keys.length := by
  rw [QueueGraph.rankGraph, depLists, List.length_map, List.length_range, buildDepQueue_eq,
    GoMap.keys_foldl_insert _ _ _ _ (nodup_map_rankOf cq) (by simp)]
  simp

/-- Row `i` of `deps` is the entry of the queue of rank `i`. -/
theorem getD_rankGraph {i : Nat} (hi : i < cq.queues.keys.length) :
    (cq.rankGraph h σ).getD i [] = depEntry σ (indexNames cq.sortedNames) (cq.sortedNames.getD i [])
      (dependencySet h cq (cq.queues.findD (cq.sortedNames.getD i []) Queue.zero)) := by
  have hlen : i < (buildDepQueue h cq σ (indexNames cq.sortedNames)).keys.length := by
    have := length_rankGraph h cq σ
    rw [QueueGraph.rankGraph, depLists, List.length_map, List.length_range] at this
    rw [this]
    exact hi
  have hk := getD_sortedNames_mem cq hi
  rw [QueueGraph.rankGraph, depLists, List.getD_eq_getElem?_getD, List.getElem?_map,
    List.getElem?_range hlen, Option.map_some, Option.getD_some]
  conv_lhs => rw [← rankOf_getD cq hi]
  rw [buildDepQueue_eq]
  exact GoMap.findD_eq_of_get? (GoMap.get?_foldl_insert _ _ _ _ (nodup_map_rankOf cq) _ hk) []

end RankGraph

theorem foldlM_namesOf {ss : List Bytes} (hpos : 0 < ss.length) :
    ∀ (order : List Nat) (seq : List Bytes), (∀ o ∈ order, o < ss.length) →
      order.foldlM (fun sequence o =>
        if ss.length > 0 then do
          let str ← sliceIndex ss o
          pure (sequence ++ [str])
        else pure sequence) seq = .ok (seq ++ order.map fun o => ss.getD o [])
  | [], seq, _ => by simp [pure, Except.pure]
  | o :: order, seq, hlt => by
    have ho : o < ss.length := hlt o List.mem_cons_self
    have hstep : (if ss.length > 0 then do
          let str ← sliceIndex ss o
          pure (seq ++ [str])
        else pure seq : Except Fault (List Bytes)) = .ok (seq ++ [ss.getD o []]) := by
      rw [if_pos hpos, sliceIndex_of_lt ho, List.getD_eq_getElem _ _ ho]
      rfl
    rw [List.foldlM_cons, hstep, except_ok_bind,
      foldlM_namesOf hpos order _ fun o' h' => hlt o' (List.mem_cons_of_mem _ h')]
    simp

/-- The emitted names: the name of every rank of the order, in that order. -/
theorem namesOf_eq {ss : List Bytes} (hpos : 0 < ss.length) {order : List Nat}
    (hlt : ∀ o ∈ order, o < ss.length) :
    namesOf ss order = .ok (order.map fun o => ss.getD o []) := by
  rw [namesOf, foldlM_namesOf hpos order [] hlt, List.nil_append]

/-! ## On a well-formed batch -/

section Wellformed

variable {batch : List (List RWNode)}

theorem label_ne_r {l : Label} : l ≠ .r ↔ l = .w := by
  cases l <;> simp

/-- The node list `Edges` holds for the transaction of a node of the batch. -/
theorem edgeSet_ofBatch (hw : BuiltBatch batch) {w : NodeRef} {tx : List RWNode}
    (htx : batch[w.tx]? = some tx) (hpos : w.pos < tx.length) :
    (QueueGraph.ofBatch batch).edgeSet (Heap.ofBatch batch w).transInfo.id =
      (List.range tx.length).map fun j => ⟨w.tx, j⟩ := by
  rw [QueueGraph.edgeSet, id_ofBatch hw htx hpos]
  simp only [QueueGraph.ofBatch]
  rw [GoMap.findD_eq_of_get? (get?_foldl_fileEdge hw htx)]

/-- The dependency set of a queue of a well-formed batch holds its `QueueDep` successors. -/
theorem mem_dependencySet_ofBatch (hw : BuiltBatch batch) {key kk : Bytes}
    (hk : key ∈ (QueueGraph.ofBatch batch).queues.keys) :
    kk ∈ (dependencySet (Heap.ofBatch batch) (QueueGraph.ofBatch batch)
      ((QueueGraph.ofBatch batch).queues.findD key Queue.zero)).keys ↔ QueueDep batch key kk := by
  rw [mem_keys_dependencySet]
  constructor
  · rintro ⟨w, hwq, n, hn, hr, hne, rfl⟩
    obtain ⟨hwf, hname, hlw⟩ := (mem_wSlice_ofBatch hk).mp hwq
    obtain ⟨tx, htx, hpos⟩ := mem_flatten_batchRefs.mp hwf
    rw [edgeSet_ofBatch hw htx hpos] at hn
    obtain ⟨j, hj, rfl⟩ := List.mem_map.mp hn
    rw [List.mem_range] at hj
    -- the write and the read are nodes `w.pos` and `j` of the transaction
    rw [queueName, ofBatch_apply htx hpos] at hname
    rw [ofBatch_apply htx hpos] at hlw hne
    rw [ofBatch_apply htx hj] at hr hne ⊢
    exact ⟨tx, List.mem_of_getElem? htx, _,
      mem_writeKeys.mpr ⟨_, List.getElem_mem hpos, label_ne_r.mp hlw, rfl⟩, _,
      mem_readKeys.mpr ⟨_, List.getElem_mem hj, hr, rfl⟩, hne, hname, rfl⟩
  · rintro ⟨tx, htx, k, hk₁, k', hk₂, hne, rfl, rfl⟩
    obtain ⟨a, ha, hla, rfl⟩ := mem_writeKeys.mp hk₁
    obtain ⟨b, hb, hlb, rfl⟩ := mem_readKeys.mp hk₂
    obtain ⟨i, hi⟩ := List.mem_iff_getElem?.mp htx
    obtain ⟨p, hp, rfl⟩ := List.getElem_of_mem ha
    obtain ⟨q, hq, rfl⟩ := List.getElem_of_mem hb
    have hwq : (⟨i, p⟩ : NodeRef) ∈
        ((QueueGraph.ofBatch batch).queues.findD (convertByte2String tx[p].rwSet.key) Queue.zero).wSlice := by
      rw [mem_wSlice_ofBatch hk, queueName, ofBatch_apply hi hp, hla]
      exact ⟨mem_flatten_batchRefs.mpr ⟨tx, hi, hp⟩, rfl, by simp⟩
    refine ⟨⟨i, p⟩, hwq, ⟨i, q⟩, ?_, ?_, ?_, ?_⟩
    · rw [edgeSet_ofBatch hw (w := ⟨i, p⟩) hi hp]
      exact List.mem_map.mpr ⟨q, List.mem_range.mpr hq, rfl⟩
    · rw [ofBatch_apply hi hq]
      exact hlb
    · rw [ofBatch_apply hi hp, ofBatch_apply hi hq]
      exact hne
    · rw [ofBatch_apply hi hq]

/-- Both ends of a dependency are queues of the batch. -/
theorem QueueDep.mem_keys {X Y : Bytes} (h : QueueDep batch X Y) :
    X ∈ (QueueGraph.ofBatch batch).queues.keys ∧ Y ∈ (QueueGraph.ofBatch batch).queues.keys := by
  obtain ⟨tx, htx, k, hk, k', hk', -, rfl, rfl⟩ := h
  obtain ⟨a, ha, -, rfl⟩ := mem_writeKeys.mp hk
  obtain ⟨b, hb, -, rfl⟩ := mem_readKeys.mp hk'
  exact ⟨mem_keys_ofBatch.mpr ⟨tx, htx, a, ha, rfl⟩, mem_keys_ofBatch.mpr ⟨tx, htx, b, hb, rfl⟩⟩

/-- A dependency joins two different queues, where no nil key meets an empty
one: distinct keys have distinct names. -/
theorem QueueDep.ne (hkeys : NoNilEmptyClash batch) {X Y : Bytes} (h : QueueDep batch X Y) : X ≠ Y := by
  obtain ⟨tx, htx, k, hk, k', hk', hne, rfl, rfl⟩ := h
  obtain ⟨a, ha, -, rfl⟩ := mem_writeKeys.mp hk
  obtain ⟨b, hb, -, rfl⟩ := mem_readKeys.mp hk'
  exact fun heq => hne ((hkeys.name_eq_iff (mem_batchKeys.mpr ⟨tx, htx, a, ha, rfl⟩)
    (mem_batchKeys.mpr ⟨tx, htx, b, hb, rfl⟩)).mp heq)

/-- The batch has at most as many queues as nodes. -/
theorem length_keys_ofBatch_le :
    (QueueGraph.ofBatch batch).queues.keys.length ≤ (batch.map List.length).sum := by
  have hsub : (QueueGraph.ofBatch batch).queues.keys.Subperm
      (batch.flatten.map fun n => convertByte2String n.rwSet.key) := by
    apply List.subperm_of_subset (QueueGraph.ofBatch batch).queues.nodup
    intro k hk
    obtain ⟨tx, htx, n, hn, rfl⟩ := mem_keys_ofBatch.mp hk
    exact List.mem_map.mpr ⟨n, List.mem_flatten.mpr ⟨tx, htx, hn⟩, rfl⟩
  have hlen := hsub.length_le
  rwa [List.length_map, List.length_flatten] at hlen

theorem keys_ofBatch_pos (hw : BuiltBatch batch) (hne : batch ≠ []) :
    0 < (QueueGraph.ofBatch batch).queues.keys.length := by
  obtain ⟨tx, rest, rfl⟩ := List.exists_cons_of_ne_nil hne
  obtain ⟨n, ns, htn⟩ := List.exists_cons_of_ne_nil (hw.nonempty tx List.mem_cons_self)
  have hk : convertByte2String n.rwSet.key ∈ (QueueGraph.ofBatch (tx :: rest)).queues.keys :=
    mem_keys_ofBatch.mpr ⟨tx, List.mem_cons_self, n, by rw [htn]; exact List.mem_cons_self, rfl⟩
  exact List.length_pos_of_mem hk

/-! The adjacency lists of a well-formed batch under any schedule. -/

variable (hw : BuiltBatch batch) (σ : Schedule)
include hw

/-- Row `u` of `deps` lists the ranks of the `QueueDep` successors of the queue of rank `u`. -/
theorem mem_rankGraph {u v : Nat} (hu : u < (QueueGraph.ofBatch batch).queues.keys.length) :
    v ∈ ((QueueGraph.ofBatch batch).rankGraph (Heap.ofBatch batch) σ).getD u [] ↔
      ∃ Y, QueueDep batch ((QueueGraph.ofBatch batch).sortedNames.getD u []) Y ∧
        (QueueGraph.ofBatch batch).rankOf Y = v := by
  rw [getD_rankGraph _ _ _ hu, mem_depEntry]
  simp only [mem_dependencySet_ofBatch hw (getD_sortedNames_mem _ hu), QueueGraph.rankOf]

/-- Under the ranking, `deps` is the queue dependency relation. -/
theorem arc_rankGraph_iff {u v : Nat} (hu : u < (QueueGraph.ofBatch batch).queues.keys.length)
    (hv : v < (QueueGraph.ofBatch batch).queues.keys.length) :
    Arc ((QueueGraph.ofBatch batch).rankGraph (Heap.ofBatch batch) σ) u v ↔
      QueueDep batch ((QueueGraph.ofBatch batch).sortedNames.getD u [])
        ((QueueGraph.ofBatch batch).sortedNames.getD v []) := by
  rw [Arc, length_rankGraph, mem_rankGraph hw σ hu]
  constructor
  · rintro ⟨-, Y, hdep, rfl⟩
    rwa [(rankOf_spec _ hdep.mem_keys.2).2]
  · intro hdep
    exact ⟨hu, _, hdep, rankOf_getD _ hv⟩

theorem inRange_rankGraph : InRange ((QueueGraph.ofBatch batch).rankGraph (Heap.ofBatch batch) σ) := by
  intro l hl v hv
  obtain ⟨u, hu, rfl⟩ := List.getElem_of_mem hl
  have hu' : u < (QueueGraph.ofBatch batch).queues.keys.length := by simpa using hu
  rw [← List.getD_eq_getElem _ [] hu, mem_rankGraph hw σ hu'] at hv
  obtain ⟨Y, hdep, rfl⟩ := hv
  rw [length_rankGraph]
  exact (rankOf_spec _ hdep.mem_keys.2).1

theorem loopless_rankGraph (hkeys : NoNilEmptyClash batch) :
    Loopless ((QueueGraph.ofBatch batch).rankGraph (Heap.ofBatch batch) σ) := by
  intro u harc
  have hu : u < (QueueGraph.ofBatch batch).queues.keys.length := by simpa using harc.1
  exact ((arc_rankGraph_iff hw σ hu hu).mp harc).ne hkeys rfl

/-- No row of `deps` repeats a rank: `temp` is a set, and ranks are distinct. -/
theorem nodup_rankGraph_row :
    ∀ l ∈ (QueueGraph.ofBatch batch).rankGraph (Heap.ofBatch batch) σ, l.Nodup := by
  intro l hl
  obtain ⟨u, hu, rfl⟩ := List.getElem_of_mem hl
  have hu' : u < (QueueGraph.ofBatch batch).queues.keys.length := by simpa using hu
  rw [← List.getD_eq_getElem _ [] hu, getD_rankGraph _ _ _ hu']
  apply nodup_depEntry
  intro a ha b hb hab
  rw [mem_dependencySet_ofBatch hw (getD_sortedNames_mem _ hu')] at ha hb
  exact rankOf_inj _ ha.mem_keys.2 hb.mem_keys.2 hab

end Wellformed

section QueueOrder

variable {batch : List (List RWNode)} (hw : BuiltBatch batch) (σ : Schedule)

include hw

/-- The in-degrees of the rank graph are bounded by the number of queues, hence
by the number of nodes, and fit `int64` with them. -/
theorem rankGraph_fit (hsize : ((batch.map List.length).sum : Int) ≤ maxInt64) :
    ∀ v, ((((QueueGraph.ofBatch batch).rankGraph (Heap.ofBatch batch) σ).map
      (List.count v)).sum : Int) ≤ maxInt64 := fun v => by
  have h₁ := sum_count_le_length (nodup_rankGraph_row hw σ) v
  have h₂ : (QueueGraph.ofBatch batch).queues.keys.length ≤ (batch.map List.length).sum :=
    length_keys_ofBatch_le
  rw [length_rankGraph] at h₁
  omega

theorem rankGraph_ne_nil (hne : batch ≠ []) :
    (QueueGraph.ofBatch batch).rankGraph (Heap.ofBatch batch) σ ≠ [] :=
  List.ne_nil_of_length_pos (by rw [length_rankGraph]; exact keys_ofBatch_pos hw hne)

/-- Once the sort of the ranks returns an order of all ranks, `QueuesSort`
returns the names of that order, each queue name once. -/
theorem queuesSort_of_order (hne : batch ≠ []) {order : List Nat}
    (hperm : order.Perm (List.range ((QueueGraph.ofBatch batch).rankGraph (Heap.ofBatch batch) σ).length))
    {fuel : Nat} (hrun : (AlGraph.init ((QueueGraph.ofBatch batch).rankGraph (Heap.ofBatch batch) σ)).advancedTopologicalSort
      fuel = .ok order) :
    queuesSort (Heap.ofBatch batch) (QueueGraph.ofBatch batch) σ fuel =
        .ok (order.map fun o => (QueueGraph.ofBatch batch).sortedNames.getD o []) ∧
      (order.map fun o => (QueueGraph.ofBatch batch).sortedNames.getD o []).Perm
        (QueueGraph.ofBatch batch).queues.keys := by
  have hlt : ∀ o ∈ order, o < (QueueGraph.ofBatch batch).sortedNames.length := fun o ho => by
    have := List.mem_range.mp (hperm.subset ho)
    rwa [length_rankGraph, ← length_sortedNames] at this
  constructor
  · rw [queuesSort_eq, hrun, except_ok_bind,
      namesOf_eq (by rw [length_sortedNames]; exact keys_ofBatch_pos hw hne) hlt]
  · have hmap := hperm.map fun o => (QueueGraph.ofBatch batch).sortedNames.getD o []
    rw [length_rankGraph, ← length_sortedNames, map_getD_range] at hmap
    exact hmap.trans (sortStrings_perm _)

/-- On a non-empty batch whose nodes fit `int64` and where no nil key meets an
empty one, `QueuesSort` returns once it has one iteration per queue, and
returns every queue name once. -/
theorem queuesSort_ok (hkeys : NoNilEmptyClash batch) (hne : batch ≠ [])
    (hsize : ((batch.map List.length).sum : Int) ≤ maxInt64)
    {fuel : Nat} (hfuel : (QueueGraph.ofBatch batch).queues.keys.length ≤ fuel) :
    ∃ sequence, queuesSort (Heap.ofBatch batch) (QueueGraph.ofBatch batch) σ fuel = .ok sequence ∧
      sequence.Perm (QueueGraph.ofBatch batch).queues.keys := by
  obtain ⟨order, hperm, hrun⟩ := AlGraph.advancedTopologicalSort_perm (inRange_rankGraph hw σ)
    (loopless_rankGraph hw σ hkeys) (rankGraph_fit hw σ hsize) (rankGraph_ne_nil hw σ hne)
  exact ⟨_, queuesSort_of_order hw σ hne hperm (hrun fuel (by rw [length_rankGraph]; exact hfuel))⟩

/-- On such a batch, every run of `QueuesSort` that returns returns every queue name once. -/
theorem queuesSort_perm_of_ok (hkeys : NoNilEmptyClash batch) (hne : batch ≠ [])
    (hsize : ((batch.map List.length).sum : Int) ≤ maxInt64)
    {fuel : Nat} {sequence : List Bytes}
    (hs : queuesSort (Heap.ofBatch batch) (QueueGraph.ofBatch batch) σ fuel = .ok sequence) :
    sequence.Perm (QueueGraph.ofBatch batch).queues.keys := by
  -- with enough iterations both runs return, so they return the same names
  obtain ⟨sequence', hq, hp⟩ := queuesSort_ok hw σ hkeys hne hsize
    (le_max_right fuel (QueueGraph.ofBatch batch).queues.keys.length)
  rw [queuesSort_mono hs (le_max_left _ _)] at hq
  rwa [Except.ok.inj hq]

/-- When the queue dependency relation is acyclic, every run of `QueuesSort`
that returns emits the source of each dependency before its target. -/
theorem queuesSort_sublist_of_queueDep (hne : batch ≠ []) (hsize : ((batch.map List.length).sum : Int) ≤ maxInt64)
    (hacyc : Acyclic (QueueDep batch)) {fuel : Nat} {names : List Bytes}
    (hs : queuesSort (Heap.ofBatch batch) (QueueGraph.ofBatch batch) σ fuel = .ok names)
    {X Y : Bytes} (hdep : QueueDep batch X Y) : [X, Y].Sublist names := by
  have hg := inRange_rankGraph hw σ
  -- an acyclic `QueueDep` makes `deps` acyclic, and the sort then returns a topological order
  have hacyc' : Acyclic (Arc ((QueueGraph.ofBatch batch).rankGraph (Heap.ofBatch batch) σ)) :=
    hacyc.comap (fun o => (QueueGraph.ofBatch batch).sortedNames.getD o []) fun u v harc =>
      (arc_rankGraph_iff hw σ (by simpa using harc.1) (by simpa using hg.lt harc)).mp harc
  obtain ⟨order, hperm, htop, hrun⟩ := AlGraph.advancedTopologicalSort_topological hacyc' hg
    (rankGraph_fit hw σ hsize) (rankGraph_ne_nil hw σ hne)
  -- the run that returned is the one with enough iterations
  have hnames : names = order.map fun o => (QueueGraph.ofBatch batch).sortedNames.getD o [] :=
    Except.ok.inj ((queuesSort_mono hs (le_max_left fuel _)).symm.trans
      (queuesSort_of_order hw σ hne hperm (hrun _ (le_max_right _ _))).1)
  subst hnames
  obtain ⟨hX, hY⟩ := hdep.mem_keys
  obtain ⟨hXn, hXs⟩ := rankOf_spec _ hX
  obtain ⟨hYn, hYs⟩ := rankOf_spec _ hY
  have harc : Arc ((QueueGraph.ofBatch batch).rankGraph (Heap.ofBatch batch) σ)
      ((QueueGraph.ofBatch batch).rankOf X) ((QueueGraph.ofBatch batch).rankOf Y) :=
    (arc_rankGraph_iff hw σ hXn hYn).mpr (by rw [hXs, hYs]; exact hdep)
  have hmem : (QueueGraph.ofBatch batch).rankOf Y ∈ order :=
    hperm.mem_iff.mpr (List.mem_range.mpr (by rw [length_rankGraph]; exact hYn))
  have hsub := (htop _ _ harc hmem).map fun o => (QueueGraph.ofBatch batch).sortedNames.getD o []
  rwa [List.map_cons, List.map_cons, List.map_nil, hXs, hYs] at hsub

end QueueOrder

/-- Rank division on a batch of transactions as `CreateRWNode` builds them,
each with its own ID, where no nil key meets an empty one and whose nodes a Go
`int` can count: `QueuesSort` emits every queue exactly once, within one
iteration of its sort per queue, and when the queue dependency relation is
acyclic the source of each dependency is emitted before its target. -/
theorem queuesSort_linear_extension {batch : List (List RWNode)} (hw : BuiltBatch batch)
    (hkeys : NoNilEmptyClash batch) (hne : batch ≠ []) (hsize : ((batch.map List.length).sum : Int) ≤ maxInt64)
    (σ : Schedule) :
    ∃ names, createGraph (Heap.ofBatch batch) (batchRefs batch) = .ok (QueueGraph.ofBatch batch) ∧
      (∀ fuel, (QueueGraph.ofBatch batch).queues.keys.length ≤ fuel →
        queuesSort (Heap.ofBatch batch) (QueueGraph.ofBatch batch) σ fuel = .ok names) ∧
      names.Perm (QueueGraph.ofBatch batch).queues.keys ∧
      (Acyclic (QueueDep batch) → ∀ X Y, QueueDep batch X Y → [X, Y].Sublist names) := by
  obtain ⟨order, hperm, hrun⟩ := AlGraph.advancedTopologicalSort_perm (inRange_rankGraph hw σ)
    (loopless_rankGraph hw σ hkeys) (rankGraph_fit hw σ hsize) (rankGraph_ne_nil hw σ hne)
  have hq := queuesSort_of_order hw σ hne hperm (hrun _ le_rfl)
  refine ⟨_, createGraph_ofBatch hw, fun fuel hfuel => ?_, hq.2, fun hacyc X Y hdep =>
    queuesSort_sublist_of_queueDep hw σ hne hsize hacyc hq.1 hdep⟩
  exact (queuesSort_of_order hw σ hne hperm (hrun fuel (by rw [length_rankGraph]; exact hfuel))).1

/-- One transaction that reads `y = 0x00` and writes `x = 0x01`. -/
def readOther : List (List RWNode) := [[rwNode [48] .r [0], rwNode [48] .w [1]]]

theorem readOther_wellformed : Wellformed readOther where
  built := by
    simp only [readOther, List.mem_cons, List.not_mem_nil, or_false]
    rintro tx rfl
    exact ⟨[48], 0, [some [0]], [some [49]], [some [1]], [some [49]], rfl⟩
  nonempty := by decide
  ids_nodup := by decide
  reads_nodup := by decide
  writes_nodup := by decide
  keys_apart := by decide

theorem queuesSort_orders_readOther :
    BuiltBatch readOther ∧ NoNilEmptyClash readOther ∧ readOther ≠ [] ∧
      ((readOther.map List.length).sum : Int) ≤ maxInt64 ∧
      ∃ names, createGraph (Heap.ofBatch readOther) (batchRefs readOther) =
          .ok (QueueGraph.ofBatch readOther) ∧
        (∀ fuel, (QueueGraph.ofBatch readOther).queues.keys.length ≤ fuel →
          queuesSort (Heap.ofBatch readOther) (QueueGraph.ofBatch readOther) Schedule.insertion fuel =
            .ok names) ∧
        names.Perm (QueueGraph.ofBatch readOther).queues.keys ∧
        (Acyclic (QueueDep readOther) → ∀ X Y, QueueDep readOther X Y → [X, Y].Sublist names) :=
  ⟨readOther_wellformed.toBuiltBatch, readOther_wellformed.keys_apart, by decide, by decide,
    queuesSort_linear_extension readOther_wellformed.toBuiltBatch readOther_wellformed.keys_apart (by decide)
      (by decide) Schedule.insertion⟩

/-- Two transactions with the same ID `"0"`: `A` reads `y` and writes `x`, and
`B` writes `z`, for the keys `y = 0x00`, `x = 0x01`, `z = 0x02`. -/
def sharedId : List (List RWNode) :=
  [[rwNode [48] .r [0], rwNode [48] .w [1]], [rwNode [48] .w [2]]]

/-- The only dependency of `sharedId` is `x → y`. -/
theorem queueDep_sharedId {X Y : Bytes} (h : QueueDep sharedId X Y) :
    X = convertByte2String (some [1]) ∧ Y = convertByte2String (some [0]) := by
  obtain ⟨tx, htx, k, hk, k', hk', -, rfl, rfl⟩ := h
  simp only [sharedId, List.mem_cons, List.not_mem_nil, or_false] at htx
  rcases htx with rfl | rfl
  · simp only [writeKeys, readKeys, rwNode] at hk hk'
    simp_all
  · simp [readKeys, rwNode] at hk'

/-- With a shared ID, `cq.Edges["0"]` keeps only the nodes of `B`, so queue `x`
gets no dependency on `y`, and the queues come out in name order: `y` before
`x`, against the dependency `x → y` of `A`. -/
theorem sharedId_misorders :
    QueueDep sharedId (convertByte2String (some [1])) (convertByte2String (some [0])) ∧
      Acyclic (QueueDep sharedId) ∧ ∃ cq,
        createGraph (Heap.ofBatch sharedId) (batchRefs sharedId) = .ok cq ∧
        queuesSort (Heap.ofBatch sharedId) cq Schedule.insertion 3 =
          .ok [convertByte2String (some [0]), convertByte2String (some [1]), convertByte2String (some [2])] := by
  refine ⟨⟨_, List.mem_cons_self, some [1], by decide, some [0], by decide, by decide, rfl, rfl⟩, ?_,
    _, createGraph_eq _ (by decide), by decide⟩
  -- every dependency ends at `y`, and none starts there
  refine acyclic_of_not_comp fun a b c hab hbc => ?_
  have h₁ := (queueDep_sharedId hab).2
  have h₂ := (queueDep_sharedId hbc).1
  rw [h₁] at h₂
  exact absurd h₂ (by decide)

/-- The runtime's order of a dependency set of at most one queue cannot show. -/
theorem Schedule.temp_eq_of_length_le_one (σ : Schedule) (key : Bytes) :
    ∀ {l : List Bytes}, l.length ≤ 1 → σ.temp key l = l
  | [], _ => List.Perm.eq_nil (σ.temp_perm key [])
  | [_], _ => List.perm_singleton.mp (σ.temp_perm key _)
  | _ :: _ :: _, h => absurd h (by simp)

/-- When every queue depends on one queue at most, `QueuesSort` does not depend
on the order the runtime ranges over the dependency sets in. -/
theorem queuesSort_schedule (h : Heap) (cq : QueueGraph) (σ : Schedule) (fuel : Nat)
    (hsmall : ∀ key ∈ cq.queues.keys, (dependencySet h cq (cq.queues.findD key Queue.zero)).keys.length ≤ 1) :
    queuesSort h cq σ fuel = queuesSort h cq Schedule.insertion fuel := by
  have hdeps : ∀ sortedQueues, buildDepQueue h cq σ sortedQueues = buildDepQueue h cq Schedule.insertion sortedQueues :=
    fun sortedQueues => List.foldl_ext _ _ _ fun depQueue key hkey => by
      simp only [depEntry, σ.temp_eq_of_length_le_one key (hsmall key hkey)]
      rfl
  unfold queuesSort
  dsimp only
  rw [hdeps]

/-- One transaction that reads a nil key and writes the empty one. -/
def nilEmptyTx : List (List RWNode) :=
  [[⟨⟨none, some [49]⟩, ⟨[48], 0⟩, .r, 0, false⟩, rwNode [48] .w []]]

/-- Both keys of `nilEmptyTx` print as `""`, so its only queue depends on
itself and rank division never returns, whatever the order of the maps. -/
theorem queuesSort_nilEmptyTx (σ : Schedule) (fuel : Nat) :
    queuesSort (Heap.ofBatch nilEmptyTx) (QueueGraph.ofBatch nilEmptyTx) σ fuel = .error .outOfFuel := by
  rw [queuesSort_schedule _ _ σ fuel (by decide)]
  have hdeps : depLists (buildDepQueue (Heap.ofBatch nilEmptyTx) (QueueGraph.ofBatch nilEmptyTx) Schedule.insertion
      (indexNames (sortStrings (QueueGraph.ofBatch nilEmptyTx).queues.keys))) = [[0]] := by
    decide
  unfold queuesSort
  dsimp only
  rw [hdeps, AlGraph.advancedTopologicalSort_selfLoop]
  rfl

/-- Both conditions on the batch are needed. With a shared ID `sharedId` puts
`y` before `x` against its dependency `x → y` (`sharedId_misorders`). With a
nil key next to an empty one, `nilEmptyTx`, built as `CreateRWNode` builds it,
makes `QueuesSort` run out of every iteration budget. -/
theorem queuesSort_needs_distinct_ids_and_keys :
    (QueueDep sharedId (convertByte2String (some [1])) (convertByte2String (some [0])) ∧
      Acyclic (QueueDep sharedId) ∧ ∃ cq,
        createGraph (Heap.ofBatch sharedId) (batchRefs sharedId) = .ok cq ∧
        queuesSort (Heap.ofBatch sharedId) cq Schedule.insertion 3 =
          .ok [convertByte2String (some [0]), convertByte2String (some [1]), convertByte2String (some [2])]) ∧
    BuiltBatch nilEmptyTx ∧ ¬ NoNilEmptyClash nilEmptyTx ∧
      createGraph (Heap.ofBatch nilEmptyTx) (batchRefs nilEmptyTx) = .ok (QueueGraph.ofBatch nilEmptyTx) ∧
      ∀ σ fuel, queuesSort (Heap.ofBatch nilEmptyTx) (QueueGraph.ofBatch nilEmptyTx) σ fuel = .error .outOfFuel := by
  have hbuilt : BuiltBatch nilEmptyTx :=
    ⟨by
      simp only [nilEmptyTx, List.mem_cons, List.not_mem_nil, or_false]
      rintro tx rfl
      exact ⟨[48], 0, [none], [some [49]], [some []], [some [49]], rfl⟩, by decide, by decide⟩
  exact ⟨sharedId_misorders, hbuilt, by decide, createGraph_ofBatch hbuilt, queuesSort_nilEmptyTx⟩

end Nezha
