import Nezha.Models.ConflictQueue.Batch
import Nezha.Models.ConflictQueue.DeSS

/-!
# The graph `CreateGraph` builds

On a batch with an empty transaction `CreateGraph` panics at `rw[0]`, and so
does `TestConflictQueue` (`runNezha_not_total`), as it does on the empty batch,
where `findMaxNode` on the empty graph returns its default vertex `0` and
`AdvancedTopologicalSort` reads `vertices[0]`. On any
other batch its first loop is two independent folds, one filling `Edges` and
one filling `queueArray`, and its second loop turns every entry of
`queueArray` into a queue with the reads first. For the batches of
`Wellformed` this gives the shape every later pass relies on: transaction `i`
is filed under its ID with its own pointers, the edge keys come in batch
order, and the queue of a name holds exactly the nodes whose key has that
name, in batch order.
-/

namespace Nezha

/-! ## The pointers of a batch -/

@[simp] theorem length_batchRefs (batch : List (List RWNode)) :
    (batchRefs batch).length = batch.length := by
  simp [batchRefs]

theorem getElem?_batchRefs (batch : List (List RWNode)) (i : Nat) :
    (batchRefs batch)[i]? = (batch[i]?).map fun tx => (List.range tx.length).map fun j => ⟨i, j⟩ := by
  by_cases hi : i < batch.length
  · simp [batchRefs, List.getElem?_range hi, List.getD_eq_getElem?_getD, List.getElem?_eq_getElem hi]
  · have hle : batch.length ≤ i := by omega
    simp [batchRefs, hle]

theorem mem_batchRefs {batch : List (List RWNode)} {rw : List NodeRef} :
    rw ∈ batchRefs batch ↔ ∃ i, ∃ tx, batch[i]? = some tx ∧ rw = (List.range tx.length).map fun j => ⟨i, j⟩ := by
  rw [List.mem_iff_getElem?]
  constructor
  · rintro ⟨i, hi⟩
    rw [getElem?_batchRefs] at hi
    obtain ⟨tx, htx, rfl⟩ := Option.map_eq_some_iff.mp hi
    exact ⟨i, tx, htx, rfl⟩
  · rintro ⟨i, tx, htx, rfl⟩
    exact ⟨i, by rw [getElem?_batchRefs, htx]; rfl⟩

theorem nil_mem_batchRefs_iff {batch : List (List RWNode)} : [] ∈ batchRefs batch ↔ [] ∈ batch := by
  rw [mem_batchRefs, List.mem_iff_getElem?]
  constructor
  · rintro ⟨i, tx, htx, hnil⟩
    have : tx.length = 0 := by simpa using congrArg List.length hnil.symm
    exact ⟨i, by rw [htx, List.length_eq_zero_iff.mp this]⟩
  · rintro ⟨i, hi⟩
    exact ⟨i, [], hi, rfl⟩

theorem mem_flatten_batchRefs {batch : List (List RWNode)} {n : NodeRef} :
    n ∈ (batchRefs batch).flatten ↔ ∃ tx, batch[n.tx]? = some tx ∧ n.pos < tx.length := by
  rw [List.mem_flatten]
  constructor
  · rintro ⟨rw, hrw, hn⟩
    obtain ⟨i, tx, htx, rfl⟩ := mem_batchRefs.mp hrw
    obtain ⟨j, hj, rfl⟩ := List.mem_map.mp hn
    exact ⟨tx, htx, List.mem_range.mp hj⟩
  · rintro ⟨tx, htx, hpos⟩
    refine ⟨_, mem_batchRefs.mpr ⟨n.tx, tx, htx, rfl⟩, List.mem_map.mpr ⟨n.pos, ?_, rfl⟩⟩
    exact List.mem_range.mpr hpos

/-- Two pointers of the batch into one transaction point into one node list. -/
theorem mem_flatten_batchRefs_of_tx_eq {batch : List (List RWNode)} {n m : NodeRef}
    (hn : n ∈ (batchRefs batch).flatten) (hm : m ∈ (batchRefs batch).flatten) (htx : n.tx = m.tx) :
    ∃ tx, batch[n.tx]? = some tx ∧ n.pos < tx.length ∧ m.pos < tx.length := by
  obtain ⟨tx, hn', hpn⟩ := mem_flatten_batchRefs.mp hn
  obtain ⟨tx', hm', hpm⟩ := mem_flatten_batchRefs.mp hm
  rw [← htx, hn'] at hm'
  obtain rfl := Option.some.inj hm'
  exact ⟨tx, hn', hpn, hpm⟩

/-- A pointer of the batch reads the node `CreateRWNode` put there. -/
theorem ofBatch_apply {batch : List (List RWNode)} {i j : Nat} {tx : List RWNode}
    (htx : batch[i]? = some tx) (hj : j < tx.length) : Heap.ofBatch batch ⟨i, j⟩ = tx[j] := by
  simp [Heap.ofBatch, htx, List.getElem?_eq_getElem hj]

/-- `CreateRWNode` leaves every node unnumbered. -/
theorem sequence_ofBatch {batch : List (List RWNode)} (hw : BuiltBatch batch) (p : NodeRef) :
    (Heap.ofBatch batch p).sequence = 0 := by
  unfold Heap.ofBatch
  cases htx : batch[p.tx]? with
  | none => rfl
  | some tx =>
    cases hn : tx[p.pos]? with
    | none => simp [hn, defaultNode]
    | some n =>
      simp only [Option.bind_some, hn, Option.getD_some]
      exact ((hw.built tx (List.mem_of_getElem? htx)).fresh (List.mem_of_getElem? hn)).1

/-! ## `CreateGraph` -/

@[simp] theorem createGraphStep_nil (h : Heap) (acc : GoMap Bytes Edge × GoMap Bytes (List NodeRef)) :
    createGraphStep h acc [] = .error .indexOutOfRange := rfl

theorem createGraphStep_cons (h : Heap) (acc : GoMap Bytes Edge × GoMap Bytes (List NodeRef))
    (n : NodeRef) (rw : List NodeRef) :
    createGraphStep h acc (n :: rw) =
      .ok (acc.1.insert (h n).transInfo.id ⟨n :: rw, false⟩, fileNodes h acc.2 (n :: rw)) := rfl

/-- `CreateGraph` panics at `rw[0]` on every batch with an empty transaction. -/
theorem createGraph_error_of_nil_mem (h : Heap) {rwNodes : List (List NodeRef)}
    (hnil : [] ∈ rwNodes) : createGraph h rwNodes = .error .indexOutOfRange := by
  have hloop : ∀ (l : List (List NodeRef)) acc, [] ∈ l →
      l.foldlM (createGraphStep h) acc = .error .indexOutOfRange := by
    intro l
    induction l with
    | nil => simp
    | cons rw rest ih =>
      intro acc hmem
      cases rw with
      | nil => simp
      | cons n rw =>
        rw [List.foldlM_cons, createGraphStep_cons, except_ok_bind]
        exact ih _ (by simpa using hmem)
  simp [createGraph, hloop rwNodes _ hnil]

/-- `TestConflictQueue` panics on the empty batch and on every batch holding a
transaction that captured nothing. -/
theorem runNezha_not_total :
    BuiltTx [] ∧ (∀ σ fuel, runNezha [] σ (fuel + 1) = .error .indexOutOfRange) ∧
      ∀ batch σ fuel, [] ∈ batch → runNezha batch σ fuel = .error .indexOutOfRange := by
  refine ⟨⟨[], 0, [], [], [], [], rfl⟩, fun σ fuel => rfl, fun batch σ fuel hnil => ?_⟩
  have hcg := createGraph_error_of_nil_mem (Heap.ofBatch batch) (nil_mem_batchRefs_iff.mpr hnil)
  simp [runNezha, hcg]


/-- `edges[id] = &Edge{rw, false}`, with `id` the ID of `rw[0]`. -/
def fileEdge (h : Heap) (edges : GoMap Bytes Edge) (rw : List NodeRef) : GoMap Bytes Edge :=
  edges.insert (h (rw.headD ⟨0, 0⟩)).transInfo.id ⟨rw, false⟩

/-- Without empty transactions the first loop of `CreateGraph` is one fold
filling `Edges` and one filling `queueArray`. -/
theorem foldlM_createGraphStep (h : Heap) : ∀ (l : List (List NodeRef)) edges queueArray,
    (∀ rw ∈ l, rw ≠ []) →
    l.foldlM (createGraphStep h) (edges, queueArray) =
      .ok (l.foldl (fileEdge h) edges, l.foldl (fileNodes h) queueArray)
  | [], _, _, _ => rfl
  | rw :: rest, edges, queueArray, hne => by
    obtain ⟨n, rw, rfl⟩ := List.exists_cons_of_ne_nil (hne _ List.mem_cons_self)
    rw [List.foldlM_cons, createGraphStep_cons, except_ok_bind]
    exact foldlM_createGraphStep h rest _ _ (fun r hr => hne r (List.mem_cons_of_mem _ hr))

theorem createGraph_eq (h : Heap) {rwNodes : List (List NodeRef)} (hne : ∀ rw ∈ rwNodes, rw ≠ []) :
    createGraph h rwNodes = .ok ⟨buildQueues h (rwNodes.foldl (fileNodes h) GoMap.empty),
      rwNodes.foldl (fileEdge h) GoMap.empty⟩ := by
  simp [createGraph, foldlM_createGraphStep h rwNodes _ _ hne, pure, Except.pure]

/-! ### `queueArray` -/

theorem findD_fileNodes (h : Heap) (name : Bytes) : ∀ (rw : List NodeRef) queueArray,
    (fileNodes h queueArray rw).findD name [] =
      queueArray.findD name [] ++ rw.filter fun n => queueName h n = name
  | [], _ => by simp [fileNodes]
  | n :: rw, queueArray => by
    have := findD_fileNodes h name rw
      (queueArray.insert (queueName h n) (queueArray.findD (queueName h n) [] ++ [n]))
    simp only [fileNodes] at this ⊢
    rw [List.foldl_cons, this, GoMap.findD_insert]
    by_cases hn : queueName h n = name
    · simp [hn]
    · simp [Ne.symm hn, hn]

theorem mem_keys_fileNodes (h : Heap) (name : Bytes) : ∀ (rw : List NodeRef) queueArray,
    name ∈ (fileNodes h queueArray rw).keys ↔ name ∈ queueArray.keys ∨ ∃ n ∈ rw, queueName h n = name
  | [], _ => by simp [fileNodes]
  | n :: rw, queueArray => by
    have := mem_keys_fileNodes h name rw
      (queueArray.insert (queueName h n) (queueArray.findD (queueName h n) [] ++ [n]))
    simp only [fileNodes] at this ⊢
    rw [List.foldl_cons, this, GoMap.mem_keys_insert]
    constructor
    · rintro ((rfl | hk) | ⟨m, hm, hmn⟩)
      · exact Or.inr ⟨n, List.mem_cons_self, rfl⟩
      · exact Or.inl hk
      · exact Or.inr ⟨m, List.mem_cons_of_mem _ hm, hmn⟩
    · rintro (hk | ⟨m, hm, hmn⟩)
      · exact Or.inl (Or.inr hk)
      · rcases List.mem_cons.mp hm with rfl | hm
        · exact Or.inl (Or.inl hmn.symm)
        · exact Or.inr ⟨m, hm, hmn⟩

/-- After the first loop the entry of a name lists the nodes of that name in batch order. -/
theorem findD_foldl_fileNodes (h : Heap) (name : Bytes) (l : List (List NodeRef)) :
    (l.foldl (fileNodes h) GoMap.empty).findD name [] = l.flatten.filter fun n => queueName h n = name := by
  suffices ∀ queueArray, (l.foldl (fileNodes h) queueArray).findD name [] =
      queueArray.findD name [] ++ l.flatten.filter fun n => queueName h n = name by
    simpa [GoMap.findD] using this GoMap.empty
  induction l with
  | nil => simp
  | cons rw rest ih =>
    intro queueArray
    rw [List.foldl_cons, ih, findD_fileNodes, List.flatten_cons, List.filter_append, List.append_assoc]

theorem mem_keys_foldl_fileNodes (h : Heap) (name : Bytes) (l : List (List NodeRef)) :
    name ∈ (l.foldl (fileNodes h) GoMap.empty).keys ↔ ∃ n ∈ l.flatten, queueName h n = name := by
  suffices ∀ queueArray, name ∈ (l.foldl (fileNodes h) queueArray).keys ↔
      name ∈ queueArray.keys ∨ ∃ n ∈ l.flatten, queueName h n = name by
    simpa using this GoMap.empty
  induction l with
  | nil => simp
  | cons rw rest ih =>
    intro queueArray
    rw [List.foldl_cons, ih, mem_keys_fileNodes]
    simp only [List.flatten_cons, List.mem_append]
    constructor
    · rintro ((hk | ⟨n, hn, hnm⟩) | ⟨n, hn, hnm⟩)
      · exact Or.inl hk
      · exact Or.inr ⟨n, Or.inl hn, hnm⟩
      · exact Or.inr ⟨n, Or.inr hn, hnm⟩
    · rintro (hk | ⟨n, hn | hn, hnm⟩)
      · exact Or.inl (Or.inl hk)
      · exact Or.inl (Or.inr ⟨n, hn, hnm⟩)
      · exact Or.inr ⟨n, hn, hnm⟩

/-! ### The queues -/

/-- The queue `buildQueues` makes of one entry of `queueArray`. -/
theorem buildQueues_eq (h : Heap) (queueArray : GoMap Bytes (List NodeRef)) :
    buildQueues h queueArray = queueArray.keys.foldl (fun queues key => queues.insert key
      ⟨(initialSorting h (queueArray.findD key [])).1, (initialSorting h (queueArray.findD key [])).2,
        0, 0⟩) GoMap.empty := rfl

theorem keys_buildQueues (h : Heap) (queueArray : GoMap Bytes (List NodeRef)) :
    (buildQueues h queueArray).keys = queueArray.keys := by
  have := GoMap.keys_foldl_insert (fun key : Bytes => key) (fun key => (⟨(initialSorting h
    (queueArray.findD key [])).1, (initialSorting h (queueArray.findD key [])).2, 0, 0⟩ : Queue))
    queueArray.keys GoMap.empty (by simpa using queueArray.nodup) (by simp)
  rw [buildQueues_eq]
  simpa using this

/-- The queue of a name present in `queueArray`: its reads, then its other nodes, unnumbered. -/
theorem get?_buildQueues (h : Heap) (queueArray : GoMap Bytes (List NodeRef)) {key : Bytes}
    (hk : key ∈ queueArray.keys) :
    (buildQueues h queueArray).get? key = some ⟨(queueArray.findD key []).filter fun n => (h n).label = .r,
      (queueArray.findD key []).filter fun n => (h n).label ≠ .r, 0, 0⟩ := by
  rw [buildQueues_eq]
  exact GoMap.get?_foldl_insert (fun key : Bytes => key) _ _ _ (by simpa using queueArray.nodup) key hk

/-! ### `Edges` -/

/-- The ID `CreateGraph` files a pointer list under. -/
def QueueGraph.firstId (h : Heap) (rw : List NodeRef) : Bytes := (h (rw.headD ⟨0, 0⟩)).transInfo.id

theorem foldl_fileEdge_eq (h : Heap) (l : List (List NodeRef)) (edges : GoMap Bytes Edge) :
    l.foldl (fileEdge h) edges =
      l.foldl (fun m rw => m.insert (QueueGraph.firstId h rw) ⟨rw, false⟩) edges := rfl

/-! ## On a well-formed batch -/

section Wellformed

variable {batch : List (List RWNode)}

/-- The pointers `CreateGraph` files transaction `i` under. -/
theorem firstId_batchRefs (hw : BuiltBatch batch) {i : Nat} {tx : List RWNode}
    (htx : batch[i]? = some tx) :
    QueueGraph.firstId (Heap.ofBatch batch) ((List.range tx.length).map fun j => ⟨i, j⟩) = txId tx := by
  have hne : tx ≠ [] := hw.nonempty tx (List.mem_of_getElem? htx)
  obtain ⟨n, rest, rfl⟩ := List.exists_cons_of_ne_nil hne
  simp [QueueGraph.firstId, List.range_succ_eq_map, ofBatch_apply htx, txId]

theorem map_firstId_batchRefs (hw : BuiltBatch batch) :
    (batchRefs batch).map (QueueGraph.firstId (Heap.ofBatch batch)) = batch.map txId := by
  apply List.ext_getElem?
  intro i
  rw [List.getElem?_map, List.getElem?_map, getElem?_batchRefs]
  cases htx : batch[i]? with
  | none => rfl
  | some tx => simp [firstId_batchRefs hw htx]

/-- The edge keys are the transaction IDs in batch order. -/
theorem keys_foldl_fileEdge (hw : BuiltBatch batch) :
    ((batchRefs batch).foldl (fileEdge (Heap.ofBatch batch)) GoMap.empty).keys = batch.map txId := by
  rw [foldl_fileEdge_eq, GoMap.keys_foldl_insert _ _ _ _ (by rw [map_firstId_batchRefs hw]; exact hw.ids_nodup)
    (by simp), map_firstId_batchRefs hw]
  simp

/-- Transaction `i` is filed under its ID with its own pointers. -/
theorem get?_foldl_fileEdge (hw : BuiltBatch batch) {i : Nat} {tx : List RWNode}
    (htx : batch[i]? = some tx) :
    ((batchRefs batch).foldl (fileEdge (Heap.ofBatch batch)) GoMap.empty).get? (txId tx) =
      some ⟨(List.range tx.length).map fun j => ⟨i, j⟩, false⟩ := by
  rw [foldl_fileEdge_eq, ← firstId_batchRefs hw htx]
  refine GoMap.get?_foldl_insert _ (fun rw => (⟨rw, false⟩ : Edge)) _ _
    (by rw [map_firstId_batchRefs hw]; exact hw.ids_nodup) _ ?_
  exact mem_batchRefs.mpr ⟨i, tx, htx, rfl⟩

/-- Every node of the batch carries the ID of its own transaction. -/
theorem id_ofBatch (hw : BuiltBatch batch) {n : NodeRef} {tx : List RWNode}
    (htx : batch[n.tx]? = some tx) (hpos : n.pos < tx.length) :
    (Heap.ofBatch batch n).transInfo.id = txId tx := by
  have hbuilt := hw.built tx (List.mem_of_getElem? htx)
  rw [show n = ⟨n.tx, n.pos⟩ from rfl, ofBatch_apply htx hpos]
  exact hbuilt.id_eq (List.getElem_mem hpos)

/-- The graph `CreateGraph` builds from a batch of non-empty transactions. -/
def QueueGraph.ofBatch (batch : List (List RWNode)) : QueueGraph :=
  ⟨buildQueues (Heap.ofBatch batch) ((batchRefs batch).foldl (fileNodes (Heap.ofBatch batch)) GoMap.empty),
    (batchRefs batch).foldl (fileEdge (Heap.ofBatch batch)) GoMap.empty⟩

theorem createGraph_ofBatch (hw : BuiltBatch batch) :
    createGraph (Heap.ofBatch batch) (batchRefs batch) = .ok (QueueGraph.ofBatch batch) := by
  refine createGraph_eq _ fun rw hrw hnil => ?_
  rw [hnil] at hrw
  exact hw.nonempty [] (nil_mem_batchRefs_iff.mp hrw) rfl

/-- The queue names are the names of the keys the batch touches. -/
theorem mem_keys_ofBatch {k : Bytes} :
    k ∈ (QueueGraph.ofBatch batch).queues.keys ↔
      ∃ tx ∈ batch, ∃ n ∈ tx, convertByte2String n.rwSet.key = k := by
  simp only [QueueGraph.ofBatch]
  rw [keys_buildQueues, mem_keys_foldl_fileNodes]
  constructor
  · rintro ⟨n, hn, rfl⟩
    obtain ⟨tx, htx, hpos⟩ := mem_flatten_batchRefs.mp hn
    refine ⟨tx, List.mem_of_getElem? htx, tx[n.pos], List.getElem_mem hpos, ?_⟩
    rw [queueName]
    exact congrArg (fun x : RWNode => convertByte2String x.rwSet.key) (ofBatch_apply htx hpos).symm
  · rintro ⟨tx, htx, m, hm, rfl⟩
    obtain ⟨i, hi⟩ := List.mem_iff_getElem?.mp htx
    obtain ⟨j, hj, rfl⟩ := List.getElem_of_mem hm
    exact ⟨⟨i, j⟩, mem_flatten_batchRefs.mpr ⟨tx, hi, hj⟩, by rw [queueName, ofBatch_apply hi hj]⟩

/-- The writes filed in the queue of a name: the batch's nodes of that name not labelled `r`. -/
theorem mem_wSlice_ofBatch {k : Bytes} (hk : k ∈ (QueueGraph.ofBatch batch).queues.keys)
    {w : NodeRef} :
    w ∈ ((QueueGraph.ofBatch batch).queues.findD k Queue.zero).wSlice ↔
      w ∈ (batchRefs batch).flatten ∧ queueName (Heap.ofBatch batch) w = k ∧
        (Heap.ofBatch batch w).label ≠ .r := by
  have hk' : k ∈ ((batchRefs batch).foldl (fileNodes (Heap.ofBatch batch)) GoMap.empty).keys := by
    simpa only [QueueGraph.ofBatch, keys_buildQueues] using hk
  simp only [QueueGraph.ofBatch]
  rw [GoMap.findD_eq_of_get? (get?_buildQueues _ _ hk'), findD_foldl_fileNodes]
  simp only [List.mem_filter, decide_eq_true_eq]
  tauto

end Wellformed

end Nezha
