import Nezha.Models.ConflictQueue.Aborts
import Nezha.Models.ConflictQueue.RankDivision
import Nezha.Models.ConflictQueue.CommitOrder

/-!
# Why `DeSS` aborts a transaction

On a well-formed batch every queue `CreateGraph` builds meets `QueueCtx`: one
key, at most one read and one write per transaction, and edges that list
exactly the transaction's own nodes. `sortInQueue` keeps all of this and
aborts only conflicting writers (`sortInQueue_aborts`), so along the loop of
`DeSS` every abort flag belongs to a transaction that writes a key another
transaction reads or writes. The order in which `QueuesSort` hands out the
queues plays no part.
-/

namespace Nezha

/-- Two transactions conflict when one writes a key the other reads or writes. -/
def Conflicting (T T' : List RWNode) : Prop :=
  (∃ k ∈ writeKeys T, k ∈ readKeys T' ∨ k ∈ writeKeys T') ∨ ∃ k ∈ readKeys T, k ∈ writeKeys T'

instance (T T' : List RWNode) : Decidable (Conflicting T T') :=
  inferInstanceAs (Decidable (_ ∨ _))

/-- What transaction `i` of a batch may be aborted for: it writes a key that
another transaction of the batch reads or writes. -/
def WriteConflict (batch : List (List RWNode)) (i : Nat) : Prop :=
  ∃ j < batch.length, j ≠ i ∧
    ∃ k ∈ writeKeys (batch.getD i []), k ∈ readKeys (batch.getD j []) ∨ k ∈ writeKeys (batch.getD j [])

/-- Two positions of a list that pass a filter and share their image, where
the image of the filtered list has no duplicates, are one position. -/
theorem eq_of_nodup_map_filter {α β : Type} {p : α → Bool} {f : α → β} :
    ∀ {l : List α}, ((l.filter p).map f).Nodup → ∀ {i j : Nat} (hi : i < l.length) (hj : j < l.length),
      p l[i] = true → p l[j] = true → f l[i] = f l[j] → i = j
  | [], _, _, _, hi, _, _, _, _ => absurd hi (Nat.not_lt_zero _)
  | a :: l, hnd, i, j, hi, hj, hpi, hpj, hf => by
    rw [List.filter_cons] at hnd
    cases i with
    | zero =>
      cases j with
      | zero => rfl
      | succ j =>
        -- `a` passes the filter, so its image is not among the later ones
        have hj' : j < l.length := Nat.lt_of_succ_lt_succ hj
        rw [if_pos (show p a = true from hpi), List.map_cons, List.nodup_cons] at hnd
        exact absurd (List.mem_map.mpr ⟨l[j], List.mem_filter.mpr ⟨List.getElem_mem _, hpj⟩, hf.symm⟩) hnd.1
    | succ i =>
      cases j with
      | zero =>
        have hi' : i < l.length := Nat.lt_of_succ_lt_succ hi
        rw [if_pos (show p a = true from hpj), List.map_cons, List.nodup_cons] at hnd
        exact absurd (List.mem_map.mpr ⟨l[i], List.mem_filter.mpr ⟨List.getElem_mem _, hpi⟩, hf⟩) hnd.1
      | succ j =>
        have hnd' : ((l.filter p).map f).Nodup := by
          split at hnd
          · exact (List.nodup_cons.mp hnd).2
          · exact hnd
        rw [eq_of_nodup_map_filter hnd' (Nat.lt_of_succ_lt_succ hi) (Nat.lt_of_succ_lt_succ hj) hpi hpj hf]

/-! ## The graph of a batch -/

/-- The pointers of a batch are all distinct. -/
theorem nodup_flatten_batchRefs (batch : List (List RWNode)) : (batchRefs batch).flatten.Nodup := by
  refine List.nodup_flatten.mpr ⟨fun rw hrw => ?_, ?_⟩
  · obtain ⟨i, tx, -, rfl⟩ := mem_batchRefs.mp hrw
    exact List.nodup_range.map fun a b h => by cases h; rfl
  · unfold batchRefs
    rw [List.pairwise_map]
    refine List.Pairwise.imp (fun {i j} hij => ?_) List.nodup_range
    intro n hn hn'
    obtain ⟨a, -, rfl⟩ := List.mem_map.mp hn
    obtain ⟨b, -, hb⟩ := List.mem_map.mp hn'
    exact hij (congrArg NodeRef.tx hb).symm

/-- The queue of any name in the graph of a batch: the batch's nodes of that
name in batch order, split into reads and the others, nothing numbered. -/
theorem findD_queues_ofBatch (batch : List (List RWNode)) (name : Bytes) :
    (QueueGraph.ofBatch batch).queues.findD name Queue.zero =
      ⟨((batchRefs batch).flatten.filter fun n => queueName (Heap.ofBatch batch) n = name).filter
          fun n => (Heap.ofBatch batch n).label = .r,
        ((batchRefs batch).flatten.filter fun n => queueName (Heap.ofBatch batch) n = name).filter
          fun n => (Heap.ofBatch batch n).label ≠ .r, 0, 0⟩ := by
  simp only [QueueGraph.ofBatch]
  by_cases hk : name ∈ ((batchRefs batch).foldl (fileNodes (Heap.ofBatch batch)) GoMap.empty).keys
  · rw [GoMap.findD_eq_of_get? (get?_buildQueues _ _ hk), findD_foldl_fileNodes]
  · -- a name no node carries has the zero queue, and no node to filter
    have hnil : ((batchRefs batch).flatten.filter fun n => queueName (Heap.ofBatch batch) n = name) = [] := by
      rw [List.filter_eq_nil_iff]
      intro n hn hname
      exact hk ((mem_keys_foldl_fileNodes _ _ _).mpr ⟨n, hn, of_decide_eq_true hname⟩)
    rw [GoMap.findD_of_not_mem (by rwa [keys_buildQueues]), hnil]
    rfl

/-- Every edge of the graph of a batch starts unaborted. -/
theorem aborted_ofBatch {batch : List (List RWNode)} (hw : Wellformed batch) (id : Bytes) :
    ((QueueGraph.ofBatch batch).edges.findD id Edge.zero).isAborted = false := by
  simp only [QueueGraph.ofBatch]
  by_cases hk : id ∈ ((batchRefs batch).foldl (fileEdge (Heap.ofBatch batch)) GoMap.empty).keys
  · rw [keys_foldl_fileEdge hw.toBuiltBatch] at hk
    obtain ⟨tx, htx, rfl⟩ := List.mem_map.mp hk
    obtain ⟨i, hi⟩ := List.mem_iff_getElem?.mp htx
    rw [GoMap.findD_eq_of_get? (get?_foldl_fileEdge hw.toBuiltBatch hi)]
  · rw [GoMap.findD_of_not_mem hk]
    rfl

namespace SortState

/-- The state `sortInQueue` starts from on the queue of `name` when no queue
has been sorted yet. -/
def ofBatch (batch : List (List RWNode)) (name : Bytes) : SortState :=
  ⟨Heap.ofBatch batch, (QueueGraph.ofBatch batch).edges, (QueueGraph.ofBatch batch).queues.findD name Queue.zero⟩

section Wellformed

variable {batch : List (List RWNode)} {name : Bytes}

theorem mem_rSlice_ofBatch {r : NodeRef} :
    r ∈ (ofBatch batch name).queue.rSlice ↔ r ∈ (batchRefs batch).flatten ∧
      queueName (Heap.ofBatch batch) r = name ∧ (Heap.ofBatch batch r).label = .r := by
  simp only [ofBatch, findD_queues_ofBatch, List.mem_filter, decide_eq_true_eq, and_assoc]

theorem mem_wSlice_ofBatch {w : NodeRef} :
    w ∈ (ofBatch batch name).queue.wSlice ↔ w ∈ (batchRefs batch).flatten ∧
      queueName (Heap.ofBatch batch) w = name ∧ (Heap.ofBatch batch w).label = .w := by
  simp only [ofBatch, findD_queues_ofBatch, List.mem_filter, decide_eq_true_eq, label_ne_r, and_assoc]

/-- The edge of a node of a well-formed batch lists exactly its transaction's nodes. -/
theorem mem_edgeOf_ofBatch (hw : Wellformed batch) {n : NodeRef} (hn : n ∈ (batchRefs batch).flatten)
    {m : NodeRef} : m ∈ ((ofBatch batch name).edgeOf n).set ↔ m ∈ (batchRefs batch).flatten ∧ m.tx = n.tx := by
  obtain ⟨tx, htx, hpos⟩ := mem_flatten_batchRefs.mp hn
  have hset : ((ofBatch batch name).edgeOf n).set = (List.range tx.length).map fun j => ⟨n.tx, j⟩ :=
    edgeSet_ofBatch hw.toBuiltBatch htx hpos
  rw [hset, List.mem_map, mem_flatten_batchRefs]
  constructor
  · rintro ⟨j, hj, rfl⟩
    exact ⟨⟨tx, htx, List.mem_range.mp hj⟩, rfl⟩
  · rintro ⟨⟨tx', htx', hpos'⟩, hmn⟩
    rw [hmn, htx] at htx'
    obtain rfl := Option.some.inj htx'
    exact ⟨m.pos, List.mem_range.mpr hpos', by rw [← hmn]⟩

/-- Two nodes of one transaction of a well-formed batch carry one `TransInfo`. -/
theorem transInfo_ofBatch (hw : Wellformed batch) {n m : NodeRef} (hn : n ∈ (batchRefs batch).flatten)
    (hm : m ∈ (batchRefs batch).flatten) (htx : n.tx = m.tx) :
    (Heap.ofBatch batch n).transInfo = (Heap.ofBatch batch m).transInfo := by
  obtain ⟨tx, hn', hpn, hpm⟩ := mem_flatten_batchRefs_of_tx_eq hn hm htx
  rw [show n = ⟨n.tx, n.pos⟩ from rfl, show m = ⟨n.tx, m.pos⟩ by rw [htx], ofBatch_apply hn' hpn,
    ofBatch_apply hn' hpm]
  exact (hw.built tx (List.mem_of_getElem? hn')).transInfo_eq (List.getElem_mem _) (List.getElem_mem _)

/-- In a well-formed batch a transaction has one read and one write of a key
at most: two of its nodes with one label and one key are one node. -/
theorem eq_of_key_ofBatch (hw : Wellformed batch) {n m : NodeRef} (hn : n ∈ (batchRefs batch).flatten)
    (hm : m ∈ (batchRefs batch).flatten) (htx : n.tx = m.tx)
    (hl : (Heap.ofBatch batch n).label = (Heap.ofBatch batch m).label)
    (hk : (Heap.ofBatch batch n).rwSet.key = (Heap.ofBatch batch m).rwSet.key) : n = m := by
  obtain ⟨tx, hn', hpn, hpm⟩ := mem_flatten_batchRefs_of_tx_eq hn hm htx
  have hmem := List.mem_of_getElem? hn'
  rw [show n = ⟨n.tx, n.pos⟩ from rfl, ofBatch_apply hn' hpn] at hl hk
  rw [show m = ⟨n.tx, m.pos⟩ by rw [htx], ofBatch_apply hn' hpm] at hl hk
  have hpos : n.pos = m.pos := by
    cases hlab : tx[n.pos].label with
    | r =>
      exact eq_of_nodup_map_filter (hw.reads_nodup tx hmem) hpn hpm (by simp [hlab])
        (by simp [← hl, hlab]) hk
    | w =>
      exact eq_of_nodup_map_filter (hw.writes_nodup tx hmem) hpn hpm (by simp [hlab])
        (by simp [← hl, hlab]) hk
  cases n
  cases m
  simp_all

/-- A node of the batch carries one of the batch's keys. -/
theorem key_mem_batchKeys_ofBatch {n : NodeRef} (hn : n ∈ (batchRefs batch).flatten) :
    (Heap.ofBatch batch n).rwSet.key ∈ batchKeys batch := by
  obtain ⟨tx, htx, hpos⟩ := mem_flatten_batchRefs.mp hn
  rw [show n = ⟨n.tx, n.pos⟩ from rfl, ofBatch_apply htx hpos]
  exact mem_batchKeys.mpr ⟨tx, List.mem_of_getElem? htx, _, List.getElem_mem hpos, rfl⟩

/-- With no nil key beside an empty one, two nodes of the batch share a queue
exactly when they share a key. -/
theorem queueName_eq_iff (hkeys : NoNilEmptyClash batch) {n m : NodeRef}
    (hn : n ∈ (batchRefs batch).flatten) (hm : m ∈ (batchRefs batch).flatten) :
    queueName (Heap.ofBatch batch) n = queueName (Heap.ofBatch batch) m ↔
      (Heap.ofBatch batch n).rwSet.key = (Heap.ofBatch batch m).rwSet.key :=
  hkeys.name_eq_iff (key_mem_batchKeys_ofBatch hn) (key_mem_batchKeys_ofBatch hm)

/-- Every queue of a well-formed batch meets what `sortInQueue` assumes. -/
theorem queueCtx_ofBatch (hw : Wellformed batch) (name : Bytes) : QueueCtx (ofBatch batch name) := by
  -- two nodes of one queue have one key
  have hkey : ∀ {n m : NodeRef}, n ∈ (batchRefs batch).flatten → m ∈ (batchRefs batch).flatten →
      queueName (Heap.ofBatch batch) n = name → queueName (Heap.ofBatch batch) m = name →
      (Heap.ofBatch batch n).rwSet.key = (Heap.ofBatch batch m).rwSet.key :=
    fun hn hm hnq hmq => (queueName_eq_iff hw.keys_apart hn hm).mp (hnq.trans hmq.symm)
  refine ⟨fun r hr => (mem_rSlice_ofBatch.mp hr).2.2, fun w hw r hr => ?_, ?_, ?_,
    fun r hr m hm => ?_, fun w hw' r hr hrw => ?_⟩
  · exact hkey (mem_rSlice_ofBatch.mp hr).1 (mem_wSlice_ofBatch.mp hw).1 (mem_rSlice_ofBatch.mp hr).2.1
      (mem_wSlice_ofBatch.mp hw).2.1
  · refine List.Nodup.map_on (fun x hx y hy hxy => ?_) ?_
    · obtain ⟨hx₁, hx₂, hx₃⟩ := mem_rSlice_ofBatch.mp hx
      obtain ⟨hy₁, hy₂, hy₃⟩ := mem_rSlice_ofBatch.mp hy
      exact eq_of_key_ofBatch hw hx₁ hy₁ hxy (hx₃.trans hy₃.symm) (hkey hx₁ hy₁ hx₂ hy₂)
    · simp only [ofBatch, findD_queues_ofBatch]
      exact ((nodup_flatten_batchRefs batch).filter _).filter _
  · refine List.Nodup.map_on (fun x hx y hy hxy => ?_) ?_
    · obtain ⟨hx₁, hx₂, hx₃⟩ := mem_wSlice_ofBatch.mp hx
      obtain ⟨hy₁, hy₂, hy₃⟩ := mem_wSlice_ofBatch.mp hy
      exact eq_of_key_ofBatch hw hx₁ hy₁ hxy (hx₃.trans hy₃.symm) (hkey hx₁ hy₁ hx₂ hy₂)
    · simp only [ofBatch, findD_queues_ofBatch]
      exact ((nodup_flatten_batchRefs batch).filter _).filter _
  · exact ((mem_edgeOf_ofBatch hw (mem_rSlice_ofBatch.mp hr).1).mp hm).2
  · have hr₁ := (mem_rSlice_ofBatch.mp hr).1
    have hw₁ := (mem_wSlice_ofBatch.mp hw').1
    exact ⟨(mem_edgeOf_ofBatch hw hw₁).mpr ⟨hr₁, hrw⟩, transInfo_ofBatch hw hr₁ hw₁ hrw⟩

/-- A node of the batch reads or writes its key in its own transaction. -/
theorem key_mem_ofBatch {n : NodeRef} (hn : n ∈ (batchRefs batch).flatten) :
    n.tx < batch.length ∧
      ((Heap.ofBatch batch n).label = .r → (Heap.ofBatch batch n).rwSet.key ∈ readKeys (batch.getD n.tx [])) ∧
      ((Heap.ofBatch batch n).label = .w → (Heap.ofBatch batch n).rwSet.key ∈ writeKeys (batch.getD n.tx [])) := by
  obtain ⟨tx, htx, hpos⟩ := mem_flatten_batchRefs.mp hn
  have hget : batch.getD n.tx [] = tx := by simp [List.getD_eq_getElem?_getD, htx]
  rw [hget, show n = ⟨n.tx, n.pos⟩ from rfl, ofBatch_apply htx hpos]
  exact ⟨(List.getElem?_eq_some_iff.mp htx).1,
    fun hl => mem_readKeys.mpr ⟨_, List.getElem_mem hpos, hl, rfl⟩,
    fun hl => mem_writeKeys.mpr ⟨_, List.getElem_mem hpos, hl, rfl⟩⟩

/-- A conflicting writer of a queue of the batch belongs to a transaction with
a write conflict, and carries its ID. -/
theorem writeConflict_of_conflictingWriter (hw : Wellformed batch) {w : NodeRef}
    (h : ConflictingWriter (ofBatch batch name) w) :
    w.tx < batch.length ∧ txId (batch.getD w.tx []) = (Heap.ofBatch batch w).transInfo.id ∧
      WriteConflict batch w.tx := by
  obtain ⟨hw', hother⟩ := h
  obtain ⟨hw₁, hw₂, hw₃⟩ := mem_wSlice_ofBatch.mp hw'
  obtain ⟨hlt, -, hwrite⟩ := key_mem_ofBatch hw₁
  obtain ⟨tx, htx, hpos⟩ := mem_flatten_batchRefs.mp hw₁
  have hid : txId (batch.getD w.tx []) = (Heap.ofBatch batch w).transInfo.id := by
    rw [id_ofBatch hw.toBuiltBatch htx hpos]
    simp [List.getD_eq_getElem?_getD, htx]
  refine ⟨hlt, hid, ?_⟩
  rcases hother with ⟨r, hr, hne⟩ | ⟨w', hw'', hne⟩
  · obtain ⟨hr₁, hr₂, hr₃⟩ := mem_rSlice_ofBatch.mp hr
    obtain ⟨hrlt, hread, -⟩ := key_mem_ofBatch hr₁
    refine ⟨r.tx, hrlt, hne, _, hwrite hw₃, Or.inl ?_⟩
    rw [← (queueName_eq_iff hw.keys_apart hr₁ hw₁).mp (hr₂.trans hw₂.symm)]
    exact hread hr₃
  · obtain ⟨hw₁', hw₂', hw₃'⟩ := mem_wSlice_ofBatch.mp hw''
    obtain ⟨hwlt, -, hwrite'⟩ := key_mem_ofBatch hw₁'
    refine ⟨w'.tx, hwlt, hne, _, hwrite hw₃, Or.inr ?_⟩
    rw [← (queueName_eq_iff hw.keys_apart hw₁' hw₁).mp (hw₂'.trans hw₂.symm)]
    exact hwrite' hw₃'

end Wellformed

/-- A frame with another queue in place of the sorted one. -/
theorem Frame.with_queue {s s' : SortState} (hf : Frame s s') (q : Queue) :
    Frame ⟨s.heap, s.edges, q⟩ ⟨s'.heap, s'.edges, q⟩ :=
  ⟨hf.heap, hf.edges_keys, hf.edges_set, hf.aborted, rfl, rfl⟩

theorem ConflictingWriter.of_frame {s s' : SortState} (hf : Frame s s') {w : NodeRef}
    (h : ConflictingWriter s' w) : ConflictingWriter s w := by
  simpa only [ConflictingWriter, hf.rSlice, hf.wSlice] using h

end SortState

/-! ## The loop of `DeSS` -/

/-- What the loop of `DeSS` keeps from the graph `CreateGraph` builds: every
queue is a frame of where it started, a queue without reads has `maxRead`
zero, no number is negative, and every abort flag belongs to a transaction
with a write conflict. -/
structure SortedSoFar (batch : List (List RWNode)) (hc : Heap × QueueGraph) : Prop where
  frame : ∀ name, SortState.Frame (SortState.ofBatch batch name)
    ⟨hc.1, hc.2.edges, hc.2.queues.findD name Queue.zero⟩
  maxRead : ∀ name, 0 < (hc.2.queues.findD name Queue.zero).maxRead →
    (hc.2.queues.findD name Queue.zero).rSlice ≠ []
  nonneg : LoopNonneg hc
  aborted : ∀ id, (hc.2.edges.findD id Edge.zero).isAborted = true →
    ∃ i < batch.length, txId (batch.getD i []) = id ∧ WriteConflict batch i

section Loop

variable {batch : List (List RWNode)} (hw : Wellformed batch)

include hw

theorem sortedSoFar_start : SortedSoFar batch (Heap.ofBatch batch, QueueGraph.ofBatch batch) := by
  refine ⟨fun name => SortState.Frame.refl _, fun name hpos => ?_,
    loopNonneg_of_zero (fun n => by rw [sequence_ofBatch hw.toBuiltBatch]) fun name => ?_, fun id hid => ?_⟩
  · rw [findD_queues_ofBatch] at hpos
    exact absurd hpos (Int.lt_irrefl 0)
  · simp [findD_queues_ofBatch]
  · rw [aborted_ofBatch hw] at hid
    exact absurd hid Bool.false_ne_true

/-- Sorting one more queue keeps `SortedSoFar`. -/
theorem SortedSoFar.step {hc : Heap × QueueGraph} (hI : SortedSoFar batch hc) (name : Bytes) :
    SortedSoFar batch (Unbounded.sortQueueNamed hc name) := by
  obtain ⟨h, cq⟩ := hc
  have hctx := (SortState.queueCtx_ofBatch hw name).frame (hI.frame name)
  obtain ⟨hab, hmax⟩ := SortState.sortInQueue_aborts hctx (hI.maxRead name) (hI.nonneg name)
  refine ⟨fun name' => ?_, fun name' => ?_, hI.nonneg.step name, fun id hid => ?_⟩
  · -- the written-back queue, or one left as it was
    rcases Unbounded.findD_sortQueueNamed (h, cq) name name' with ⟨hq, rfl⟩ | hq
    · rw [hq]
      exact (hI.frame name').trans hab.frame
    · rw [hq]
      exact (hI.frame name').trans (hab.frame.with_queue _)
  · rcases Unbounded.findD_sortQueueNamed (h, cq) name name' with ⟨hq, rfl⟩ | hq
    · rw [hq, hab.frame.rSlice]
      exact hmax
    · rw [hq]
      exact hI.maxRead name'
  · rcases hab.aborted id hid with hold | ⟨w, hcw, hwid⟩
    · exact hI.aborted id hold
    · obtain ⟨hlt, hid', hwc⟩ := SortState.writeConflict_of_conflictingWriter hw
        (SortState.ConflictingWriter.of_frame (hI.frame name) hcw)
      refine ⟨w.tx, hlt, ?_, hwc⟩
      rw [hid', ← hwid]
      exact congrArg TransInfo.id ((hI.frame name).heap.transInfo w).symm

/-- The loop of `DeSS` keeps `SortedSoFar`, whatever order it sorts the queues in. -/
theorem sortedSoFar_foldl (sequence : List Bytes) :
    SortedSoFar batch (sequence.foldl Unbounded.sortQueueNamed (Heap.ofBatch batch, QueueGraph.ofBatch batch)) :=
  foldl_invariant sequence (fun _ name _ hI => hI.step hw name) _ (sortedSoFar_start hw)

/-- Two transactions of a well-formed batch with one ID are one transaction. -/
theorem index_eq_of_txId {i j : Nat} (hi : i < batch.length) (hj : j < batch.length)
    (h : txId (batch.getD i []) = txId (batch.getD j [])) : i = j := by
  have hi' : i < (batch.map txId).length := by rwa [List.length_map]
  have hj' : j < (batch.map txId).length := by rwa [List.length_map]
  rw [List.getD_eq_getElem _ _ hi, List.getD_eq_getElem _ _ hj] at h
  have hget : (batch.map txId).get ⟨i, hi'⟩ = (batch.map txId).get ⟨j, hj'⟩ := by
    simpa only [List.get_eq_getElem, List.getElem_map] using h
  exact Fin.mk.inj_iff.mp (List.nodup_iff_injective_get.mp hw.ids_nodup hget)

end Loop

/-- A run of the pipeline on a well-formed batch returns exactly when
`QueuesSort` returns an order of the queues and `DeSS` on that order returns. -/
theorem runNezha_ok_iff {batch : List (List RWNode)} (hw : Wellformed batch) {σ : Schedule} {fuel : Nat}
    {res : Heap × QueueGraph × CommitOrder} :
    Unbounded.runNezha batch σ fuel = .ok res ↔ ∃ sequence,
      queuesSort (Heap.ofBatch batch) (QueueGraph.ofBatch batch) σ fuel = .ok sequence ∧
        Unbounded.deSS (Heap.ofBatch batch) (QueueGraph.ofBatch batch) σ sequence = .ok res := by
  unfold Unbounded.runNezha
  dsimp only
  rw [createGraph_ofBatch hw.toBuiltBatch, except_ok_bind]
  cases hs : queuesSort (Heap.ofBatch batch) (QueueGraph.ofBatch batch) σ fuel with
  | error e => simp
  | ok sequence => simp

/-- The graph `DeSS` returns is the one its loop over the queues leaves. -/
theorem deSS_graph {h h' : Heap} {cq cq' : QueueGraph} {σ : Schedule} {sequence : List Bytes}
    {co : CommitOrder} (hd : Unbounded.deSS h cq σ sequence = .ok (h', cq', co)) :
    cq' = (sequence.foldl Unbounded.sortQueueNamed (h, cq)).2 := by
  unfold Unbounded.deSS at hd
  generalize sequence.foldl Unbounded.sortQueueNamed (h, cq) = hc at hd
  obtain ⟨h₁, cq₁⟩ := hc
  dsimp only at hd
  cases hco : (σ.edges cq₁.edges.keys).foldlM (fileTransaction h₁ cq₁) GoMap.empty with
  | error e => simp [hco] at hd
  | ok co' =>
    simp only [hco, except_ok_bind, pure, Except.pure, Except.ok.injEq, Prod.mk.injEq] at hd
    exact hd.2.1.symm

/-- No spurious aborts: on a well-formed batch, a transaction that `DeSS`
aborts conflicts with another transaction of the batch. -/
theorem Unbounded.deSS_aborts_conflicting {batch : List (List RWNode)} (hw : Wellformed batch)
    {σ : Schedule} {fuel : Nat} {h : Heap} {cq : QueueGraph} {co : CommitOrder}
    (hrun : Unbounded.runNezha batch σ fuel = .ok (h, cq, co)) {i : Nat} (hi : i < batch.length)
    (hab : abortedIn batch cq i = true) :
    ∃ j < batch.length, j ≠ i ∧ Conflicting (batch.getD i []) (batch.getD j []) := by
  obtain ⟨sequence, -, hd⟩ := (runNezha_ok_iff hw).mp hrun
  obtain rfl := deSS_graph hd
  obtain ⟨i', hi', hid, j, hj, hji, k, hk, hk'⟩ := (sortedSoFar_foldl hw sequence).aborted _ hab
  obtain rfl := index_eq_of_txId hw hi' hi hid
  exact ⟨j, hj, hji, Or.inl ⟨k, hk, hk'⟩⟩

/-- Two transactions that both read and write the key `0x00`. -/
def sameKeyWriters : List (List RWNode) :=
  [[rwNode [48] .r [0], rwNode [48] .w [0]], [rwNode [49] .r [0], rwNode [49] .w [0]]]

theorem sameKeyWriters_wellformed : Wellformed sameKeyWriters where
  built := by
    simp only [sameKeyWriters, List.mem_cons, List.not_mem_nil, or_false]
    rintro tx (rfl | rfl)
    · exact ⟨[48], 0, [some [0]], [some [49]], [some [0]], [some [49]], rfl⟩
    · exact ⟨[49], 0, [some [0]], [some [49]], [some [0]], [some [49]], rfl⟩
  nonempty := by decide
  ids_nodup := by decide
  reads_nodup := by decide
  writes_nodup := by decide
  keys_apart := by decide

end Nezha
