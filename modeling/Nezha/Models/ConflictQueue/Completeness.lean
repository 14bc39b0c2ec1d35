import Nezha.Models.ConflictQueue.SequenceRange

/-!
# `DeSS` numbers every transaction and files each survivor once

The loop of `DeSS` sorts the queues one after another. On a well-formed batch
each sort keeps the numbers one per transaction, every number set at least
`initialSequence` (`SortState.sortInQueue_numbering`), and with
`initialSequence + N` below `math.MaxInt32` for a batch of `N` nodes the
free-slot search never runs out, so every queue, hence every node, leaves
numbered (`Unbounded.deSS_in_range`). The loop over `cq.Edges` then files
every surviving transaction once, under the number of its first node.

Without a bound the search does run out. On `M` transactions that each write
one key, the fresh-writer loop hands out `initialSequence`, `initialSequence + 1`,
and so on, and stops at `math.MaxInt32`: from there on the writers keep `0`.
-/

namespace Nezha

/-! ## The loop over `cq.Edges` -/

/-- The rank `DeSS` files the transaction with ID `t` under: the `Sequence`
of the first node of its edge. -/
def fileSeq (h : Heap) (cq : QueueGraph) (t : Bytes) : Int :=
  (h ((cq.edges.findD t Edge.zero).set.headD ⟨0, 0⟩)).sequence

/-- What the loop over the IDs `ids` files under rank `r`, in order: the write
nodes of every transaction of rank `r` that was not aborted. -/
def filedUnder (h : Heap) (cq : QueueGraph) (ids : List Bytes) (r : Int) : List (List NodeRef) :=
  (ids.filter fun t => !(cq.edges.findD t Edge.zero).isAborted && fileSeq h cq t == r).map
    fun t => writeNodes h (cq.edges.findD t Edge.zero).set

theorem filedUnder_cons (h : Heap) (cq : QueueGraph) (t : Bytes) (ids : List Bytes) (r : Int) :
    filedUnder h cq (t :: ids) r = filedUnder h cq [t] r ++ filedUnder h cq ids r := by
  simp only [filedUnder, List.filter_cons, List.filter_nil]
  split <;> rfl

theorem filedUnder_perm (h : Heap) (cq : QueueGraph) {ids ids' : List Bytes} (hp : ids.Perm ids')
    (r : Int) : (filedUnder h cq ids r).Perm (filedUnder h cq ids' r) :=
  (hp.filter _).map _

/-- One pass of the loop over `cq.Edges`, on a transaction with a node: it
files the transaction's write nodes under its rank unless it was aborted. -/
theorem fileTransaction_ok (h : Heap) (cq : QueueGraph) (co : CommitOrder) {t : Bytes}
    (hset : (cq.edges.findD t Edge.zero).set ≠ []) :
    ∃ co', fileTransaction h cq co t = .ok co' ∧
      ∀ r, co'.findD r [] = co.findD r [] ++ filedUnder h cq [t] r := by
  unfold fileTransaction
  cases hab : (cq.edges.findD t Edge.zero).isAborted with
  | true => exact ⟨co, by simp [hab, pure, Except.pure], fun r => by simp [filedUnder, hab]⟩
  | false =>
    obtain ⟨n, rest, hnr⟩ := List.exists_cons_of_ne_nil hset
    have hseq : fileSeq h cq t = (h n).sequence := by simp [fileSeq, hnr]
    refine ⟨co.insert (h n).sequence (co.findD (h n).sequence [] ++ [writeNodes h (n :: rest)]),
      by simp [hab, hnr, sliceIndex, pure, Except.pure], fun r => ?_⟩
    rw [GoMap.findD_insert]
    by_cases hr : r = (h n).sequence
    · subst hr
      simp [filedUnder, hab, hseq, hnr]
    · simp [filedUnder, hab, hseq, hr, Ne.symm hr]

/-- The loop over `cq.Edges` returns when every transaction it visits has a
node, and appends under each rank what `filedUnder` lists. -/
theorem foldlM_fileTransaction (h : Heap) (cq : QueueGraph) :
    ∀ (ids : List Bytes) (co : CommitOrder), (∀ t ∈ ids, (cq.edges.findD t Edge.zero).set ≠ []) →
      ∃ co', ids.foldlM (fileTransaction h cq) co = .ok co' ∧
        ∀ r, co'.findD r [] = co.findD r [] ++ filedUnder h cq ids r
  | [], co, _ => ⟨co, rfl, fun r => by simp [filedUnder]⟩
  | t :: ids, co, hset => by
    obtain ⟨co₁, h₁, hr₁⟩ := fileTransaction_ok h cq co (hset t List.mem_cons_self)
    obtain ⟨co₂, h₂, hr₂⟩ := foldlM_fileTransaction h cq ids co₁
      fun t' ht' => hset t' (List.mem_cons_of_mem t ht')
    refine ⟨co₂, by rw [List.foldlM_cons, h₁, except_ok_bind, h₂], fun r => ?_⟩
    rw [hr₂, hr₁, List.append_assoc, ← filedUnder_cons]

/-- `DeSS` returns when every transaction of the sorted graph has a node: the
sorted heap and graph, and a commit order holding under each rank what
`filedUnder` lists, in the order the runtime ranges over `cq.Edges`. -/
theorem deSS_ok {h h' : Heap} {cq cq' : QueueGraph} (σ : Schedule) {sequence : List Bytes}
    (hfold : sequence.foldl Unbounded.sortQueueNamed (h, cq) = (h', cq'))
    (hset : ∀ t ∈ cq'.edges.keys, (cq'.edges.findD t Edge.zero).set ≠ []) :
    ∃ co, Unbounded.deSS h cq σ sequence = .ok (h', cq', co) ∧
      ∀ r, co.findD r [] = filedUnder h' cq' (σ.edges cq'.edges.keys) r := by
  obtain ⟨co, hco, hr⟩ := foldlM_fileTransaction h' cq' (σ.edges cq'.edges.keys) GoMap.empty
    fun t ht => hset t ((σ.edges_perm _).subset ht)
  refine ⟨co, ?_, fun r => by rw [hr, GoMap.findD_of_not_mem (by simp), List.nil_append]⟩
  unfold Unbounded.deSS
  rw [hfold]
  dsimp only
  rw [hco]
  rfl

/-! ## The edges of a batch -/

section Edges

variable {batch : List (List RWNode)}

theorem getD_batchRefs {i : Nat} (hi : i < batch.length) :
    (batchRefs batch).getD i [] = (List.range (batch.getD i []).length).map fun j => ⟨i, j⟩ := by
  simp [batchRefs, List.getD_eq_getElem?_getD, hi]

/-- The queue of a node of the batch is among the queue names. -/
theorem queueName_mem_keys {n : NodeRef} (hn : n ∈ (batchRefs batch).flatten) :
    queueName (Heap.ofBatch batch) n ∈ (QueueGraph.ofBatch batch).queues.keys := by
  obtain ⟨tx, htx, hpos⟩ := mem_flatten_batchRefs.mp hn
  refine mem_keys_ofBatch.mpr ⟨tx, List.mem_of_getElem? htx, tx[n.pos], List.getElem_mem hpos, ?_⟩
  rw [queueName, ← ofBatch_apply htx hpos]

/-- A node of the batch sits in the queue of its key, among the reads or the writes. -/
theorem mem_queue_ofBatch {n : NodeRef} (hn : n ∈ (batchRefs batch).flatten) :
    n ∈ (SortState.ofBatch batch (queueName (Heap.ofBatch batch) n)).queue.rSlice ++
      (SortState.ofBatch batch (queueName (Heap.ofBatch batch) n)).queue.wSlice := by
  cases hl : (Heap.ofBatch batch n).label with
  | r => exact List.mem_append_left _ (SortState.mem_rSlice_ofBatch.mpr ⟨hn, rfl, hl⟩)
  | w => exact List.mem_append_right _ (SortState.mem_wSlice_ofBatch.mpr ⟨hn, rfl, hl⟩)

variable (hw : Wellformed batch)

include hw

theorem Wellformed.getD_ne_nil {i : Nat} (hi : i < batch.length) : batch.getD i [] ≠ [] :=
  hw.nonempty _ (List.getD_eq_getElem batch [] hi ▸ List.getElem_mem hi)

/-- Transaction `i` of a well-formed batch is filed in `Edges` with its own
pointers, not aborted. -/
theorem edge_ofBatch {i : Nat} (hi : i < batch.length) :
    (QueueGraph.ofBatch batch).edges.findD (txId (batch.getD i [])) Edge.zero =
      ⟨(batchRefs batch).getD i [], false⟩ := by
  have htx : batch[i]? = some (batch.getD i []) := by
    rw [List.getD_eq_getElem _ _ hi, List.getElem?_eq_getElem hi]
  simp only [QueueGraph.ofBatch]
  rw [GoMap.findD_eq_of_get? (get?_foldl_fileEdge hw.toBuiltBatch htx), getD_batchRefs hi]

/-- The first pointer of transaction `i`. -/
theorem headD_getD_batchRefs {i : Nat} (hi : i < batch.length) :
    ((batchRefs batch).getD i []).headD ⟨0, 0⟩ = ⟨i, 0⟩ := by
  obtain ⟨n, rest, hnr⟩ := List.exists_cons_of_ne_nil (hw.getD_ne_nil hi)
  rw [getD_batchRefs hi, hnr, List.length_cons, List.range_succ_eq_map]
  rfl

theorem getD_batchRefs_ne_nil {i : Nat} (hi : i < batch.length) : (batchRefs batch).getD i [] ≠ [] := by
  rw [getD_batchRefs hi]
  simpa using hw.getD_ne_nil hi

end Edges

/-! ## The loop over the queues -/

/-- A batch with room for its numbers below `math.MaxInt32` has at most
`math.MaxInt64` nodes, as rank division needs. -/
theorem size_le_maxInt64 {N : Nat} (hsize : initialSequence + N < maxInt32) : (N : Int) ≤ maxInt64 := by
  simp only [initialSequence, maxInt32] at hsize
  simp only [maxInt64]
  omega

/-- What the loop of `DeSS` keeps on top of `SortedSoFar`: the numbers one per
transaction, and every number and every `maxRead` unset or at least
`initialSequence`. -/
structure NumberedSoFar (batch : List (List RWNode)) (hc : Heap × QueueGraph) : Prop where
  sorted : SortedSoFar batch hc
  numbering : Numbering batch hc.1
  maxRead : ∀ name, MaxReadOK (hc.2.queues.findD name Queue.zero)

section Loop

variable {batch : List (List RWNode)} (hw : Wellformed batch)

/-- The state the loop hands to the sort of the queue `name`. -/
theorem NumberedSoFar.within {hc : Heap × QueueGraph} (hI : NumberedSoFar batch hc)
    (name : Bytes) : SortState.Within batch name ⟨hc.1, hc.2.edges, hc.2.queues.findD name Queue.zero⟩ :=
  ⟨hI.sorted.frame name, hI.numbering, hI.maxRead name⟩

include hw

theorem numberedSoFar_start : NumberedSoFar batch (Heap.ofBatch batch, QueueGraph.ofBatch batch) :=
  ⟨sortedSoFar_start hw, numbering_ofBatch hw.toBuiltBatch, fun name => Or.inl (by rw [findD_queues_ofBatch])⟩

/-- Sorting one more queue keeps `NumberedSoFar`. -/
theorem NumberedSoFar.step {hc : Heap × QueueGraph} (hI : NumberedSoFar batch hc) (name : Bytes) :
    NumberedSoFar batch (Unbounded.sortQueueNamed hc name) := by
  obtain ⟨h, cq⟩ := hc
  have hW := SortState.sortInQueue_numbering hw (hI.within name)
  refine ⟨hI.sorted.step hw name, hW.numbering, fun name' => ?_⟩
  -- the written-back queue, or one left as it was
  rcases Unbounded.findD_sortQueueNamed (h, cq) name name' with ⟨hq, rfl⟩ | hq
  · rw [hq]
    exact hW.maxRead
  · rw [hq]
    exact hI.maxRead name'

/-- The loop of `DeSS` keeps `NumberedSoFar`, whatever order it sorts the queues in. -/
theorem numberedSoFar_foldl (sequence : List Bytes) :
    NumberedSoFar batch (sequence.foldl Unbounded.sortQueueNamed (Heap.ofBatch batch, QueueGraph.ofBatch batch)) :=
  foldl_invariant sequence (fun _ name _ hI => hI.step hw name) _ (numberedSoFar_start hw)

end Loop

/-! ## The whole pipeline -/

section Pipeline

variable {batch : List (List RWNode)} (hw : Wellformed batch)

include hw

/-- The loop over the queues keeps the transaction IDs of `Edges`. -/
theorem SortedSoFar.keys_edges {hc : Heap × QueueGraph} (hI : SortedSoFar batch hc) :
    hc.2.edges.keys = batch.map txId :=
  (hI.frame []).edges_keys.trans (keys_foldl_fileEdge hw.toBuiltBatch)

/-- The loop over the queues keeps the node list of every transaction. -/
theorem SortedSoFar.edge_set {hc : Heap × QueueGraph} (hI : SortedSoFar batch hc) {i : Nat}
    (hi : i < batch.length) :
    (hc.2.edges.findD (txId (batch.getD i [])) Edge.zero).set = (batchRefs batch).getD i [] := by
  rw [(hI.frame []).edges_set]
  exact congrArg Edge.set (edge_ofBatch hw hi)

/-- After the loop over the queues, what the loop over `cq.Edges` files under a
rank, in whatever order it visits the IDs, is the write nodes of the surviving
transactions of that rank, each once. -/
theorem SortedSoFar.filedUnder_perm_survivors {hc : Heap × QueueGraph} (hI : SortedSoFar batch hc)
    {ids : List Bytes} (hids : ids.Perm (batch.map txId)) (r : Int) :
    (filedUnder hc.1 hc.2 ids r).Perm (((List.range batch.length).filter fun i =>
      !abortedIn batch hc.2 i && seqOf hc.1 i == r).map fun i => writeNodes hc.1 ((batchRefs batch).getD i [])) := by
  have hset : ∀ i ∈ List.range batch.length,
      (hc.2.edges.findD (txId (batch.getD i [])) Edge.zero).set = (batchRefs batch).getD i [] :=
    fun i hi => hI.edge_set hw (List.mem_range.mp hi)
  have hids' : batch.map txId = (List.range batch.length).map fun i => txId (batch.getD i []) := by
    conv_lhs => rw [← map_getD_range batch]
    rw [List.map_map]
    rfl
  refine (filedUnder_perm hc.1 hc.2 (hids.trans (List.Perm.of_eq hids')) r).trans (List.Perm.of_eq ?_)
  unfold filedUnder
  rw [List.filter_map, List.map_map]
  have hfilter : (List.range batch.length).filter ((fun t => !(hc.2.edges.findD t Edge.zero).isAborted &&
      fileSeq hc.1 hc.2 t == r) ∘ fun i => txId (batch.getD i [])) =
      (List.range batch.length).filter fun i => !abortedIn batch hc.2 i && seqOf hc.1 i == r := by
    refine List.filter_congr fun i hi => ?_
    simp only [Function.comp_apply, fileSeq, hset i hi, headD_getD_batchRefs hw (List.mem_range.mp hi)]
    rfl
  rw [hfilter]
  refine List.map_congr_left fun i hi => ?_
  simp only [Function.comp_apply, hset i (List.mem_of_mem_filter hi)]

/-- `DeSS` on the graph of a well-formed batch returns, for every order of the
queues: the loop over the queues, then a commit order holding under each rank
the write nodes of the surviving transactions of that rank, each once. -/
theorem deSS_ofBatch (σ : Schedule) (sequence : List Bytes) :
    ∃ co, Unbounded.deSS (Heap.ofBatch batch) (QueueGraph.ofBatch batch) σ sequence =
        .ok ((sequence.foldl Unbounded.sortQueueNamed (Heap.ofBatch batch, QueueGraph.ofBatch batch)).1,
          (sequence.foldl Unbounded.sortQueueNamed (Heap.ofBatch batch, QueueGraph.ofBatch batch)).2, co) ∧
      ∀ r, (co.findD r []).Perm (((List.range batch.length).filter fun i =>
        !abortedIn batch (sequence.foldl Unbounded.sortQueueNamed (Heap.ofBatch batch, QueueGraph.ofBatch batch)).2 i &&
          seqOf (sequence.foldl Unbounded.sortQueueNamed (Heap.ofBatch batch, QueueGraph.ofBatch batch)).1 i == r).map
        fun i => writeNodes (sequence.foldl Unbounded.sortQueueNamed (Heap.ofBatch batch, QueueGraph.ofBatch batch)).1
          ((batchRefs batch).getD i [])) := by
  have hI := sortedSoFar_foldl hw sequence
  -- every ID in `Edges` is that of a transaction of the batch, whose node list is not empty
  have hset : ∀ t ∈ (sequence.foldl Unbounded.sortQueueNamed (Heap.ofBatch batch, QueueGraph.ofBatch batch)).2.edges.keys,
      ((sequence.foldl Unbounded.sortQueueNamed (Heap.ofBatch batch, QueueGraph.ofBatch batch)).2.edges.findD t
        Edge.zero).set ≠ [] := by
    intro t ht
    rw [hI.keys_edges hw] at ht
    obtain ⟨tx, htx, rfl⟩ := List.mem_map.mp ht
    obtain ⟨i, hi, rfl⟩ := List.getElem_of_mem htx
    rw [← List.getD_eq_getElem _ [] hi, hI.edge_set hw hi]
    exact getD_batchRefs_ne_nil hw hi
  obtain ⟨co, hd, hco⟩ := deSS_ok σ rfl hset
  refine ⟨co, hd, fun r => ?_⟩
  rw [hco]
  exact hI.filedUnder_perm_survivors hw (((σ.edges_perm _).trans (List.Perm.of_eq (hI.keys_edges hw)))) r

end Pipeline

/-- Over the unbounded loops, `DeSS` loses and duplicates nothing, on a
non-empty well-formed batch of `N` nodes with `initialSequence + N` below
`math.MaxInt32`, for every order the runtime ranges over maps in: the
pipeline returns once rank division has one iteration per queue, and every
run that returns leaves every node numbered at least `initialSequence`,
every node with the number of its transaction's first node, and under each
rank the write nodes of the surviving transactions of that rank, each once. -/
theorem Unbounded.runNezha_numbers_every_transaction {batch : List (List RWNode)} (hw : Wellformed batch)
    (hne : batch ≠ []) (hsize : initialSequence + (batch.map List.length).sum < maxInt32)
    (σ : Schedule) :
    (∀ fuel, (QueueGraph.ofBatch batch).queues.keys.length ≤ fuel → ∃ res, Unbounded.runNezha batch σ fuel = .ok res) ∧
      ∀ fuel h cq co, Unbounded.runNezha batch σ fuel = .ok (h, cq, co) →
        (∀ n ∈ (batchRefs batch).flatten, initialSequence ≤ (h n).sequence) ∧
        (∀ n ∈ (batchRefs batch).flatten, (h n).sequence = seqOf h n.tx) ∧
        ∀ r, (co.findD r []).Perm (((List.range batch.length).filter fun i =>
          !abortedIn batch cq i && seqOf h i == r).map fun i => writeNodes h ((batchRefs batch).getD i [])) := by
  have h64 := size_le_maxInt64 hsize
  refine ⟨fun fuel hfuel => ?_, fun fuel h cq co hrun => ?_⟩
  · obtain ⟨sequence, hs, -⟩ := queuesSort_ok hw.toBuiltBatch σ hw.keys_apart hne h64 hfuel
    obtain ⟨co, hd, -⟩ := deSS_ofBatch hw σ sequence
    exact ⟨_, (runNezha_ok_iff hw).mpr ⟨sequence, hs, hd⟩⟩
  obtain ⟨sequence, hs, hd⟩ := (runNezha_ok_iff hw).mp hrun
  obtain ⟨co', hd', hco⟩ := deSS_ofBatch hw σ sequence
  obtain ⟨rfl, rfl, rfl⟩ : (sequence.foldl Unbounded.sortQueueNamed (Heap.ofBatch batch, QueueGraph.ofBatch batch)).1 = h ∧
      (sequence.foldl Unbounded.sortQueueNamed (Heap.ofBatch batch, QueueGraph.ofBatch batch)).2 = cq ∧ co' = co := by
    simpa only [hd', Except.ok.injEq, Prod.mk.injEq] using hd
  -- the queues come out each once, so the numbers stay below the bound and every node is numbered
  have hperm := queuesSort_perm_of_ok hw.toBuiltBatch σ hw.keys_apart hne h64 hs
  have hnum := (Unbounded.deSS_in_range hw.unnumbered (createGraph_ofBatch hw.toBuiltBatch)
    (hperm.nodup_iff.mpr (QueueGraph.ofBatch batch).queues.nodup)).2 hsize
  have hN := numberedSoFar_foldl hw sequence
  have hnz : ∀ n ∈ (batchRefs batch).flatten,
      ((sequence.foldl Unbounded.sortQueueNamed (Heap.ofBatch batch, QueueGraph.ofBatch batch)).1 n).sequence ≠ 0 :=
    fun n hn => hnum _ (hperm.mem_iff.mpr (queueName_mem_keys hn)) n (mem_queue_ofBatch hn)
  refine ⟨fun n hn => hN.numbering.ge hn (hnz n hn), fun n hn => ?_, hco⟩
  -- the first node of the transaction is a node of the batch too
  obtain ⟨tx, htx, -⟩ := mem_flatten_batchRefs.mp hn
  have h₀ : (⟨n.tx, 0⟩ : NodeRef) ∈ (batchRefs batch).flatten :=
    mem_flatten_batchRefs.mpr ⟨tx, htx, List.length_pos_of_ne_nil (hw.nonempty tx (List.mem_of_getElem? htx))⟩
  exact hN.numbering.uniform n hn _ h₀ rfl

/-! ## Without a bound: the fresh-writer loop runs out -/

/-- A pass of the fresh-writer loop with no kept numbers, over an unnumbered
write: the write takes the number above `maxWrite` if that is below `math.MaxInt32`. -/
theorem numberFreshWriter_nil {t : SortState} {w : NodeRef} (h0 : (t.heap w).sequence = 0) :
    Unbounded.numberFreshWriter [] t w = if t.queue.maxWrite + 1 < maxInt32 then
      (t.renumber w (t.queue.maxWrite + 1)).setMaxWrite (t.queue.maxWrite + 1) else t := by
  unfold Unbounded.numberFreshWriter
  rw [if_neg (not_not.mpr h0), freeSlot_nil]
  by_cases hroom : t.queue.maxWrite + 1 < maxInt32
  · rw [if_neg (by omega), if_pos hroom]
  · rw [if_pos (by omega), if_neg hroom]

/-- Kept numbers at most `maxWrite` leave a pass of the fresh-writer loop as
it is without them: the search starts above them. -/
theorem numberFreshWriter_of_le {keys : List Int} {t : SortState} (hK : ∀ k ∈ keys, k ≤ t.queue.maxWrite)
    (w : NodeRef) : Unbounded.numberFreshWriter keys t w = Unbounded.numberFreshWriter [] t w := by
  unfold Unbounded.numberFreshWriter
  rw [freeSlot_of_lt fun k hk => Int.lt_add_one_of_le (hK k hk)]

/-- The same over the whole loop, since the loop only raises `maxWrite`. -/
theorem foldl_numberFreshWriter_of_le {keys : List Int} (l : List NodeRef) {t : SortState}
    (hK : ∀ k ∈ keys, k ≤ t.queue.maxWrite) :
    l.foldl (Unbounded.numberFreshWriter keys) t = l.foldl (Unbounded.numberFreshWriter []) t :=
  foldl_eq_of_mono (fun s : SortState => s.queue.maxWrite) (SortState.maxWrite_le_numberFreshWriter [])
    (fun _ w hu _ => numberFreshWriter_of_le (fun k hk => le_trans (hK k hk) hu) w) l t le_rfl
    (Int.lt_succ (l.foldl (Unbounded.numberFreshWriter []) t).queue.maxWrite)

/-- A queue without reads whose writes are all unnumbered is numbered by the
fresh-writer loop alone, from `initialSequence - 1`. -/
theorem sortInQueue_of_fresh_writes (s : SortState) (hr : s.queue.rSlice = []) (hmax : s.queue.maxRead = 0)
    (h0 : ∀ w ∈ s.queue.wSlice, (s.heap w).sequence = 0) :
    Unbounded.sortInQueue s = Unbounded.numberFreshWriters (s.setMaxWrite (initialSequence - 1)) [] := by
  have hsr : sortReads s = s := by
    have htmp : tmpRQueue s = [] := by simp [tmpRQueue, hr]
    rw [sortReads, if_pos htmp, numberFreshReads, hr, List.foldl_nil]
  -- every write is unnumbered, so the loop over the numbered writes keeps nothing
  have hcw : s.queue.wSlice.foldl checkWrite (s, [], GoMap.empty) = (s, [], GoMap.empty) :=
    foldl_invariant (P := (· = (s, [], GoMap.empty))) s.queue.wSlice
      (fun a w hw ha => by subst ha; simp [checkWrite, h0 w hw]) _ rfl
  unfold Unbounded.sortInQueue
  dsimp only
  rw [hsr, hcw]
  dsimp only
  rw [hmax, if_pos rfl]
  rfl

namespace SortState

section FreshWriters

variable {batch : List (List RWNode)} (hw : Wellformed batch) {name : Bytes}

include hw

/-- A pass of the fresh-writer loop leaves the other transactions' numbers alone. -/
theorem sequence_numberFreshWriter_of_ne {keys : List Int} {t : SortState} (hf : Frame (ofBatch batch name) t)
    {w : NodeRef} (hwF : w ∈ (batchRefs batch).flatten) {z : NodeRef} (hz : z ∈ (batchRefs batch).flatten)
    (hne : z.tx ≠ w.tx) : ((Unbounded.numberFreshWriter keys t w).heap z).sequence = (t.heap z).sequence := by
  unfold Unbounded.numberFreshWriter
  split
  · rfl
  · split
    · rfl
    · rename_i i _
      show ((t.renumber w i).heap z).sequence = _
      rw [sequence_renumber_ofBatch hw hf hwF i hz, if_neg hne]

theorem sequence_foldl_numberFreshWriter_of_ne (keys : List Int) :
    ∀ (l : List NodeRef) (t : SortState), Frame (ofBatch batch name) t →
      (∀ w ∈ l, w ∈ (batchRefs batch).flatten) → ∀ {z : NodeRef}, z ∈ (batchRefs batch).flatten →
      (∀ w ∈ l, z.tx ≠ w.tx) → ((l.foldl (Unbounded.numberFreshWriter keys) t).heap z).sequence = (t.heap z).sequence
  | [], _, _, _, _, _, _ => rfl
  | w :: l, t, hf, hmem, z, hz, hne => by
    rw [List.foldl_cons, sequence_foldl_numberFreshWriter_of_ne keys l _ (hf.trans (frame_numberFreshWriter keys t w))
      (fun w' hw' => hmem w' (List.mem_cons_of_mem w hw')) hz (fun w' hw' => hne w' (List.mem_cons_of_mem w hw')),
      sequence_numberFreshWriter_of_ne hw hf (hmem w List.mem_cons_self) hz (hne w List.mem_cons_self)]

/-- A pass of the fresh-writer loop leaves the writes of other transactions unnumbered. -/
theorem unnumbered_numberFreshWriter (keys : List Int) {t : SortState} (hf : Frame (ofBatch batch name) t)
    {w : NodeRef} (hwF : w ∈ (batchRefs batch).flatten) {l : List NodeRef}
    (hmem : ∀ w' ∈ l, w' ∈ (batchRefs batch).flatten) (hne : ∀ w' ∈ l, w.tx ≠ w'.tx)
    (h0 : ∀ w' ∈ l, (t.heap w').sequence = 0) :
    ∀ w' ∈ l, ((Unbounded.numberFreshWriter keys t w).heap w').sequence = 0 := fun w' hw' => by
  rw [sequence_numberFreshWriter_of_ne hw hf hwF (hmem w' hw') (hne w' hw').symm]
  exact h0 w' hw'

/-- The fresh-writer loop with no kept numbers, over writes of distinct
transactions that are all unnumbered: the `j`-th write takes `j` above the
number after `maxWrite`, or stays at `0` once that reaches `math.MaxInt32`. -/
theorem sequence_foldl_numberFreshWriter_nil :
    ∀ (l : List NodeRef) (t : SortState), Frame (ofBatch batch name) t →
      (∀ w ∈ l, w ∈ (batchRefs batch).flatten) → l.Pairwise (fun a b => a.tx ≠ b.tx) →
      (∀ w ∈ l, (t.heap w).sequence = 0) → ∀ (j : Nat) (hj : j < l.length),
        ((l.foldl (Unbounded.numberFreshWriter []) t).heap l[j]).sequence =
          if t.queue.maxWrite + 1 + j < maxInt32 then t.queue.maxWrite + 1 + j else 0
  | [], _, _, _, _, _, j, hj => absurd hj (Nat.not_lt_zero j)
  | w :: l, t, hf, hmem, hpair, h0, j, hj => by
    obtain ⟨hw₀, hpair⟩ := List.pairwise_cons.mp hpair
    have hmem' : ∀ w' ∈ l, w' ∈ (batchRefs batch).flatten := fun w' hw' => hmem w' (List.mem_cons_of_mem w hw')
    have hwF := hmem w List.mem_cons_self
    have hf' := hf.trans (frame_numberFreshWriter [] t w)
    -- the later writes are still unnumbered after the pass over `w`
    have h0' := unnumbered_numberFreshWriter hw [] hf hwF hmem' hw₀ fun w' hw' => h0 w' (List.mem_cons_of_mem w hw')
    rw [List.foldl_cons]
    cases j with
    | zero =>
      -- `w` itself: numbered by its own pass, and left alone by the later ones
      rw [List.getElem_cons_zero, sequence_foldl_numberFreshWriter_of_ne hw [] l _ hf' hmem' hwF
        (fun w' hw' => hw₀ w' hw'), numberFreshWriter_nil (h0 w List.mem_cons_self), Nat.cast_zero, add_zero]
      by_cases hroom : t.queue.maxWrite + 1 < maxInt32
      · rw [if_pos hroom, if_pos hroom]
        exact sequence_renumber_self t w _
      · rw [if_neg hroom, if_neg hroom]
        exact h0 w List.mem_cons_self
    | succ j =>
      rw [List.getElem_cons_succ, sequence_foldl_numberFreshWriter_nil l _ hf' hmem' hpair h0' j
        (by simpa using hj), numberFreshWriter_nil (h0 w List.mem_cons_self)]
      by_cases hroom : t.queue.maxWrite + 1 < maxInt32
      · rw [if_pos hroom]
        show (if t.queue.maxWrite + 1 + 1 + j < maxInt32 then t.queue.maxWrite + 1 + 1 + j else 0) = _
        rw [show t.queue.maxWrite + 1 + 1 + (j : Int) = t.queue.maxWrite + 1 + ((j + 1 : Nat) : Int) by
          push_cast
          omega]
      · rw [if_neg hroom, if_neg (by omega), if_neg (by omega)]

/-- The same loop raises `maxWrite` by one per write while they all fit below
`math.MaxInt32`. -/
theorem maxWrite_foldl_numberFreshWriter_nil :
    ∀ (l : List NodeRef) (t : SortState), Frame (ofBatch batch name) t →
      (∀ w ∈ l, w ∈ (batchRefs batch).flatten) → l.Pairwise (fun a b => a.tx ≠ b.tx) →
      (∀ w ∈ l, (t.heap w).sequence = 0) → t.queue.maxWrite + l.length < maxInt32 →
        (l.foldl (Unbounded.numberFreshWriter []) t).queue.maxWrite = t.queue.maxWrite + l.length
  | [], _, _, _, _, _, _ => by simp
  | w :: l, t, hf, hmem, hpair, h0, hroom => by
    obtain ⟨hw₀, hpair⟩ := List.pairwise_cons.mp hpair
    have hmem' : ∀ w' ∈ l, w' ∈ (batchRefs batch).flatten := fun w' hw' => hmem w' (List.mem_cons_of_mem w hw')
    have h0' := unnumbered_numberFreshWriter hw [] hf (hmem w List.mem_cons_self) hmem' hw₀
      fun w' hw' => h0 w' (List.mem_cons_of_mem w hw')
    rw [List.length_cons, Nat.cast_succ] at hroom
    -- `w` takes the number above `maxWrite`, and the rest of the loop goes on from there
    have hstep : (Unbounded.numberFreshWriter [] t w).queue.maxWrite = t.queue.maxWrite + 1 := by
      rw [numberFreshWriter_nil (h0 w List.mem_cons_self), if_pos (by omega)]
      rfl
    rw [List.foldl_cons, maxWrite_foldl_numberFreshWriter_nil l _ (hf.trans (frame_numberFreshWriter [] t w))
      hmem' hpair h0' (by omega), hstep, List.length_cons, Nat.cast_succ]
    omega

end FreshWriters

end SortState

/-- The first queue the loop of `DeSS` sorts starts from the graph `CreateGraph` built. -/
theorem sortQueueNamed_ofBatch (batch : List (List RWNode)) (name : Bytes) :
    (Unbounded.sortQueueNamed (Heap.ofBatch batch, QueueGraph.ofBatch batch) name).1 =
      (Unbounded.sortInQueue (SortState.ofBatch batch name)).heap := rfl

/-- `M` transactions that each write only the key `0x00`, transaction `i`
under the ID of `i + 1` zeros. -/
def manyWriters (M : Nat) : List (List RWNode) :=
  (List.range M).map fun i => [rwNode (List.replicate (i + 1) 48) .w [0]]

theorem manyWriters_ne_nil {M : Nat} (hM : 0 < M) : manyWriters M ≠ [] := by
  simp only [manyWriters, ne_eq, List.map_eq_nil_iff, List.range_eq_nil]
  omega

theorem manyWriters_wellformed (M : Nat) : Wellformed (manyWriters M) where
  built := by
    intro tx htx
    obtain ⟨i, -, rfl⟩ := List.mem_map.mp htx
    exact ⟨List.replicate (i + 1) 48, 0, [], [], [some [0]], [some [49]], rfl⟩
  nonempty := by
    intro tx htx
    obtain ⟨i, -, rfl⟩ := List.mem_map.mp htx
    exact List.cons_ne_nil _ _
  ids_nodup := by
    rw [manyWriters, List.map_map]
    refine List.nodup_range.map fun i j hij => ?_
    have hlen := congrArg List.length hij
    simpa [txId, rwNode] using hlen
  reads_nodup := by
    intro tx htx
    obtain ⟨i, -, rfl⟩ := List.mem_map.mp htx
    simp [readKeys, rwNode]
  writes_nodup := by
    intro tx htx
    obtain ⟨i, -, rfl⟩ := List.mem_map.mp htx
    simp [writeKeys, rwNode]
  keys_apart := by
    -- every key is `0x00`, none of them nil
    rintro ⟨hnil, -⟩
    obtain ⟨tx, htx, n, hn, hkey⟩ := mem_batchKeys.mp hnil
    obtain ⟨i, -, rfl⟩ := List.mem_map.mp htx
    rw [List.mem_singleton] at hn
    subst hn
    simp [rwNode] at hkey

theorem flatten_batchRefs_manyWriters (M : Nat) :
    (batchRefs (manyWriters M)).flatten = (List.range M).map fun i => ⟨i, 0⟩ := by
  have hrefs : batchRefs (manyWriters M) = (List.range M).map fun i => [⟨i, 0⟩] := by
    simp only [batchRefs, manyWriters, List.length_map, List.length_range]
    refine List.map_congr_left fun i hi => ?_
    simp [List.getD_eq_getElem?_getD, List.mem_range.mp hi]
  rw [hrefs, ← List.flatMap_def, ← List.map_eq_flatMap]

/-- The one queue of `manyWriters M`: no reads, and every write in batch order. -/
theorem queue_manyWriters (M : Nat) :
    (SortState.ofBatch (manyWriters M) (convertByte2String (some [0]))).queue = ⟨[], (List.range M).map fun i => ⟨i, 0⟩, 0, 0⟩ := by
  have hnode : ∀ n ∈ (batchRefs (manyWriters M)).flatten,
      queueName (Heap.ofBatch (manyWriters M)) n = convertByte2String (some [0]) ∧
        (Heap.ofBatch (manyWriters M) n).label = .w := by
    intro n hn
    obtain ⟨tx, htx, hpos⟩ := mem_flatten_batchRefs.mp hn
    rw [queueName, show n = ⟨n.tx, n.pos⟩ from rfl, ofBatch_apply htx hpos]
    obtain ⟨i, -, rfl⟩ := List.mem_map.mp (List.mem_of_getElem? htx)
    have hpos0 : n.pos = 0 := by simpa using hpos
    simp [hpos0, rwNode]
  have hall : (batchRefs (manyWriters M)).flatten.filter
      (fun n => queueName (Heap.ofBatch (manyWriters M)) n = convertByte2String (some [0])) =
      (batchRefs (manyWriters M)).flatten :=
    List.filter_eq_self.mpr fun n hn => by simpa using (hnode n hn).1
  have hreads : (batchRefs (manyWriters M)).flatten.filter (fun n => (Heap.ofBatch (manyWriters M) n).label = .r) = [] :=
    List.filter_eq_nil_iff.mpr fun n hn => by simp [(hnode n hn).2]
  have hwrites : (batchRefs (manyWriters M)).flatten.filter (fun n => (Heap.ofBatch (manyWriters M) n).label ≠ .r) =
      (batchRefs (manyWriters M)).flatten :=
    List.filter_eq_self.mpr fun n hn => by simp [(hnode n hn).2]
  simp only [SortState.ofBatch, findD_queues_ofBatch]
  rw [hall, hreads, hwrites, flatten_batchRefs_manyWriters]

theorem keys_manyWriters {M : Nat} (hM : 0 < M) :
    (QueueGraph.ofBatch (manyWriters M)).queues.keys = [convertByte2String (some [0])] := by
  have hmem : ∀ k, k ∈ (QueueGraph.ofBatch (manyWriters M)).queues.keys ↔ k ∈ [convertByte2String (some [0])] := by
    intro k
    rw [mem_keys_ofBatch, List.mem_singleton]
    constructor
    · rintro ⟨tx, htx, n, hn, rfl⟩
      obtain ⟨i, -, rfl⟩ := List.mem_map.mp htx
      rw [List.mem_singleton] at hn
      rw [hn]
      rfl
    · rintro rfl
      exact ⟨_, List.mem_map.mpr ⟨0, List.mem_range.mpr hM, rfl⟩, _, List.mem_singleton_self _, rfl⟩
  exact List.perm_singleton.mp ((List.perm_ext_iff_of_nodup (QueueGraph.ofBatch (manyWriters M)).queues.nodup
    (List.nodup_singleton _)).mpr hmem)

/-- `QueuesSort` on `M` writers of one key returns their one queue, in any order
of the maps and with one iteration of rank division. -/
theorem queuesSort_manyWriters {M : Nat} (hM : 0 < M) (hsize : (M : Int) ≤ maxInt64) (σ : Schedule) :
    queuesSort (Heap.ofBatch (manyWriters M)) (QueueGraph.ofBatch (manyWriters M)) σ 1 =
      .ok [convertByte2String (some [0])] := by
  have hN : ((manyWriters M).map List.length).sum = M := by
    rw [← length_flatten_batchRefs, flatten_batchRefs_manyWriters, List.length_map, List.length_range]
  obtain ⟨sequence, hs, hperm⟩ := queuesSort_ok (manyWriters_wellformed M).toBuiltBatch σ
    (manyWriters_wellformed M).keys_apart (manyWriters_ne_nil hM)
    (by rw [hN]; exact hsize) (by rw [keys_manyWriters hM])
  rw [keys_manyWriters hM] at hperm
  rwa [List.perm_singleton.mp hperm] at hs

/-- The sort of the one queue of `M` writers of one key aborts nothing, and
writer `j` gets `initialSequence + j` while that is below `math.MaxInt32` and
keeps `0` from there on. -/
theorem sortInQueue_manyWriters (M : Nat) :
    (Unbounded.sortInQueue (SortState.ofBatch (manyWriters M) (convertByte2String (some [0])))).edges =
        (SortState.ofBatch (manyWriters M) (convertByte2String (some [0]))).edges ∧
      ∀ j < M, ((Unbounded.sortInQueue (SortState.ofBatch (manyWriters M) (convertByte2String (some [0])))).heap ⟨j, 0⟩).sequence =
        if initialSequence + j < maxInt32 then initialSequence + j else 0 := by
  have hw := manyWriters_wellformed M
  -- the queue has no reads and its writes are all unnumbered
  have hq := queue_manyWriters M
  have h0 : ∀ w ∈ (SortState.ofBatch (manyWriters M) (convertByte2String (some [0]))).queue.wSlice,
      ((SortState.ofBatch (manyWriters M) (convertByte2String (some [0]))).heap w).sequence = 0 := fun w hw' =>
    sequence_ofBatch hw.toBuiltBatch w
  rw [sortInQueue_of_fresh_writes _ (by rw [hq]) (by rw [hq]) h0]
  refine ⟨(SortState.calm_numberFreshWriters _ []).edges, fun j hj => ?_⟩
  rw [Unbounded.numberFreshWriters_eq]
  have hpair : ((List.range M).map fun i => (⟨i, 0⟩ : NodeRef)).Pairwise (fun a b => a.tx ≠ b.tx) :=
    List.pairwise_map.mpr (List.nodup_range.imp id)
  have hL : ((SortState.ofBatch (manyWriters M) (convertByte2String (some [0]))).setMaxWrite
      (initialSequence - 1)).queue.wSlice = (List.range M).map fun i => ⟨i, 0⟩ := congrArg Queue.wSlice hq
  have hrun := SortState.sequence_foldl_numberFreshWriter_nil hw ((List.range M).map fun i => ⟨i, 0⟩)
    ((SortState.ofBatch (manyWriters M) (convertByte2String (some [0]))).setMaxWrite (initialSequence - 1))
    (SortState.frame_setMaxWrite _ _) (fun w hw' => SortState.mem_flatten_of_wSlice (SortState.Frame.refl _)
      (hL ▸ hw')) hpair (fun w hw' => h0 w (hL ▸ hw')) j (by simpa using hj)
  have hstart : ((SortState.ofBatch (manyWriters M) (convertByte2String (some [0]))).setMaxWrite
      (initialSequence - 1)).queue.maxWrite + 1 = initialSequence := rfl
  rw [hstart] at hrun
  rw [hL]
  simpa using hrun

/-- On `M` writers of one key, writer `j` gets `initialSequence + j` while that
is below `math.MaxInt32`, and keeps `0` from there on. -/
theorem runNezha_manyWriters {M : Nat} (hM : 0 < M) (hsize : (M : Int) ≤ maxInt64) (σ : Schedule) :
    ∃ h cq co, Unbounded.runNezha (manyWriters M) σ 1 = .ok (h, cq, co) ∧
      ∀ j < M, (h ⟨j, 0⟩).sequence = if initialSequence + j < maxInt32 then initialSequence + j else 0 := by
  have hw := manyWriters_wellformed M
  obtain ⟨co, hd, -⟩ := deSS_ofBatch hw σ [convertByte2String (some [0])]
  refine ⟨_, _, co, (runNezha_ok_iff hw).mpr ⟨_, queuesSort_manyWriters hM hsize σ, hd⟩, fun j hj => ?_⟩
  -- the only queue sorted is that of `0x00`
  rw [List.foldl_cons, List.foldl_nil, sortQueueNamed_ofBatch]
  exact (sortInQueue_manyWriters M).2 j hj

/-- Over the unbounded loops, `math.MaxInt32 - 9` writers of one key form a
non-empty well-formed batch on which the pipeline returns and leaves the last
writer unnumbered. -/
theorem Unbounded.manyWriters_last_unnumbered :
    Wellformed (manyWriters (maxInt32 - 9).toNat) ∧ manyWriters (maxInt32 - 9).toNat ≠ [] ∧
      ∃ h cq co, Unbounded.runNezha (manyWriters (maxInt32 - 9).toNat) Schedule.insertion 1 = .ok (h, cq, co) ∧
        (⟨(maxInt32 - 10).toNat, 0⟩ : NodeRef) ∈ (batchRefs (manyWriters (maxInt32 - 9).toNat)).flatten ∧
        (h ⟨(maxInt32 - 10).toNat, 0⟩).sequence < initialSequence := by
  have hM : 0 < (maxInt32 - 9).toNat := by decide
  have hlast : (maxInt32 - 10).toNat < (maxInt32 - 9).toNat := by decide
  obtain ⟨h, cq, co, hrun, hseq⟩ := runNezha_manyWriters hM (by decide) Schedule.insertion
  refine ⟨manyWriters_wellformed _, manyWriters_ne_nil hM, h, cq, co, hrun, ?_, ?_⟩
  · rw [flatten_batchRefs_manyWriters]
    exact List.mem_map.mpr ⟨_, List.mem_range.mpr hlast, rfl⟩
  · -- the last writer would need the number `math.MaxInt32` itself
    rw [hseq _ hlast, if_neg (by decide)]
    decide

end Nezha
