import Nezha.Models.ConflictQueue.Int32

/-!
# A `Sequence` that wraps past `math.MaxInt32`

Beyond the capacity `ConflictQueue.Int32` assumes, the `int32` sums of
`sortInQueue` wrap. `wrapBatch M` has two transactions `Y₀` and `Y₁` that write
the keys `0x01` and `0x04`, a transaction `D` that reads `0x04` and writes
`0x01`, and `M` transactions that write `0x04` only. `D` makes rank division
sort `0x01` first, where `Y₀`, `Y₁` and `D` take `10`, `11` and `12`. In the
queue of `0x04`, `D`'s read raises `maxRead` to `12`, so the writes of `Y₀` and
`Y₁`, numbered below it by a transaction that read nothing, wait in
`tmpWQueue2`; the `M` fresh writers take `13, 14, …`, and with
`M = math.MaxInt32 - 13` leave `maxWrite` at `math.MaxInt32 - 1`. The loop over
the kept writes then gives `Y₀` the number `math.MaxInt32` and `Y₁` the sum
`math.MaxInt32 + 1`, which wraps to `math.MinInt32`.
-/

namespace Nezha

/-- The batch of the module: `Y₀` (ID `"0"`) and `Y₁` (ID `"1"`) write the keys
`0x01` and `0x04`, `D` (ID `"2"`) reads `0x04` and writes `0x01`, and writer `i`
of the `M` more (ID of `i + 1` threes) writes `0x04`. -/
def wrapBatch (M : Nat) : List (List RWNode) :=
  [rwNode [48] .w [1], rwNode [48] .w [4]] :: [rwNode [49] .w [1], rwNode [49] .w [4]] ::
    [rwNode [50] .r [4], rwNode [50] .w [1]] :: (List.range M).map fun i => [rwNode (List.replicate (i + 1) 51) .w [4]]

/-- The queue of the key `0x01`. -/
def wrapFirst : Bytes := convertByte2String (some [1])

/-- The queue of the key `0x04`. -/
def wrapSecond : Bytes := convertByte2String (some [4])

theorem wrapSecond_ne_wrapFirst : wrapSecond ≠ wrapFirst := by decide

section Batch

variable (M : Nat)

/-- The transactions of the batch, as every proof over them splits. -/
theorem mem_wrapBatch {tx : List RWNode} :
    tx ∈ wrapBatch M ↔ tx = [rwNode [48] .w [1], rwNode [48] .w [4]] ∨ tx = [rwNode [49] .w [1], rwNode [49] .w [4]] ∨
      tx = [rwNode [50] .r [4], rwNode [50] .w [1]] ∨ ∃ i < M, [rwNode (List.replicate (i + 1) 51) .w [4]] = tx := by
  simp only [wrapBatch, List.mem_cons, List.mem_map, List.mem_range]

theorem wrapBatch_wellformed : Wellformed (wrapBatch M) where
  built := by
    intro tx htx
    rcases (mem_wrapBatch M).mp htx with rfl | rfl | rfl | ⟨i, -, rfl⟩
    · exact ⟨[48], 0, [], [], [some [1], some [4]], [some [49], some [49]], rfl⟩
    · exact ⟨[49], 0, [], [], [some [1], some [4]], [some [49], some [49]], rfl⟩
    · exact ⟨[50], 0, [some [4]], [some [49]], [some [1]], [some [49]], rfl⟩
    · exact ⟨List.replicate (i + 1) 51, 0, [], [], [some [4]], [some [49]], rfl⟩
  nonempty := by
    intro tx htx
    rcases (mem_wrapBatch M).mp htx with rfl | rfl | rfl | ⟨i, -, rfl⟩ <;> exact List.cons_ne_nil _ _
  ids_nodup := by
    -- the three first IDs are one digit other than `3`, the others only threes
    have hthrees : ((List.range M).map fun i => List.replicate (i + 1) (51 : UInt8)).Nodup :=
      List.nodup_range.map fun i j hij => by simpa using congrArg List.length hij
    have hnot : ∀ b ∈ [(48 : UInt8), 49, 50], [b] ∉ (List.range M).map fun i => List.replicate (i + 1) (51 : UInt8) := by
      intro b hb hmem
      obtain ⟨i, -, hi⟩ := List.mem_map.mp hmem
      have h₁ := congrArg List.head? hi
      simp only [List.replicate_succ, List.head?_cons, Option.some.injEq] at h₁
      subst h₁
      simp at hb
    simp only [wrapBatch, List.map_cons, List.map_map]
    refine List.nodup_cons.mpr ⟨?_, List.nodup_cons.mpr ⟨?_, List.nodup_cons.mpr ⟨?_, ?_⟩⟩⟩
    · simpa [txId, rwNode] using hnot 48 (by simp)
    · simpa [txId, rwNode] using hnot 49 (by simp)
    · simpa [txId, rwNode] using hnot 50 (by simp)
    · simpa [Function.comp_def, txId, rwNode] using hthrees
  reads_nodup := by
    intro tx htx
    rcases (mem_wrapBatch M).mp htx with rfl | rfl | rfl | ⟨i, -, rfl⟩ <;> simp [readKeys, rwNode]
  writes_nodup := by
    intro tx htx
    rcases (mem_wrapBatch M).mp htx with rfl | rfl | rfl | ⟨i, -, rfl⟩ <;> simp [writeKeys, rwNode]
  keys_apart := by
    -- every key is `0x01` or `0x04`, none of them nil
    rintro ⟨hnil, -⟩
    obtain ⟨tx, htx, n, hn, hkey⟩ := mem_batchKeys.mp hnil
    rcases (mem_wrapBatch M).mp htx with rfl | rfl | rfl | ⟨i, -, rfl⟩ <;> simp [rwNode] at hn <;> rcases hn with rfl | rfl <;>
      simp at hkey

/-- The nodes of the batch: the six of `Y₀`, `Y₁` and `D`, then writer `i` at `⟨i + 3, 0⟩`. -/
theorem flatten_batchRefs_wrapBatch :
    (batchRefs (wrapBatch M)).flatten =
      [⟨0, 0⟩, ⟨0, 1⟩, ⟨1, 0⟩, ⟨1, 1⟩, ⟨2, 0⟩, ⟨2, 1⟩] ++ (List.range M).map fun i => ⟨i + 3, 0⟩ := by
  have hlen : (wrapBatch M).length = 3 + M := by simp [wrapBatch]; omega
  rw [batchRefs, hlen, List.range_add, List.map_append, List.flatten_append, List.map_map]
  congr 1
  -- writer `i` is the transaction at `3 + i`, with one node
  rw [← List.flatMap_def, List.map_eq_flatMap]
  refine List.flatMap_congr fun i hi => ?_
  simp [wrapBatch, List.getD_eq_getElem?_getD, List.mem_range.mp hi, Nat.add_comm]

/-- The six nodes of `Y₀`, `Y₁` and `D` are nodes of the batch. -/
theorem mem_flatten_wrapBatch_fixed {n : NodeRef}
    (hn : n ∈ ([⟨0, 0⟩, ⟨0, 1⟩, ⟨1, 0⟩, ⟨1, 1⟩, ⟨2, 0⟩, ⟨2, 1⟩] : List NodeRef)) :
    n ∈ (batchRefs (wrapBatch M)).flatten := by
  rw [flatten_batchRefs_wrapBatch]
  exact List.mem_append_left _ hn

theorem mem_flatten_wrapBatch_writer {n : NodeRef} (hn : n ∈ (List.range M).map fun i => (⟨i + 3, 0⟩ : NodeRef)) :
    n ∈ (batchRefs (wrapBatch M)).flatten := by
  rw [flatten_batchRefs_wrapBatch]
  exact List.mem_append_right _ hn

theorem ofBatch_wrapBatch_writer {i : Nat} (hi : i < M) :
    Heap.ofBatch (wrapBatch M) ⟨i + 3, 0⟩ = rwNode (List.replicate (i + 1) 51) .w [4] := by
  simp [Heap.ofBatch, wrapBatch, hi]

/-- `Y₀` and `Y₁` only write. -/
theorem label_wrapBatch {n : NodeRef} (hn : n ∈ (batchRefs (wrapBatch M)).flatten) (htx : n.tx < 2) :
    (Heap.ofBatch (wrapBatch M) n).label = .w := by
  obtain ⟨tx, hget, hpos⟩ := mem_flatten_batchRefs.mp hn
  -- the first two transactions are `[rwNode _ .w [1], rwNode _ .w [4]]`
  have hlab : ∀ node ∈ tx, node.label = .w := by
    rcases (by omega : n.tx = 0 ∨ n.tx = 1) with h | h <;> rw [h] at hget <;> simp [wrapBatch] at hget <;>
      subst hget <;> simp [rwNode]
  rw [show n = ⟨n.tx, n.pos⟩ from rfl, ofBatch_apply hget hpos]
  exact hlab _ (List.getElem_mem hpos)

/-- The queue of `0x01` holds the writes of `Y₀`, `Y₁` and `D`. -/
theorem queue_wrapFirst :
    (QueueGraph.ofBatch (wrapBatch M)).queues.findD wrapFirst Queue.zero = ⟨[], [⟨0, 0⟩, ⟨1, 0⟩, ⟨2, 1⟩], 0, 0⟩ := by
  have hnone : ((List.range M).map fun i => (⟨i + 3, 0⟩ : NodeRef)).filter
      (fun n => queueName (Heap.ofBatch (wrapBatch M)) n = wrapFirst) = [] := by
    rw [List.filter_eq_nil_iff]
    intro n hn
    obtain ⟨i, hi, rfl⟩ := List.mem_map.mp hn
    simp only [queueName, ofBatch_wrapBatch_writer M (List.mem_range.mp hi), rwNode, decide_eq_true_eq]
    exact wrapSecond_ne_wrapFirst
  rw [findD_queues_ofBatch, flatten_batchRefs_wrapBatch, List.filter_append, hnone, List.append_nil]
  rfl

/-- The queue of `0x04` holds the read of `D`, and the writes of `Y₀`, `Y₁` and the `M` writers. -/
theorem queue_wrapSecond :
    (QueueGraph.ofBatch (wrapBatch M)).queues.findD wrapSecond Queue.zero =
      ⟨[⟨2, 0⟩], ⟨0, 1⟩ :: ⟨1, 1⟩ :: (List.range M).map fun i => ⟨i + 3, 0⟩, 0, 0⟩ := by
  have hwriter : ∀ n ∈ (List.range M).map fun i => (⟨i + 3, 0⟩ : NodeRef),
      queueName (Heap.ofBatch (wrapBatch M)) n = wrapSecond ∧ (Heap.ofBatch (wrapBatch M) n).label = .w := by
    intro n hn
    obtain ⟨i, hi, rfl⟩ := List.mem_map.mp hn
    simp [queueName, ofBatch_wrapBatch_writer M (List.mem_range.mp hi), rwNode, wrapSecond]
  have hall : ((List.range M).map fun i => (⟨i + 3, 0⟩ : NodeRef)).filter
      (fun n => queueName (Heap.ofBatch (wrapBatch M)) n = wrapSecond) = (List.range M).map fun i => ⟨i + 3, 0⟩ :=
    List.filter_eq_self.mpr fun n hn => by simpa using (hwriter n hn).1
  have hreads : ((List.range M).map fun i => (⟨i + 3, 0⟩ : NodeRef)).filter
      (fun n => (Heap.ofBatch (wrapBatch M) n).label = .r) = [] :=
    List.filter_eq_nil_iff.mpr fun n hn => by simp [(hwriter n hn).2]
  have hwrites : ((List.range M).map fun i => (⟨i + 3, 0⟩ : NodeRef)).filter
      (fun n => (Heap.ofBatch (wrapBatch M) n).label ≠ .r) = (List.range M).map fun i => ⟨i + 3, 0⟩ :=
    List.filter_eq_self.mpr fun n hn => by simp [(hwriter n hn).2]
  rw [findD_queues_ofBatch, flatten_batchRefs_wrapBatch, List.filter_append, hall, List.filter_append,
    List.filter_append, hreads, hwrites]
  rfl

theorem sum_length_wrapBatch : ((wrapBatch M).map List.length).sum = M + 6 := by
  simp [wrapBatch, Function.comp_def]
  omega

/-- The batch touches the keys `0x01` and `0x04` only. -/
theorem keys_wrapBatch : (QueueGraph.ofBatch (wrapBatch M)).queues.keys.Perm [wrapFirst, wrapSecond] := by
  refine (List.perm_ext_iff_of_nodup (QueueGraph.ofBatch _).queues.nodup (by decide)).mpr fun k => ?_
  rw [mem_keys_ofBatch]
  constructor
  · rintro ⟨tx, htx, n, hn, rfl⟩
    rcases (mem_wrapBatch M).mp htx with rfl | rfl | rfl | ⟨i, -, rfl⟩ <;> simp [rwNode] at hn <;> rcases hn with rfl | rfl <;>
      simp [wrapFirst, wrapSecond]
  · intro hk
    refine ⟨_, List.mem_cons_self, ?_⟩
    simp only [List.mem_cons, List.not_mem_nil, or_false] at hk
    rcases hk with rfl | rfl
    · exact ⟨_, List.mem_cons_self, rfl⟩
    · exact ⟨_, List.mem_cons_of_mem _ List.mem_cons_self, rfl⟩

/-- Only `D` reads a key it does not write: its queue of `0x01` depends on that of `0x04`. -/
theorem queueDep_wrapBatch {X Y : Bytes} : QueueDep (wrapBatch M) X Y ↔ X = wrapFirst ∧ Y = wrapSecond := by
  constructor
  · rintro ⟨tx, htx, k, hk, k', hk', -, rfl, rfl⟩
    rcases (mem_wrapBatch M).mp htx with rfl | rfl | rfl | ⟨i, -, rfl⟩ <;> simp [readKeys, writeKeys, rwNode] at hk hk'
    subst hk hk'
    exact ⟨rfl, rfl⟩
  · rintro ⟨rfl, rfl⟩
    exact ⟨_, List.mem_cons_of_mem _ (List.mem_cons_of_mem _ List.mem_cons_self), some [1], by simp [writeKeys, rwNode],
      some [4], by simp [readKeys, rwNode], by decide, rfl, rfl⟩

/-- The queue of `0x04` depends on none, so the dependencies form no cycle. -/
theorem queueDep_wrapBatch_acyclic : Digraph.Acyclic (QueueDep (wrapBatch M)) := by
  intro a ha
  obtain ⟨b, -, hba⟩ := Relation.TransGen.tail'_iff.mp ha
  obtain ⟨c, hac, -⟩ := Relation.TransGen.head'_iff.mp ha
  exact wrapSecond_ne_wrapFirst (((queueDep_wrapBatch M).mp hba).2.symm.trans ((queueDep_wrapBatch M).mp hac).1)

/-- Rank division sorts `0x01` before `0x04`, whatever order the maps are ranged over in. -/
theorem queuesSort_wrapBatch (hM : (M : Int) + 12 < maxInt32) (σ : Schedule) :
    queuesSort (Heap.ofBatch (wrapBatch M)) (QueueGraph.ofBatch (wrapBatch M)) σ 2 = .ok [wrapFirst, wrapSecond] := by
  have hw := wrapBatch_wellformed M
  have hne : wrapBatch M ≠ [] := List.cons_ne_nil _ _
  have hsize : (((wrapBatch M).map List.length).sum : Int) ≤ maxInt64 := by
    rw [sum_length_wrapBatch]
    simp only [maxInt32, maxInt64] at hM ⊢
    omega
  have hlen : (QueueGraph.ofBatch (wrapBatch M)).queues.keys.length = 2 := (keys_wrapBatch M).length_eq
  obtain ⟨names, hs, hperm⟩ := queuesSort_ok hw.toBuiltBatch σ hw.keys_apart hne hsize (le_of_eq hlen)
  -- both queues come out, and the dependency puts `0x01` first
  have hsub := queuesSort_sublist_of_queueDep hw.toBuiltBatch σ hne hsize (queueDep_wrapBatch_acyclic M) hs
    ((queueDep_wrapBatch M).mpr ⟨rfl, rfl⟩)
  rw [hs, hsub.eq_of_length (by rw [hperm.length_eq, hlen]; rfl)]

end Batch

/-! ## The first sort: `0x01` -/

section FirstSort

variable (M : Nat)

/-- The first sort meets no read and no number: the code's sort is the unbounded one. -/
theorem sortQueueNamed_wrapFirst :
    sortQueueNamed (Heap.ofBatch (wrapBatch M), QueueGraph.ofBatch (wrapBatch M)) wrapFirst =
      Unbounded.sortQueueNamed (Heap.ofBatch (wrapBatch M), QueueGraph.ofBatch (wrapBatch M)) wrapFirst := by
  have hw := wrapBatch_wellformed M
  have hq := queue_wrapFirst M
  have hsort := sortInQueue_eq_unbounded_of_fresh (s := SortState.ofBatch (wrapBatch M) wrapFirst)
    ((loopBounded_ofBatch hw.unnumbered).nonneg _) (by rw [SortState.ofBatch, hq]) (by rw [SortState.ofBatch, hq])
    fun w _ => sequence_ofBatch hw.toBuiltBatch w
  unfold SortState.ofBatch at hsort
  unfold sortQueueNamed Unbounded.sortQueueNamed
  rw [hsort]

/-- The first sort is the fresh-writer loop alone, from `initialSequence - 1`. -/
theorem unbounded_sortInQueue_wrapFirst :
    Unbounded.sortInQueue (SortState.ofBatch (wrapBatch M) wrapFirst) =
      Unbounded.numberFreshWriters ((SortState.ofBatch (wrapBatch M) wrapFirst).setMaxWrite (initialSequence - 1)) [] :=
  have hq := queue_wrapFirst M
  sortInQueue_of_fresh_writes _ (by rw [SortState.ofBatch, hq]) (by rw [SortState.ofBatch, hq])
    fun w _ => sequence_ofBatch (wrapBatch_wellformed M).toBuiltBatch w

/-- The first sort numbers `Y₀`, `Y₁` and `D` from `initialSequence` on, each
transaction whole, and leaves the writers of `0x04` at `0`. -/
theorem sequence_sortInQueue_wrapFirst {n : NodeRef} (hn : n ∈ (batchRefs (wrapBatch M)).flatten) :
    ((Unbounded.sortInQueue (SortState.ofBatch (wrapBatch M) wrapFirst)).heap n).sequence =
      if n.tx < 3 then initialSequence + n.tx else 0 := by
  have hw := wrapBatch_wellformed M
  have hq := queue_wrapFirst M
  have hW : SortState.Within (wrapBatch M) wrapFirst (Unbounded.sortInQueue (SortState.ofBatch (wrapBatch M) wrapFirst)) :=
    SortState.sortInQueue_numbering hw ((numberedSoFar_start hw).within wrapFirst)
  have hl : ((SortState.ofBatch (wrapBatch M) wrapFirst).setMaxWrite (initialSequence - 1)).queue.wSlice =
      [⟨0, 0⟩, ⟨1, 0⟩, ⟨2, 1⟩] := by
    rw [SortState.setMaxWrite, SortState.ofBatch, hq]
  have hf := SortState.frame_setMaxWrite (SortState.ofBatch (wrapBatch M) wrapFirst) (initialSequence - 1)
  have hmem : ∀ w ∈ ([⟨0, 0⟩, ⟨1, 0⟩, ⟨2, 1⟩] : List NodeRef), w ∈ (batchRefs (wrapBatch M)).flatten :=
    fun w hw => mem_flatten_wrapBatch_fixed M ((by decide : ([⟨0, 0⟩, ⟨1, 0⟩, ⟨2, 1⟩] : List NodeRef) ⊆ _) hw)
  rw [unbounded_sortInQueue_wrapFirst, Unbounded.numberFreshWriters_eq, hl] at hW ⊢
  split_ifs with htx
  · -- `n` shares its transaction with the write `l[n.tx]` of the queue, which takes `initialSequence + n.tx`
    have hj : ∀ j (hj : j < 3), (([⟨0, 0⟩, ⟨1, 0⟩, ⟨2, 1⟩] : List NodeRef)[j]).tx = j := by decide
    rw [hW.numbering.uniform n hn _ (hmem _ (List.getElem_mem htx)) (hj n.tx htx).symm,
      SortState.sequence_foldl_numberFreshWriter_nil hw _ _ hf hmem (by decide)
        (fun w _ => sequence_ofBatch hw.toBuiltBatch w) n.tx htx,
      if_pos (by simp only [SortState.setMaxWrite, SortState.ofBatch, initialSequence, maxInt32]; omega)]
    simp only [SortState.setMaxWrite]
    omega
  · -- the queue holds no write of `n`'s transaction
    rw [SortState.sequence_foldl_numberFreshWriter_of_ne hw [] _ _ hf hmem hn fun w hw' => by
      simp only [List.mem_cons, List.not_mem_nil, or_false] at hw'
      rcases hw' with rfl | rfl | rfl <;> simp only <;> omega]
    exact sequence_ofBatch hw.toBuiltBatch n

end FirstSort

/-! ## The second sort: `0x04`

The lemmas below hold of any state the loop hands to the sort of `0x04`
after the first sort: the graph's edges, nothing read yet in this queue, and
the numbers of `sequence_sortInQueue_wrapFirst`. -/

/-- The buckets the second sort fills: `Y₀`'s write under `10`, `Y₁`'s under `11`. -/
def wrapBuckets : WriteBuckets := (WriteBuckets.push GoMap.empty 10 ⟨0, 1⟩).push 11 ⟨1, 1⟩

theorem keys_wrapBuckets : sortInts wrapBuckets.keys = [10, 11] := by decide

theorem findD_wrapBuckets : wrapBuckets.findD 10 [] = [⟨0, 1⟩] ∧ wrapBuckets.findD 11 [] = [⟨1, 1⟩] := by decide

/-- A kept write of a bucket at or below `maxRead` moves above `maxWrite`. -/
theorem renumberKeptWriter_of_le {n : Int} {t : SortState} (hn : n ≤ t.queue.maxRead) (wi : NodeRef × Nat) :
    renumberKeptWriter n t wi =
      (t.renumber wi.1 (wrap32 (t.queue.maxWrite + 1))).setMaxWrite (wrap32 (t.queue.maxWrite + 1)) := by
  unfold renumberKeptWriter
  rw [if_neg fun h => absurd h.1 (not_lt.mpr hn)]

section SecondSort

variable {M : Nat} {s : SortState} (hf : SortState.Frame (SortState.ofBatch (wrapBatch M) wrapSecond) s)

include hf

theorem rSlice_wrapSecond : s.queue.rSlice = [⟨2, 0⟩] := by
  rw [hf.rSlice, SortState.ofBatch, queue_wrapSecond]

theorem wSlice_wrapSecond : s.queue.wSlice = ⟨0, 1⟩ :: ⟨1, 1⟩ :: (List.range M).map fun i => ⟨i + 3, 0⟩ := by
  rw [hf.wSlice, SortState.ofBatch, queue_wrapSecond]

variable (hedges : s.edges = (QueueGraph.ofBatch (wrapBatch M)).edges) (hmax : s.queue.maxRead = 0)
  (hseq : ∀ n ∈ (batchRefs (wrapBatch M)).flatten,
    (s.heap n).sequence = if n.tx < 3 then initialSequence + n.tx else 0)

include hedges hmax hseq

/-- `D`'s read, numbered by the first sort, raises `maxRead` to its number. -/
theorem sortReads_wrapSecond :
    sortReads s = ({ s with heap := s.heap.setAssigned ⟨2, 0⟩ } : SortState).setMaxRead (initialSequence + 2) := by
  have hr := rSlice_wrapSecond hf
  have h20 : (s.heap ⟨2, 0⟩).sequence = initialSequence + 2 := by
    rw [hseq _ (mem_flatten_wrapBatch_fixed M (by decide)), if_pos (by decide)]
    rfl
  have hab : (s.edgeOf ⟨2, 0⟩).isAborted = false := by
    rw [SortState.edgeOf, hedges]
    exact aborted_ofBatch (wrapBatch_wellformed M) _
  have htmp : tmpRQueue s = [⟨2, 0⟩] := by
    simp [tmpRQueue, hr, h20, hab, initialSequence]
  have h20' : (s.heap.setAssigned ⟨2, 0⟩ ⟨2, 0⟩).sequence = initialSequence + 2 := by simp [h20]
  unfold sortReads
  rw [if_neg (by rw [htmp]; exact List.cons_ne_nil _ _), htmp]
  -- the scan marks the read and takes its number as `maxRead` and as `min`
  simp only [scanNumberedReads, numberWaitingReads, List.foldl_cons, List.foldl_nil, h20', hmax]
  rw [if_pos (by decide), if_pos (by decide)]
  -- the loop over the waiting reads finds the read numbered
  show List.foldl _ _ s.queue.rSlice = _
  rw [hr, List.foldl_cons, List.foldl_nil, if_pos (by rw [SortState.setMaxRead]; dsimp only; rw [h20']; decide)]

/-- The writes of `Y₀` and `Y₁`, numbered below `maxRead` by transactions
that read nothing, wait in the buckets of their numbers. -/
theorem checkWrite_wrapSecond_kept {w : NodeRef} (hwF : w ∈ (batchRefs (wrapBatch M)).flatten) (htx : w.tx < 2)
    (tmp : List NodeRef) (b : WriteBuckets) :
    checkWrite (sortReads s, tmp, b) w = (sortReads s, tmp, b.push (initialSequence + w.tx) w) := by
  have hw := wrapBatch_wellformed M
  have hR := sortReads_wrapSecond hf hedges hmax hseq
  have hf₁ := hf.trans (SortState.frame_sortReads s)
  have hseqw : ((sortReads s).heap w).sequence = initialSequence + w.tx := by
    rw [hR]
    show (s.heap.setAssigned ⟨2, 0⟩ w).sequence = _
    rw [(Heap.setAssigned_static _ _ _).2.2.2, hseq w hwF, if_pos (by omega)]
  have hab : ((sortReads s).edgeOf w).isAborted = false := by
    rw [SortState.edgeOf, SortState.edges_sortReads, hedges]
    exact aborted_ofBatch hw _
  -- the transaction of `w` has no read at all
  have hscan : readScan (sortReads s).heap w ((sortReads s).edgeOf w).set false = (false, false) := by
    refine SortState.readScan_of_no_reads _ _ _ _ fun m hm => ?_
    rw [hf₁.edgeOf_set] at hm
    obtain ⟨hmF, hmtx⟩ := (SortState.mem_edgeOf_ofBatch hw hwF).mp hm
    rw [hf₁.heap.label m]
    show (Heap.ofBatch (wrapBatch M) m).label ≠ .r
    rw [label_wrapBatch M hmF (by omega)]
    decide
  unfold checkWrite
  dsimp only
  rw [hseqw, if_neg (by simp only [initialSequence]; omega), if_neg (by rw [hab]; decide),
    if_pos (by rw [hR]; show initialSequence + w.tx ≤ initialSequence + 2; omega), hscan]
  rfl

/-- The writers of `0x04` alone are still unnumbered, and pass. -/
theorem checkWrite_wrapSecond_fresh {w : NodeRef} (hwF : w ∈ (batchRefs (wrapBatch M)).flatten) (htx : 3 ≤ w.tx)
    (tmp : List NodeRef) (b : WriteBuckets) :
    checkWrite (sortReads s, tmp, b) w = (sortReads s, tmp, b) := by
  have hseqw : ((sortReads s).heap w).sequence = 0 := by
    rw [sortReads_wrapSecond hf hedges hmax hseq]
    show (s.heap.setAssigned ⟨2, 0⟩ w).sequence = _
    rw [(Heap.setAssigned_static _ _ _).2.2.2, hseq w hwF, if_neg (by omega)]
  unfold checkWrite
  dsimp only
  rw [if_pos hseqw]

/-- The loop over the writes keeps `Y₀`'s under `10` and `Y₁`'s under `11`. -/
theorem foldl_checkWrite_wrapSecond :
    (sortReads s).queue.wSlice.foldl checkWrite (sortReads s, [], GoMap.empty) =
      (sortReads s, [], wrapBuckets) := by
  rw [(SortState.frame_sortReads s).wSlice, wSlice_wrapSecond hf, List.foldl_cons, List.foldl_cons,
    checkWrite_wrapSecond_kept hf hedges hmax hseq (mem_flatten_wrapBatch_fixed M (by decide)) (by decide),
    checkWrite_wrapSecond_kept hf hedges hmax hseq (mem_flatten_wrapBatch_fixed M (by decide)) (by decide)]
  -- the passes over the writers of `0x04` change nothing
  refine foldl_invariant (P := (· = (sortReads s, [], wrapBuckets))) _
    (fun a w hw ha => ?_) _ rfl
  subst ha
  obtain ⟨i, -, rfl⟩ := List.mem_map.mp hw
  exact checkWrite_wrapSecond_fresh hf hedges hmax hseq (mem_flatten_wrapBatch_writer M hw) (by simp) _ _

/-- The fresh-writer loop numbers the `M` writers of `0x04` from
`initialSequence + 3` on, past the kept numbers, and leaves `maxWrite` at
`initialSequence + 2 + M`. -/
theorem maxWrite_numberFreshWriters_wrapSecond (hM : (M : Int) + 12 < maxInt32) :
    (Unbounded.numberFreshWriters ((sortReads s).setMaxWrite (initialSequence + 2)) [10, 11]).queue.maxWrite =
      initialSequence + 2 + M := by
  have hw := wrapBatch_wellformed M
  have hf₂ := (hf.trans (SortState.frame_sortReads s)).trans
    (SortState.frame_setMaxWrite (sortReads s) (initialSequence + 2))
  have hseq₂ : ∀ n, (((sortReads s).setMaxWrite (initialSequence + 2)).heap n).sequence = (s.heap n).sequence :=
    fun n => by
      rw [sortReads_wrapSecond hf hedges hmax hseq]
      exact (Heap.setAssigned_static _ _ _).2.2.2
  have hflat : ∀ n ∈ (List.range M).map fun i => (⟨i + 3, 0⟩ : NodeRef), n ∈ (batchRefs (wrapBatch M)).flatten :=
    fun _ => mem_flatten_wrapBatch_writer M
  have hskip : ∀ w, w.tx < 2 → w ∈ (batchRefs (wrapBatch M)).flatten →
      Unbounded.numberFreshWriter [10, 11] ((sortReads s).setMaxWrite (initialSequence + 2)) w =
        (sortReads s).setMaxWrite (initialSequence + 2) := fun w htx hwF => by
    unfold Unbounded.numberFreshWriter
    rw [if_pos (by rw [hseq₂, hseq w hwF, if_pos (by omega)]; simp only [initialSequence]; omega)]
  rw [Unbounded.numberFreshWriters_eq, hf₂.wSlice, SortState.ofBatch, queue_wrapSecond]
  dsimp only
  -- the writes of `Y₀` and `Y₁` are numbered, and the kept numbers lie below the search
  rw [List.foldl_cons, List.foldl_cons, hskip _ (by decide) (mem_flatten_wrapBatch_fixed M (by decide)),
    hskip _ (by decide) (mem_flatten_wrapBatch_fixed M (by decide)),
    foldl_numberFreshWriter_of_le _ (fun k hk => by
      simp only [List.mem_cons, List.not_mem_nil, or_false] at hk
      show k ≤ initialSequence + 2
      rcases hk with rfl | rfl <;> decide),
    SortState.maxWrite_foldl_numberFreshWriter_nil hw _ _ hf₂ hflat
      (List.pairwise_map.mpr (List.Pairwise.imp (fun hij => by simp only; omega) List.nodup_range))
      (fun w hw' => by
        obtain ⟨i, -, rfl⟩ := List.mem_map.mp hw'
        rw [hseq₂, hseq _ (hflat _ hw'), if_neg (by simp)])
      (by simp only [List.length_map, List.length_range]; show initialSequence + 2 + M < maxInt32; simp only [initialSequence]; omega)]
  simp only [List.length_map, List.length_range]
  rfl

/-- The sort of `0x04` moves `Y₀`'s write above the last fresh writer, then
`Y₁`'s above that: `Y₁` ends with `maxWrite + 1` twice over, each sum reduced
to `int32`. -/
theorem sequence_sortInQueue_wrapSecond (hM : (M : Int) + 12 < maxInt32) :
    ((sortInQueue s).heap ⟨1, 1⟩).sequence = wrap32 (wrap32 (M + 13) + 1) := by
  have hR := sortReads_wrapSecond hf hedges hmax hseq
  have hmr : (sortReads s).queue.maxRead = initialSequence + 2 := by rw [hR]; rfl
  have hfresh := maxWrite_numberFreshWriters_wrapSecond hf hedges hmax hseq hM
  have hcalm := SortState.calm_numberFreshWriters ((sortReads s).setMaxWrite (initialSequence + 2)) [10, 11]
  unfold sortInQueue
  dsimp only
  rw [foldl_checkWrite_wrapSecond hf hedges hmax hseq]
  dsimp only
  rw [keys_wrapBuckets, hmr, if_neg (by decide), numberSameKeyWriters,
    SortState.numberFreshWriters_eq_unbounded _ (by show (0 : Int) ≤ initialSequence + 2; decide)
      (by rw [hfresh]; simp only [initialSequence] at hM ⊢; omega)]
  generalize Unbounded.numberFreshWriters ((sortReads s).setMaxWrite (initialSequence + 2)) [10, 11] = t at hfresh hcalm
  have hmr₃ : t.queue.maxRead = initialSequence + 2 := by rw [hcalm.maxRead, ← hmr]; rfl
  -- `maxWrite` is above every kept number already
  have hraise : raiseMaxWrite t [10, 11] = t := by
    unfold raiseMaxWrite
    rw [show ([10, 11] : List Int).getLast? = some 11 from rfl]
    dsimp only
    rw [if_neg (by rw [hfresh]; simp only [initialSequence]; omega)]
  rw [hraise, renumberKeptWriters_eq, List.foldl_cons, List.foldl_cons, List.foldl_nil, findD_wrapBuckets.1,
    findD_wrapBuckets.2]
  -- both kept writes lie below `maxRead`, so both move up, `Y₀`'s first
  simp only [List.zipIdx_cons, List.zipIdx_nil, List.foldl_cons, List.foldl_nil]
  rw [renumberKeptWriter_of_le (n := 10) (t := t) (by rw [hmr₃]; decide),
    renumberKeptWriter_of_le (by show (11 : Int) ≤ t.queue.maxRead; rw [hmr₃]; decide)]
  simp only [SortState.setMaxWrite, SortState.sequence_renumber_self]
  rw [hfresh, show initialSequence + 2 + (M : Int) + 1 = M + 13 by simp only [initialSequence]; omega]

end SecondSort

/-! ## The loop of `DeSS` -/

/-- The first sort only numbers writes: it leaves every abort flag as `CreateGraph` set it. -/
theorem edges_sortQueueNamed_wrapFirst (M : Nat) :
    (Unbounded.sortQueueNamed (Heap.ofBatch (wrapBatch M), QueueGraph.ofBatch (wrapBatch M)) wrapFirst).2.edges =
      (QueueGraph.ofBatch (wrapBatch M)).edges := by
  have hs := unbounded_sortInQueue_wrapFirst M
  unfold SortState.ofBatch at hs
  unfold Unbounded.sortQueueNamed
  dsimp only
  rw [hs]
  exact (SortState.calm_numberFreshWriters _ _).edges

/-- After the loop of `DeSS` over `0x01` and `0x04`, `Y₁`'s write holds
`maxWrite + 1` taken twice above the last of the `M` fresh writers, each sum
reduced to `int32`. -/
theorem sequence_wrapBatch (M : Nat) (hM : (M : Int) + 12 < maxInt32) :
    (([wrapFirst, wrapSecond].foldl sortQueueNamed
      (Heap.ofBatch (wrapBatch M), QueueGraph.ofBatch (wrapBatch M))).1 ⟨1, 1⟩).sequence =
        wrap32 (wrap32 (M + 13) + 1) := by
  have hw := wrapBatch_wellformed M
  have hI := (numberedSoFar_start hw).step hw wrapFirst
  have hedges := edges_sortQueueNamed_wrapFirst M
  have hseq : ∀ n ∈ (batchRefs (wrapBatch M)).flatten,
      ((Unbounded.sortQueueNamed (Heap.ofBatch (wrapBatch M), QueueGraph.ofBatch (wrapBatch M)) wrapFirst).1 n).sequence =
        if n.tx < 3 then initialSequence + n.tx else 0 := fun n hn => by
    rw [sortQueueNamed_ofBatch]
    exact sequence_sortInQueue_wrapFirst M hn
  have hqueue := Unbounded.findD_sortQueueNamed (Heap.ofBatch (wrapBatch M), QueueGraph.ofBatch (wrapBatch M))
      wrapFirst wrapSecond
  rw [List.foldl_cons, List.foldl_cons, List.foldl_nil, sortQueueNamed_wrapFirst]
  unfold sortQueueNamed
  dsimp only
  -- the sort of `0x04` starts from the state the first sort left, whatever it is beyond these facts
  generalize Unbounded.sortQueueNamed (Heap.ofBatch (wrapBatch M), QueueGraph.ofBatch (wrapBatch M)) wrapFirst = hc
    at hI hedges hseq hqueue ⊢
  refine sequence_sortInQueue_wrapSecond (hI.sorted.frame wrapSecond) hedges ?_ hseq hM
  rcases hqueue with ⟨-, h⟩ | h
  · exact absurd h wrapSecond_ne_wrapFirst
  · rw [h, queue_wrapSecond]

/-- Past the bound of `ConflictQueue.Int32` the `int32` sums wrap: on
`math.MaxInt32 - 13` writers of `0x04` beside `Y₀`, `Y₁` and `D`, a well-formed
batch whose queues rank division emits in one order, the loop of `DeSS` leaves
`Y₁`'s write at `math.MinInt32`. -/
theorem wrapBatch_sequence_wraps :
    Wellformed (wrapBatch (maxInt32 - 13).toNat) ∧
      createGraph (Heap.ofBatch (wrapBatch (maxInt32 - 13).toNat)) (batchRefs (wrapBatch (maxInt32 - 13).toNat)) =
        .ok (QueueGraph.ofBatch (wrapBatch (maxInt32 - 13).toNat)) ∧
      queuesSort (Heap.ofBatch (wrapBatch (maxInt32 - 13).toNat))
        (QueueGraph.ofBatch (wrapBatch (maxInt32 - 13).toNat)) Schedule.insertion 2 = .ok [wrapFirst, wrapSecond] ∧
      (⟨1, 1⟩ : NodeRef) ∈ (batchRefs (wrapBatch (maxInt32 - 13).toNat)).flatten ∧
      (([wrapFirst, wrapSecond].foldl sortQueueNamed (Heap.ofBatch (wrapBatch (maxInt32 - 13).toNat),
        QueueGraph.ofBatch (wrapBatch (maxInt32 - 13).toNat))).1 ⟨1, 1⟩).sequence = minInt32 := by
  have hM : (((maxInt32 - 13).toNat : Nat) : Int) + 12 < maxInt32 := by decide
  refine ⟨wrapBatch_wellformed _, createGraph_ofBatch (wrapBatch_wellformed _).toBuiltBatch,
    queuesSort_wrapBatch _ hM _, ?_, ?_⟩
  · exact mem_flatten_wrapBatch_fixed _ (by decide)
  · -- `Y₀` takes `math.MaxInt32`, and `Y₁` the sum above it
    rw [sequence_wrapBatch _ hM, show (((maxInt32 - 13).toNat : Nat) : Int) + 13 = maxInt32 by decide,
      wrap32_of_mem (by decide) le_rfl, wrap32_maxInt32_succ]

end Nezha
