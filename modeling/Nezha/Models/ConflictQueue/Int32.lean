import Nezha.Models.ConflictQueue.LocalOrder

/-!
# The code's `int32` sums agree with the unbounded ones below `math.MaxInt32`

Three sites of `sortInQueue` compute `maxWrite + 1` in `int32`: the model
reduces the sum with `wrap32`, and `ConflictQueue.Unbounded` takes it in the
integers. `wrap32` is the identity on `int32` values and the writer loops only
raise `maxWrite`, so a sort whose unbounded run ends with `maxWrite` below
`math.MaxInt32` never wraps, and the code computes what the unbounded loops
compute. On a batch of `N` nodes with `initialSequence + N` below
`math.MaxInt32`, every sort of the loop of `DeSS` ends there
(`SequenceRange`), so the whole pipeline agrees with its unbounded copy, and
what is proved of that copy holds of the code. Capacity is an explicit premise
of this refinement: beyond it the last section shows writers left unnumbered,
and `ConflictQueue.Wrap` a `Sequence` wrapping to `math.MinInt32`.
-/

namespace Nezha

namespace SortState

/-! ## One sort -/

/-- The sum of a site stays in `int32` while `maxWrite` is non-negative and
below `math.MaxInt32`. -/
theorem wrap32_maxWrite_succ {t : SortState} (h₀ : 0 ≤ t.queue.maxWrite) (h : t.queue.maxWrite < maxInt32) :
    wrap32 (t.queue.maxWrite + 1) = t.queue.maxWrite + 1 :=
  wrap32_of_mem (by unfold minInt32; omega) (by omega)

theorem numberSameKeyWriters_eq_unbounded {t : SortState} (h₀ : 0 ≤ t.queue.maxWrite)
    (h : t.queue.maxWrite < maxInt32) (tmpWQueue : List NodeRef) :
    numberSameKeyWriters t tmpWQueue = Unbounded.numberSameKeyWriters t tmpWQueue := by
  cases tmpWQueue with
  | nil => rfl
  | cons w rest =>
    unfold numberSameKeyWriters Unbounded.numberSameKeyWriters
    rw [wrap32_maxWrite_succ h₀ h]

theorem numberFreshWriter_eq_unbounded (keys : List Int) {t : SortState} (w : NodeRef)
    (h₀ : 0 ≤ t.queue.maxWrite) (h : t.queue.maxWrite < maxInt32) :
    numberFreshWriter keys t w = Unbounded.numberFreshWriter keys t w := by
  unfold numberFreshWriter Unbounded.numberFreshWriter
  rewrite [wrap32_maxWrite_succ h₀ h]
  rfl

theorem renumberKeptWriter_eq_unbounded (n : Int) {t : SortState} (wi : NodeRef × Nat)
    (h₀ : 0 ≤ t.queue.maxWrite) (h : t.queue.maxWrite < maxInt32) :
    renumberKeptWriter n t wi = Unbounded.renumberKeptWriter n t wi := by
  unfold renumberKeptWriter Unbounded.renumberKeptWriter
  rw [wrap32_maxWrite_succ h₀ h]

theorem maxWrite_le_numberFreshWriters (t : SortState) (keys : List Int) :
    t.queue.maxWrite ≤ (Unbounded.numberFreshWriters t keys).queue.maxWrite :=
  le_foldl_of_mono (fun s : SortState => s.queue.maxWrite) (maxWrite_le_numberFreshWriter keys) _ t

/-- A pass of the outer loop of `renumberKeptWriters`, over one bucket, only raises `maxWrite`. -/
theorem maxWrite_le_bucket (tmpWQueue2 : WriteBuckets) (t : SortState) (n : Int) :
    t.queue.maxWrite ≤ (((tmpWQueue2.findD n []).zipIdx).foldl (Unbounded.renumberKeptWriter n) t).queue.maxWrite :=
  le_foldl_of_mono (fun s : SortState => s.queue.maxWrite) (maxWrite_le_renumberKeptWriter n) _ t

theorem maxWrite_le_renumberKeptWriters (t : SortState) (keys : List Int) (tmpWQueue2 : WriteBuckets) :
    t.queue.maxWrite ≤ (Unbounded.renumberKeptWriters t keys tmpWQueue2).queue.maxWrite :=
  le_foldl_of_mono (fun s : SortState => s.queue.maxWrite) (maxWrite_le_bucket tmpWQueue2) keys t

theorem numberFreshWriters_eq_unbounded {t : SortState} (keys : List Int) (h₀ : 0 ≤ t.queue.maxWrite)
    (h : (Unbounded.numberFreshWriters t keys).queue.maxWrite < maxInt32) :
    numberFreshWriters t keys = Unbounded.numberFreshWriters t keys := by
  rw [numberFreshWriters_eq, Unbounded.numberFreshWriters_eq]
  rw [Unbounded.numberFreshWriters_eq] at h
  exact foldl_eq_of_mono (fun s : SortState => s.queue.maxWrite) (maxWrite_le_numberFreshWriter keys)
    (fun u w hu hlt => numberFreshWriter_eq_unbounded keys w hu
      (lt_of_le_of_lt (maxWrite_le_numberFreshWriter keys u w) hlt)) _ t h₀ h

theorem renumberKeptWriters_eq_unbounded {t : SortState} (keys : List Int) (tmpWQueue2 : WriteBuckets)
    (h₀ : 0 ≤ t.queue.maxWrite) (h : (Unbounded.renumberKeptWriters t keys tmpWQueue2).queue.maxWrite < maxInt32) :
    renumberKeptWriters t keys tmpWQueue2 = Unbounded.renumberKeptWriters t keys tmpWQueue2 := by
  rw [renumberKeptWriters_eq, Unbounded.renumberKeptWriters_eq]
  rw [Unbounded.renumberKeptWriters_eq] at h
  -- the passes over one bucket agree as long as the last of them ends below the bound
  have hbucket : ∀ (n : Int) (u : SortState), 0 ≤ u.queue.maxWrite →
      (((tmpWQueue2.findD n []).zipIdx).foldl (Unbounded.renumberKeptWriter n) u).queue.maxWrite < maxInt32 →
      ((tmpWQueue2.findD n []).zipIdx).foldl (renumberKeptWriter n) u =
        ((tmpWQueue2.findD n []).zipIdx).foldl (Unbounded.renumberKeptWriter n) u :=
    fun n => foldl_eq_of_mono (fun s : SortState => s.queue.maxWrite) (maxWrite_le_renumberKeptWriter n)
      (fun u wi hu hlt => renumberKeptWriter_eq_unbounded n wi hu
        (lt_of_le_of_lt (maxWrite_le_renumberKeptWriter n u wi) hlt)) _
  exact foldl_eq_of_mono (fun s : SortState => s.queue.maxWrite) (maxWrite_le_bucket tmpWQueue2)
    (fun u n hu hlt => hbucket n u hu hlt) keys t h₀ h

/-- `sortInQueue` computes what its unbounded copy computes whenever the
copy ends with `maxWrite` below `math.MaxInt32`. -/
theorem sortInQueue_eq_unbounded {s : SortState} (hs : Nonneg s)
    (hfit : (Unbounded.sortInQueue s).queue.maxWrite < maxInt32) : sortInQueue s = Unbounded.sortInQueue s := by
  unfold sortInQueue
  unfold Unbounded.sortInQueue at hfit ⊢
  dsimp only at hfit ⊢
  have h₁ := nonneg_foldl_checkWrite (sortReads s).queue.wSlice (sortReads s, [], GoMap.empty)
    (nonneg_sortReads hs)
  generalize (sortReads s).queue.wSlice.foldl checkWrite (sortReads s, [], GoMap.empty) = acc at h₁ hfit ⊢
  obtain ⟨t, tmpWQueue, tmpWQueue2⟩ := acc
  dsimp only at h₁ hfit ⊢
  have h₂ : Nonneg (t.setMaxWrite (if t.queue.maxRead = 0 then initialSequence - 1 else t.queue.maxRead)) :=
    h₁.setMaxWrite (by split <;> simp [initialSequence, h₁.maxRead])
  generalize t.setMaxWrite (if t.queue.maxRead = 0 then initialSequence - 1 else t.queue.maxRead) = t₂ at h₂ hfit ⊢
  -- `maxWrite` only rises from stage to stage, so every stage ends below the bound
  have h₃ := nonneg_numberSameKeyWriters h₂ tmpWQueue
  have h₅ := nonneg_raiseMaxWrite (nonneg_numberFreshWriters h₃ (sortInts tmpWQueue2.keys)) (sortInts tmpWQueue2.keys)
  have hle₃ := maxWrite_le_numberSameKeyWriters t₂ tmpWQueue
  have hle₄ := maxWrite_le_numberFreshWriters (Unbounded.numberSameKeyWriters t₂ tmpWQueue) (sortInts tmpWQueue2.keys)
  have hle₅ := maxWrite_le_raiseMaxWrite
    (Unbounded.numberFreshWriters (Unbounded.numberSameKeyWriters t₂ tmpWQueue) (sortInts tmpWQueue2.keys))
    (sortInts tmpWQueue2.keys)
  have hle₆ := maxWrite_le_renumberKeptWriters (raiseMaxWrite
    (Unbounded.numberFreshWriters (Unbounded.numberSameKeyWriters t₂ tmpWQueue) (sortInts tmpWQueue2.keys))
    (sortInts tmpWQueue2.keys)) (sortInts tmpWQueue2.keys) tmpWQueue2
  rw [numberSameKeyWriters_eq_unbounded h₂.maxWrite (by omega),
    numberFreshWriters_eq_unbounded _ h₃.maxWrite (by omega),
    renumberKeptWriters_eq_unbounded _ _ h₅.maxWrite hfit]

end SortState

/-! ## The loop of `DeSS` -/

/-- A pass of the loop agrees with its unbounded copy from a state within `B`
when the sort adds no more than the room left below `math.MaxInt32`. -/
theorem LoopBounded.sortQueueNamed_eq_unbounded {B : Nat} {hc : Heap × QueueGraph} (hI : LoopBounded B hc)
    (hB : initialSequence ≤ (B : Int)) (name : Bytes)
    (hroom : ((B + (hc.2.queues.findD name Queue.zero).wSlice.length : Nat) : Int) < maxInt32) :
    sortInQueue ⟨hc.1, hc.2.edges, hc.2.queues.findD name Queue.zero⟩ =
        Unbounded.sortInQueue ⟨hc.1, hc.2.edges, hc.2.queues.findD name Queue.zero⟩ ∧
      sortQueueNamed hc name = Unbounded.sortQueueNamed hc name := by
  have hfit := (SortState.sortInQueue_bounded (hI.sortState name) (hI.nonneg name) hB).1.maxWrite_le
  have hsort := SortState.sortInQueue_eq_unbounded (hI.nonneg name) (lt_of_le_of_lt hfit hroom)
  refine ⟨hsort, ?_⟩
  unfold sortQueueNamed Unbounded.sortQueueNamed
  rw [hsort]

/-- The loop over a list of queue names agrees with its unbounded copy from a
state within `B` when the writes of the queues it sorts fit in the room left
below `math.MaxInt32`. -/
theorem foldl_sortQueueNamed_eq_unbounded (sequence : List Bytes) :
    ∀ (hc : Heap × QueueGraph) (B : Nat), LoopBounded B hc → initialSequence ≤ (B : Int) →
      ((B + (sequence.map fun name => (hc.2.queues.findD name Queue.zero).wSlice.length).sum : Nat) : Int) <
        maxInt32 →
      sequence.foldl sortQueueNamed hc = sequence.foldl Unbounded.sortQueueNamed hc := by
  induction sequence with
  | nil => intro _ _ _ _ _; rfl
  | cons name rest ih =>
    intro hc B hI hB hroom
    simp only [List.map_cons, List.sum_cons] at hroom
    obtain ⟨hI₁, -⟩ := hI.step hB name
    rw [List.foldl_cons, List.foldl_cons, (hI.sortQueueNamed_eq_unbounded hB name (by omega)).2]
    refine ih _ _ hI₁ (by omega) ?_
    rw [costs_sortQueueNamed]
    omega

section Batch

variable {batch : List (List RWNode)}

/-- The loop of `DeSS` from the graph of a batch of `N` nodes, as `CreateRWNode`
leaves them, agrees with its unbounded copy over any list of queue names whose
queues hold at most `N` writes, once `initialSequence + N` is below
`math.MaxInt32`. -/
theorem foldl_sortQueueNamed_ofBatch (hfresh : ∀ tx ∈ batch, ∀ n ∈ tx, n.sequence = 0) {names : List Bytes}
    (hcount : (names.map fun name => ((QueueGraph.ofBatch batch).queues.findD name Queue.zero).wSlice.length).sum ≤
      (batch.map List.length).sum)
    (hsize : initialSequence + (batch.map List.length).sum < maxInt32) :
    names.foldl sortQueueNamed (Heap.ofBatch batch, QueueGraph.ofBatch batch) =
      names.foldl Unbounded.sortQueueNamed (Heap.ofBatch batch, QueueGraph.ofBatch batch) := by
  have h10 : ((initialSequence.toNat : Nat) : Int) = initialSequence := by decide
  refine foldl_sortQueueNamed_eq_unbounded names _ _ (loopBounded_ofBatch hfresh) (by omega) ?_
  have := Int.ofNat_le.mpr hcount
  dsimp only
  omega

/-- The queues `QueuesSort` returns, or any of them in order, hold at most the
batch's nodes among their writes: they come out each once. -/
theorem sum_wSlice_queuesSort_le (hw : Wellformed batch)
    (hsize : initialSequence + (batch.map List.length).sum < maxInt32) {σ : Schedule} {fuel : Nat}
    {sequence : List Bytes} (hs : queuesSort (Heap.ofBatch batch) (QueueGraph.ofBatch batch) σ fuel = .ok sequence)
    {names : List Bytes} (hsub : names.Sublist sequence) :
    (names.map fun name => ((QueueGraph.ofBatch batch).queues.findD name Queue.zero).wSlice.length).sum ≤
      (batch.map List.length).sum := by
  by_cases hne : batch = []
  · -- an empty batch has no writes at all
    subst hne
    have hnil : ∀ name, ((QueueGraph.ofBatch []).queues.findD name Queue.zero).wSlice = [] := fun name => by
      rw [findD_queues_ofBatch]
      rfl
    simp [hnil]
  · have hnd := (queuesSort_perm_of_ok hw.toBuiltBatch σ hw.keys_apart hne (size_le_maxInt64 hsize) hs).nodup_iff.mpr
      (QueueGraph.ofBatch batch).queues.nodup
    exact sum_wSlice_ofBatch_le (hnd.sublist hsub)

end Batch

/-- `DeSS` agrees with its unbounded copy when its loop does. -/
theorem deSS_eq_unbounded {h : Heap} {cq : QueueGraph} (σ : Schedule) {sequence : List Bytes}
    (hfold : sequence.foldl sortQueueNamed (h, cq) = sequence.foldl Unbounded.sortQueueNamed (h, cq)) :
    deSS h cq σ sequence = Unbounded.deSS h cq σ sequence := by
  unfold deSS Unbounded.deSS
  rw [hfold]

/-- On a well-formed batch of `N` nodes with `initialSequence + N` below
`math.MaxInt32`, the pipeline computes what its unbounded copy computes, for
every order of the maps and every iteration budget of rank division. -/
theorem runNezha_eq_unbounded {batch : List (List RWNode)} (hw : Wellformed batch)
    (hsize : initialSequence + (batch.map List.length).sum < maxInt32) (σ : Schedule) (fuel : Nat) :
    runNezha batch σ fuel = Unbounded.runNezha batch σ fuel := by
  unfold runNezha Unbounded.runNezha
  dsimp only
  rw [createGraph_ofBatch hw.toBuiltBatch, except_ok_bind, except_ok_bind]
  cases hs : queuesSort (Heap.ofBatch batch) (QueueGraph.ofBatch batch) σ fuel with
  | error e => rw [except_error_bind, except_error_bind]
  | ok sequence =>
    rw [except_ok_bind, except_ok_bind]
    exact deSS_eq_unbounded σ (foldl_sortQueueNamed_ofBatch hw.unnumbered
      (sum_wSlice_queuesSort_le hw hsize hs (List.Sublist.refl _)) hsize)

/-! ## The results on the code

Below the bound, the results proved over the unbounded loops hold of the code. -/

/-- `DeSS` loses and duplicates nothing, on a non-empty well-formed batch of
`N` nodes with `initialSequence + N` below `math.MaxInt32`, for every order the
runtime ranges over maps in: the pipeline returns once rank division has one
iteration per queue, and every run that returns leaves every node numbered at
least `initialSequence`, every node with the number of its transaction's first
node, and under each rank the write nodes of the surviving transactions of that
rank, each once. -/
theorem deSS_numbers_every_transaction {batch : List (List RWNode)} (hw : Wellformed batch)
    (hne : batch ≠ []) (hsize : initialSequence + (batch.map List.length).sum < maxInt32)
    (σ : Schedule) :
    (∀ fuel, (QueueGraph.ofBatch batch).queues.keys.length ≤ fuel → ∃ res, runNezha batch σ fuel = .ok res) ∧
      ∀ fuel h cq co, runNezha batch σ fuel = .ok (h, cq, co) →
        (∀ n ∈ (batchRefs batch).flatten, initialSequence ≤ (h n).sequence) ∧
        (∀ n ∈ (batchRefs batch).flatten, (h n).sequence = seqOf h n.tx) ∧
        ∀ r, (co.findD r []).Perm (((List.range batch.length).filter fun i =>
          !abortedIn batch cq i && seqOf h i == r).map fun i => writeNodes h ((batchRefs batch).getD i [])) := by
  simp only [runNezha_eq_unbounded hw hsize]
  exact Unbounded.runNezha_numbers_every_transaction hw hne hsize σ

/-- On `sameKeyWriters`, where the second transaction is aborted, the pipeline
numbers both transactions and files only the first. -/
theorem sameKeyWriters_numbered :
    Wellformed sameKeyWriters ∧ sameKeyWriters ≠ [] ∧
      initialSequence + (sameKeyWriters.map List.length).sum < maxInt32 ∧
      (∀ fuel, (QueueGraph.ofBatch sameKeyWriters).queues.keys.length ≤ fuel →
        ∃ res, runNezha sameKeyWriters Schedule.insertion fuel = .ok res) ∧
      ∀ fuel h cq co, runNezha sameKeyWriters Schedule.insertion fuel = .ok (h, cq, co) →
        (∀ n ∈ (batchRefs sameKeyWriters).flatten, initialSequence ≤ (h n).sequence) ∧
        (∀ n ∈ (batchRefs sameKeyWriters).flatten, (h n).sequence = seqOf h n.tx) ∧
        ∀ r, (co.findD r []).Perm (((List.range sameKeyWriters.length).filter fun i =>
          !abortedIn sameKeyWriters cq i && seqOf h i == r).map
            fun i => writeNodes h ((batchRefs sameKeyWriters).getD i [])) :=
  ⟨sameKeyWriters_wellformed, by decide, by decide,
    deSS_numbers_every_transaction sameKeyWriters_wellformed (by decide) (by decide) Schedule.insertion⟩

/-- One transaction that reads a nil key and the key `0x01` and writes the
empty key, as `CreateRWNode` builds it. -/
def nilReader : List (List RWNode) :=
  [[⟨⟨none, some [49]⟩, ⟨[48], 0⟩, .r, 0, false⟩, rwNode [48] .r [1], rwNode [48] .w []]]

theorem nilReader_built : BuiltBatch nilReader where
  built := by
    simp only [nilReader, List.mem_cons, List.not_mem_nil, or_false]
    rintro tx rfl
    exact ⟨[48], 0, [none, some [1]], [some [49], some [49]], [some []], [some [49]], rfl⟩
  nonempty := by decide
  ids_nodup := by decide

/-- On every batch whose nodes start unnumbered, as `CreateRWNode` builds them,
with `N` nodes in all and `initialSequence + N` below `math.MaxInt32`, and over
any list of distinct queue names (`QueuesSort` returns each name once): after
each pass of the loop of `DeSS` every number, and every queue's `maxRead` and
`maxWrite`, lies between zero and `initialSequence + N`; no `int32` sum wraps,
so the loop computes what the unbounded loops compute; and the free-slot search
always finds a number, so every node of every queue sorted leaves its sort
numbered. -/
theorem deSS_sequences_in_range {batch : List (List RWNode)}
    (hfresh : ∀ tx ∈ batch, ∀ n ∈ tx, n.sequence = 0) {cq : QueueGraph}
    (hcq : createGraph (Heap.ofBatch batch) (batchRefs batch) = .ok cq) {sequence : List Bytes}
    (hnd : sequence.Nodup) (hsize : initialSequence + (batch.map List.length).sum < maxInt32) :
    (∀ k, LoopBounded (initialSequence.toNat + (batch.map List.length).sum)
      ((sequence.take k).foldl sortQueueNamed (Heap.ofBatch batch, cq))) ∧
    sequence.foldl sortQueueNamed (Heap.ofBatch batch, cq) =
      sequence.foldl Unbounded.sortQueueNamed (Heap.ofBatch batch, cq) ∧
    ∀ name ∈ sequence, ∀ n ∈ (cq.queues.findD name Queue.zero).rSlice ++ (cq.queues.findD name Queue.zero).wSlice,
      ((sequence.foldl sortQueueNamed (Heap.ofBatch batch, cq)).1 n).sequence ≠ 0 := by
  obtain ⟨hB, hnum⟩ := Unbounded.deSS_in_range hfresh hcq hnd
  obtain rfl := eq_ofBatch_of_createGraph hcq
  -- every part of the loop taken in order agrees with its unbounded copy
  have heq : ∀ names : List Bytes, names.Sublist sequence →
      names.foldl sortQueueNamed (Heap.ofBatch batch, QueueGraph.ofBatch batch) =
        names.foldl Unbounded.sortQueueNamed (Heap.ofBatch batch, QueueGraph.ofBatch batch) :=
    fun names hsub => foldl_sortQueueNamed_ofBatch hfresh (sum_wSlice_ofBatch_le (hnd.sublist hsub)) hsize
  refine ⟨fun k => ?_, heq sequence (List.Sublist.refl _), ?_⟩
  · rw [heq _ (List.take_sublist k sequence)]
    exact hB k
  · rw [heq sequence (List.Sublist.refl _)]
    exact hnum hsize

/-- The loop of `DeSS` on `readOther`, over its queue names in the order of `cq.Queues`. -/
theorem readOther_in_range :
    (∀ tx ∈ readOther, ∀ n ∈ tx, n.sequence = 0) ∧
      createGraph (Heap.ofBatch readOther) (batchRefs readOther) = .ok (QueueGraph.ofBatch readOther) ∧
      (QueueGraph.ofBatch readOther).queues.keys.Nodup ∧
      initialSequence + (readOther.map List.length).sum < maxInt32 ∧
      (∀ k, LoopBounded (initialSequence.toNat + (readOther.map List.length).sum)
        (((QueueGraph.ofBatch readOther).queues.keys.take k).foldl sortQueueNamed
          (Heap.ofBatch readOther, QueueGraph.ofBatch readOther))) ∧
      (QueueGraph.ofBatch readOther).queues.keys.foldl sortQueueNamed
          (Heap.ofBatch readOther, QueueGraph.ofBatch readOther) =
        (QueueGraph.ofBatch readOther).queues.keys.foldl Unbounded.sortQueueNamed
          (Heap.ofBatch readOther, QueueGraph.ofBatch readOther) ∧
      ∀ name ∈ (QueueGraph.ofBatch readOther).queues.keys,
        ∀ n ∈ ((QueueGraph.ofBatch readOther).queues.findD name Queue.zero).rSlice ++
          ((QueueGraph.ofBatch readOther).queues.findD name Queue.zero).wSlice,
        (((QueueGraph.ofBatch readOther).queues.keys.foldl sortQueueNamed
          (Heap.ofBatch readOther, QueueGraph.ofBatch readOther)).1 n).sequence ≠ 0 :=
  have hcq := createGraph_ofBatch readOther_wellformed.toBuiltBatch
  ⟨readOther_wellformed.unnumbered, hcq, (QueueGraph.ofBatch readOther).queues.nodup, by decide,
    deSS_sequences_in_range readOther_wellformed.unnumbered hcq (QueueGraph.ofBatch readOther).queues.nodup
      (by decide)⟩

/-! ## Beyond the bound: many writers of one key -/

/-- The fresh-writer loop never raises `maxWrite` to `math.MaxInt32`: its
free-slot search stops below it. -/
theorem maxWrite_numberFreshWriter_lt {keys : List Int} {t : SortState} (ht : t.queue.maxWrite < maxInt32)
    (w : NodeRef) : (Unbounded.numberFreshWriter keys t w).queue.maxWrite < maxInt32 := by
  unfold Unbounded.numberFreshWriter
  split
  · exact ht
  · split
    · exact ht
    · rename_i i hi
      show i < maxInt32
      have := freeSlot_lt hi
      omega

/-- On a queue without reads whose writes are all unnumbered the code's sort
is the unbounded one, however many writes there are: only the fresh-writer
loop numbers them, and it stays below `math.MaxInt32`. -/
theorem sortInQueue_eq_unbounded_of_fresh {s : SortState} (hs : SortState.Nonneg s) (hr : s.queue.rSlice = [])
    (hmax : s.queue.maxRead = 0) (h0 : ∀ w ∈ s.queue.wSlice, (s.heap w).sequence = 0) :
    sortInQueue s = Unbounded.sortInQueue s := by
  refine SortState.sortInQueue_eq_unbounded hs ?_
  rw [sortInQueue_of_fresh_writes s hr hmax h0, Unbounded.numberFreshWriters_eq]
  exact foldl_invariant (P := fun t : SortState => t.queue.maxWrite < maxInt32) _
    (fun t w _ ht => maxWrite_numberFreshWriter_lt ht w) _ (by decide : initialSequence - 1 < maxInt32)

/-- On writers of one key alone the code's sort is the unbounded one. -/
theorem sortInQueue_manyWriters_eq_unbounded (M : Nat) :
    sortInQueue (SortState.ofBatch (manyWriters M) (convertByte2String (some [0]))) =
      Unbounded.sortInQueue (SortState.ofBatch (manyWriters M) (convertByte2String (some [0]))) := by
  have hw := manyWriters_wellformed M
  have hq := queue_manyWriters M
  exact sortInQueue_eq_unbounded_of_fresh ((loopBounded_ofBatch hw.unnumbered).nonneg _) (by rw [hq]) (by rw [hq])
    fun w _ => sequence_ofBatch hw.toBuiltBatch w

/-- On writers of one key the code's pipeline is the unbounded one. -/
theorem runNezha_manyWriters_eq_unbounded {M : Nat} (hM : 0 < M) (hsize : (M : Int) ≤ maxInt64) (σ : Schedule) :
    runNezha (manyWriters M) σ 1 = Unbounded.runNezha (manyWriters M) σ 1 := by
  have hw := manyWriters_wellformed M
  have hsort := sortInQueue_manyWriters_eq_unbounded M
  unfold SortState.ofBatch at hsort
  unfold runNezha Unbounded.runNezha
  dsimp only
  rw [createGraph_ofBatch hw.toBuiltBatch, except_ok_bind, except_ok_bind, queuesSort_manyWriters hM hsize σ,
    except_ok_bind, except_ok_bind]
  refine deSS_eq_unbounded σ ?_
  -- the one pass of the loop sorts the queue of `0x00`
  rw [List.foldl_cons, List.foldl_cons, List.foldl_nil, List.foldl_nil]
  unfold sortQueueNamed Unbounded.sortQueueNamed
  dsimp only
  rw [hsort]

/-- Without the size bound the pipeline leaves a node unnumbered:
`math.MaxInt32 - 9` writers of one key form a non-empty well-formed batch on
which it returns, and the fresh-writer loop hands out `10`, ...,
`math.MaxInt32 - 1` and leaves the last writer at `0`. -/
theorem manyWriters_unnumbered :
    Wellformed (manyWriters (maxInt32 - 9).toNat) ∧ manyWriters (maxInt32 - 9).toNat ≠ [] ∧
      ∃ h cq co, runNezha (manyWriters (maxInt32 - 9).toNat) Schedule.insertion 1 = .ok (h, cq, co) ∧
        (⟨(maxInt32 - 10).toNat, 0⟩ : NodeRef) ∈ (batchRefs (manyWriters (maxInt32 - 9).toNat)).flatten ∧
        (h ⟨(maxInt32 - 10).toNat, 0⟩).sequence < initialSequence := by
  have heq := runNezha_manyWriters_eq_unbounded (M := (maxInt32 - 9).toNat) (by decide) (by decide) Schedule.insertion
  obtain ⟨hw, hne, h, cq, co, hrun, hmem, hlt⟩ := Unbounded.manyWriters_last_unnumbered
  exact ⟨hw, hne, h, cq, co, heq.trans hrun, hmem, hlt⟩

/-- With `initialSequence + M` at least `math.MaxInt32 + 2`, the code's first
sort of the loop of `DeSS` on `M` writers of one key leaves two live writers at `0`. -/
theorem manyWriters_first_sort_not_ordered {M : Nat} (hM : maxInt32 + 2 ≤ initialSequence + M) :
    ¬ SortState.QueueOrdered (sortInQueue
      ⟨(([] : List Bytes).foldl sortQueueNamed (Heap.ofBatch (manyWriters M), QueueGraph.ofBatch (manyWriters M))).1,
        (([] : List Bytes).foldl sortQueueNamed
          (Heap.ofBatch (manyWriters M), QueueGraph.ofBatch (manyWriters M))).2.edges,
        (([] : List Bytes).foldl sortQueueNamed (Heap.ofBatch (manyWriters M),
          QueueGraph.ofBatch (manyWriters M))).2.queues.findD (convertByte2String (some [0])) Queue.zero⟩) := by
  -- the loop hands its first sort the graph `CreateGraph` built, where the code's sort is the unbounded one
  change ¬ SortState.QueueOrdered (sortInQueue (SortState.ofBatch (manyWriters M) (convertByte2String (some [0]))))
  rw [sortInQueue_manyWriters_eq_unbounded]
  exact manyWriters_not_ordered hM

end Nezha
