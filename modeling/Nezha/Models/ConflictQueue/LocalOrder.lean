import Nezha.Models.ConflictQueue.Completeness
import Nezha.Models.ConflictQueue.SequenceRange

/-!
# The order `sortInQueue` leaves in its own queue

When `sortInQueue` returns, the queue it sorted is in order: the read of a
live transaction carries a smaller number than the write of any other live
transaction, and the writes of two live transactions carry different numbers.
Nothing is said of other queues; the numbers `assignSequence` copies into
queues sorted earlier are what breaks the order there.

The proof follows the four sites that number writes. The reads stay at most
`maxRead` (`sortReads_le_maxRead`). The loop over the numbered writes files
each live one in `tmpWQueue` if its transaction reads the key, and in the
bucket of its number if not (`filed_of_live`). From then on a numbered write
is *placed* (`Placed`): at most `maxWrite`, on a number no other placed write
has, and above every live read of another transaction. Every write site writes
a number above `maxWrite` to a transaction without a read in the queue, so it
keeps `Placed`; the head of a bucket above `maxRead` is placed where it is.
With room below `math.MaxInt32` every live write is placed by the end.

Without that room the fresh-writer search runs out and leaves several writers
of one queue at `0`.
-/

namespace Nezha

namespace SortState

/-- The order `sortInQueue` leaves in its queue: every read of a live
transaction below every write of another live transaction, and the writes of
two live transactions on different numbers. -/
structure QueueOrdered (t : SortState) : Prop where
  reads_before : ∀ r ∈ t.queue.rSlice, ∀ w ∈ t.queue.wSlice, r.tx ≠ w.tx →
    (t.edgeOf r).isAborted = false → (t.edgeOf w).isAborted = false →
      (t.heap r).sequence < (t.heap w).sequence
  writes_distinct : ∀ w ∈ t.queue.wSlice, ∀ w' ∈ t.queue.wSlice, w.tx ≠ w'.tx →
    (t.edgeOf w).isAborted = false → (t.edgeOf w').isAborted = false →
      (t.heap w).sequence ≠ (t.heap w').sequence

instance (t : SortState) : Decidable (QueueOrdered t) :=
  decidable_of_iff ((∀ r ∈ t.queue.rSlice, ∀ w ∈ t.queue.wSlice, r.tx ≠ w.tx →
      (t.edgeOf r).isAborted = false → (t.edgeOf w).isAborted = false →
        (t.heap r).sequence < (t.heap w).sequence) ∧
    ∀ w ∈ t.queue.wSlice, ∀ w' ∈ t.queue.wSlice, w.tx ≠ w'.tx →
      (t.edgeOf w).isAborted = false → (t.edgeOf w').isAborted = false →
        (t.heap w).sequence ≠ (t.heap w').sequence)
    ⟨fun h => ⟨h.1, h.2⟩, fun h => ⟨h.1, h.2⟩⟩

/-- A queue without writes is in order. -/
theorem QueueOrdered.of_wSlice_eq_nil {t : SortState} (h : t.queue.wSlice = []) : QueueOrdered t :=
  ⟨fun _ _ _ hw => absurd (h ▸ hw) List.not_mem_nil, fun _ hw => absurd (h ▸ hw) List.not_mem_nil⟩

/-- Steps that leave the edges leave every node's edge. -/
theorem edgeOf_eq_of_edges {s s' : SortState} (he : s'.edges = s.edges) (hf : Frame s s') (z : NodeRef) :
    s'.edgeOf z = s.edgeOf z := by
  rw [edgeOf, edgeOf, he, hf.heap.transInfo]

/-- A transaction live after a frame was live before it. -/
theorem Frame.live_before {s s' : SortState} (hf : Frame s s') {n : NodeRef}
    (h : (s'.edgeOf n).isAborted = false) : (s.edgeOf n).isAborted = false := by
  cases h' : (s.edgeOf n).isAborted
  · rfl
  · rw [hf.edgeOf_aborted h'] at h
    exact absurd h (by decide)

/-! ## Placed writes -/

/-- The writes `P` placed so far, against the reads `R` of the live
transactions `Live`: the reads at most `maxRead`, the placed writes at most
`maxWrite` and on numbers no two of different transactions share, and every
read below every placed write of another transaction. -/
structure Placed (R : List NodeRef) (Live P : NodeRef → Prop) (t : SortState) : Prop where
  maxRead_le : t.queue.maxRead ≤ t.queue.maxWrite
  reads_le : ∀ r ∈ R, Live r → (t.heap r).sequence ≤ t.queue.maxRead
  writes_le : ∀ w, P w → (t.heap w).sequence ≤ t.queue.maxWrite
  distinct : ∀ w w', P w → P w' → w.tx ≠ w'.tx → (t.heap w).sequence ≠ (t.heap w').sequence
  ordered : ∀ r ∈ R, Live r → ∀ w, P w → r.tx ≠ w.tx → (t.heap r).sequence < (t.heap w).sequence

namespace Placed

variable {R : List NodeRef} {Live P Q : NodeRef → Prop} {t t' : SortState}

theorem mono (hI : Placed R Live P t) (hQP : ∀ w, Q w → P w) : Placed R Live Q t where
  maxRead_le := hI.maxRead_le
  reads_le := hI.reads_le
  writes_le w hw := hI.writes_le w (hQP w hw)
  distinct w w' hw hw' := hI.distinct w w' (hQP w hw) (hQP w' hw')
  ordered r hr hl w hw := hI.ordered r hr hl w (hQP w hw)

/-- Raising `maxWrite` keeps every write placed. -/
theorem raise (hI : Placed R Live P t) (hh : t'.heap = t.heap) (hr : t'.queue.maxRead = t.queue.maxRead)
    (hmw : t.queue.maxWrite ≤ t'.queue.maxWrite) : Placed R Live P t' where
  maxRead_le := by rw [hr]; exact hI.maxRead_le.trans hmw
  reads_le r hr' hl := by rw [hh, hr]; exact hI.reads_le r hr' hl
  writes_le w hw := by rw [hh]; exact (hI.writes_le w hw).trans hmw
  distinct w w' hw hw' hne := by rw [hh]; exact hI.distinct w w' hw hw' hne
  ordered r hr' hl w hw hne := by rw [hh]; exact hI.ordered r hr' hl w hw hne

/-- Writes `K` above `maxRead` and at most `maxWrite`, on numbers that no
placed write has and no two of them of different transactions share, are
placed where they are. -/
theorem keep (hI : Placed R Live P t) {K : NodeRef → Prop}
    (hK : ∀ x, K x → t.queue.maxRead < (t.heap x).sequence ∧ (t.heap x).sequence ≤ t.queue.maxWrite)
    (hKK : ∀ x x', K x → K x' → x.tx ≠ x'.tx → (t.heap x).sequence ≠ (t.heap x').sequence)
    (hPK : ∀ z x, P z → K x → (t.heap z).sequence ≠ (t.heap x).sequence) :
    Placed R Live (fun z => P z ∨ K z) t where
  maxRead_le := hI.maxRead_le
  reads_le := hI.reads_le
  writes_le := by
    rintro w (hw | hw)
    · exact hI.writes_le w hw
    · exact (hK w hw).2
  distinct := by
    rintro w w' (hw | hw) (hw' | hw') hne
    · exact hI.distinct w w' hw hw' hne
    · exact hPK w w' hw hw'
    · exact (hPK w' w hw' hw).symm
    · exact hKK w w' hw hw' hne
  ordered := by
    rintro r hr hl w (hw | hw) hne
    · exact hI.ordered r hr hl w hw hne
    · exact lt_of_le_of_lt (hI.reads_le r hr hl) (hK w hw).1

end Placed

section Sites

variable {batch : List (List RWNode)} (hw : Wellformed batch) {name : Bytes}

include hw

/-- A write site: writing `j` above `maxWrite` to the transaction of a write
`w` that has no read among `R` places `w` and keeps every placed write placed,
since `j` lies above all their numbers. -/
theorem Placed.renumber {R : List NodeRef} {Live P : NodeRef → Prop} {t : SortState}
    (hI : Placed R Live P t) (hf : Frame (ofBatch batch name) t) {w : NodeRef}
    (hwF : w ∈ (batchRefs batch).flatten) (hR : ∀ r ∈ R, r ∈ (batchRefs batch).flatten ∧ r.tx ≠ w.tx)
    (hP : ∀ z, P z → z ∈ (batchRefs batch).flatten) {j : Int} (hj : t.queue.maxWrite < j) :
    Placed R Live (fun z => P z ∨ z = w) ((t.renumber w j).setMaxWrite j) := by
  have hseq : ∀ q ∈ (batchRefs batch).flatten, (((t.renumber w j).setMaxWrite j).heap q).sequence =
      if q.tx = w.tx then j else (t.heap q).sequence :=
    fun q hq => sequence_renumber_ofBatch hw hf hwF j hq
  -- a placed write takes `j` with `w`'s transaction, or keeps its number
  have hnew : ∀ z, (P z ∨ z = w) →
      (z.tx = w.tx ∧ (((t.renumber w j).setMaxWrite j).heap z).sequence = j) ∨
        (z.tx ≠ w.tx ∧ P z ∧ (((t.renumber w j).setMaxWrite j).heap z).sequence = (t.heap z).sequence) := by
    intro z hz
    have hzF : z ∈ (batchRefs batch).flatten := by
      rcases hz with hz | rfl
      · exact hP z hz
      · exact hwF
    rw [hseq z hzF]
    by_cases htx : z.tx = w.tx
    · exact Or.inl ⟨htx, if_pos htx⟩
    · refine Or.inr ⟨htx, ?_, if_neg htx⟩
      rcases hz with hz | rfl
      · exact hz
      · exact absurd rfl htx
  have hmr := hI.maxRead_le
  refine ⟨?_, fun r hr hl => ?_, fun z hz => ?_, fun z z' hz hz' hne => ?_, fun r hr hl z hz hne => ?_⟩
  · show t.queue.maxRead ≤ j
    omega
  · show _ ≤ t.queue.maxRead
    rw [hseq r (hR r hr).1, if_neg (hR r hr).2]
    exact hI.reads_le r hr hl
  · show _ ≤ j
    rcases hnew z hz with ⟨-, h⟩ | ⟨-, hz, h⟩
    · exact h.le
    · rw [h]
      exact (hI.writes_le z hz).trans hj.le
  · rcases hnew z hz with ⟨htx, h⟩ | ⟨htx, hz, h⟩ <;> rcases hnew z' hz' with ⟨htx', h'⟩ | ⟨htx', hz', h'⟩
    · exact absurd (htx.trans htx'.symm) hne
    · rw [h, h']
      exact (lt_of_le_of_lt (hI.writes_le z' hz') hj).ne'
    · rw [h, h']
      exact (lt_of_le_of_lt (hI.writes_le z hz) hj).ne
    · rw [h, h']
      exact hI.distinct z z' hz hz' hne
  · rw [hseq r (hR r hr).1, if_neg (hR r hr).2]
    rcases hnew z hz with ⟨-, h⟩ | ⟨-, hz, h⟩
    · rw [h]
      have := hI.reads_le r hr hl
      omega
    · rw [h]
      exact hI.ordered r hr hl z hz hne

end Sites

/-! ## The reads -/

/-- The first branch of `sortReads` leaves every read and `maxRead` at `initialSequence`. -/
theorem numberFreshReads_spec (s : SortState) : ∀ r ∈ s.queue.rSlice,
    ((numberFreshReads s).heap r).sequence = initialSequence ∧
      (numberFreshReads s).queue.maxRead = initialSequence := by
  refine foldl_establishes (P := fun (r : NodeRef) (t : SortState) =>
    (t.heap r).sequence = initialSequence ∧ t.queue.maxRead = initialSequence)
    (fun t r => ?_) (fun t r y hy => ?_) _ s
  · exact ⟨sequence_renumber_self t r _, sequence_renumber_self t r _⟩
  · -- a later site writes `initialSequence` too, or leaves the read alone
    refine ⟨?_, sequence_renumber_self t r _⟩
    rcases Heap.renumber_sequence_cases t.heap r initialSequence (t.edgeOf r).set y with h | h
    · exact h
    · exact h.trans hy.1

/-- The scan over the numbered reads raises `maxRead` to each of their numbers. -/
theorem scanNumberedReads_le_maxRead (s : SortState) (tmp : List NodeRef) :
    ∀ tr ∈ tmp, (s.heap tr).sequence ≤ (scanNumberedReads s tmp).1.queue.maxRead := by
  have hseq : ∀ (h : Heap) tr n, (h.setAssigned tr n).sequence = (h n).sequence :=
    fun h tr n => (Heap.setAssigned_static h tr n).2.2.2
  refine foldl_establishes_of_invariant (I := fun acc : SortState × Int =>
    ∀ n, (acc.1.heap n).sequence = (s.heap n).sequence)
    (P := fun tr acc => (s.heap tr).sequence ≤ acc.1.queue.maxRead) tmp
    (fun acc tr _ hs n => ?_) (fun acc tr _ hs => ?_) (fun acc tr _ y hs hy => ?_) (s, maxInt32)
    (fun _ => rfl)
  · dsimp only
    split <;> simp only [setMaxRead, hseq, hs]
  · dsimp only
    split
    · simp only [setMaxRead, hseq, hs, le_refl]
    · rename_i hle
      simp only [hseq, hs] at hle
      exact not_lt.mp hle
  · dsimp only
    split
    · rename_i hlt
      exact hy.trans (le_of_lt hlt)
    · exact hy

/-- The loop over the waiting reads, with `min` at most `maxRead`: every read
that is unnumbered or at most `maxRead` before it leaves at most `maxRead`. -/
theorem numberWaitingReads_le_maxRead (t : SortState) {min : Int} (hmin : min ≤ t.queue.maxRead) :
    ∀ r ∈ t.queue.rSlice, ((t.heap r).sequence = 0 ∨ (t.heap r).sequence ≤ t.queue.maxRead) →
      ((numberWaitingReads t min).heap r).sequence ≤ (numberWaitingReads t min).queue.maxRead := by
  -- each site writes `min`, so the numbers stay unset or at most `maxRead`
  have hcases : ∀ (t' : SortState) (x n : NodeRef),
      ((t'.renumber x min).heap n).sequence = min ∨
        ((t'.renumber x min).heap n).sequence = (t'.heap n).sequence :=
    fun t' x n => Heap.renumber_sequence_cases t'.heap x min _ n
  have hmax : (numberWaitingReads t min).queue.maxRead = t.queue.maxRead := by
    refine foldl_rel (R := fun a b : SortState => b.queue = a.queue) (fun _ => rfl)
      (fun h₁₂ h₂₃ => h₂₃.trans h₁₂) (fun t' r => ?_) _ t ▸ rfl
    split <;> rfl
  rw [hmax]
  intro r hr hpre
  refine foldl_establishes_of_invariant (I := fun t' : SortState => ∀ n,
    ((t.heap n).sequence = 0 ∨ (t.heap n).sequence ≤ t.queue.maxRead) →
      (t'.heap n).sequence = 0 ∨ (t'.heap n).sequence ≤ t.queue.maxRead)
    (P := fun r t' => ((t.heap r).sequence = 0 ∨ (t.heap r).sequence ≤ t.queue.maxRead) →
      (t'.heap r).sequence ≤ t.queue.maxRead) _
    (fun t' x _ hI n hn => ?_) (fun t' x _ hI hx => ?_) (fun t' x _ y _ hy hyx => ?_) t
    (fun _ hn => hn) r hr hpre
  · split
    · exact hI n hn
    · rcases hcases t' x n with h | h
      · rw [h]
        exact Or.inr hmin
      · rw [h]
        exact hI n hn
  · split
    · rename_i h0
      exact (hI x hx).resolve_left h0
    · show ((t'.renumber x min).heap x).sequence ≤ _
      rw [sequence_renumber_self]
      exact hmin
  · split
    · exact hy hyx
    · rcases hcases t' x y with h | h
      · rw [h]
        exact hmin
      · rw [h]
        exact hy hyx

/-- After `sortReads` every read of a live transaction is at most `maxRead`. -/
theorem sortReads_le_maxRead (s : SortState) :
    ∀ r ∈ s.queue.rSlice, (s.edgeOf r).isAborted = false →
      ((sortReads s).heap r).sequence ≤ (sortReads s).queue.maxRead := by
  intro r hr hlive
  unfold sortReads
  split
  · exact le_of_eq ((numberFreshReads_spec s r hr).1.trans (numberFreshReads_spec s r hr).2.symm)
  · rename_i htmp
    -- the least number found is that of a numbered read, so at most `maxRead`
    have hmin := scanNumberedReads_le s (tmpRQueue s)
    have hle := scanNumberedReads_le_maxRead s (tmpRQueue s)
    have hf := frame_scanNumberedReads s (tmpRQueue s)
    have hseq := sequence_scanNumberedReads s (tmpRQueue s)
    obtain ⟨tr, htr⟩ := List.exists_mem_of_ne_nil _ htmp
    generalize scanNumberedReads s (tmpRQueue s) = p at hmin hle hf hseq
    obtain ⟨t, min⟩ := p
    refine numberWaitingReads_le_maxRead t ((hmin tr htr).trans (hle tr htr)) r (hf.rSlice ▸ hr) ?_
    rw [hseq]
    -- a numbered read of a live transaction is one of `tmpRQueue`
    by_cases h0 : (s.heap r).sequence = 0
    · exact Or.inl h0
    · exact Or.inr (hle r (List.mem_filter.mpr ⟨hr, by simp [h0, hlive]⟩))

/-! ## The loop over the numbered writes -/

/-- The loop over the numbered writes, started from `t₀`, after some passes:
heap and queue as at `t₀`; in `tmpWQueue` writes of the queue whose
transactions read there; in each bucket writes of the queue filed under their
numbers, whose transactions do not. -/
structure Filing (t₀ : SortState) (acc : SortState × List NodeRef × WriteBuckets) : Prop where
  heap : acc.1.heap = t₀.heap
  queue : acc.1.queue = t₀.queue
  frame : Frame t₀ acc.1
  tmp : ∀ x ∈ acc.2.1, x ∈ t₀.queue.wSlice ∧ ∃ r ∈ t₀.queue.rSlice, r.tx = x.tx
  bucket : ∀ n, ∀ x ∈ acc.2.2.findD n [], x ∈ t₀.queue.wSlice ∧ (t₀.heap x).sequence = n ∧ n ≠ 0 ∧
    ∀ r ∈ t₀.queue.rSlice, r.tx ≠ x.tx

theorem Filing.start (t₀ : SortState) : Filing t₀ (t₀, [], GoMap.empty) :=
  ⟨rfl, rfl, Frame.refl t₀, fun _ h => absurd h List.not_mem_nil, fun _ _ h => absurd h List.not_mem_nil⟩

theorem numberSameKeyWriters_cons (t : SortState) (w : NodeRef) (rest : List NodeRef) :
    Unbounded.numberSameKeyWriters t (w :: rest) = rest.foldl (fun s w => s.abort w)
      (((t.renumber w (t.queue.maxWrite + 1)).setMaxWrite (t.queue.maxWrite + 1)).setMaxRead
        (t.queue.maxWrite + 1)) := rfl

theorem heap_foldl_abort (l : List NodeRef) (t : SortState) :
    (l.foldl (fun s w => s.abort w) t).heap = t.heap ∧ (l.foldl (fun s w => s.abort w) t).queue = t.queue :=
  foldl_rel (R := fun a b : SortState => b.heap = a.heap ∧ b.queue = a.queue) (f := fun s w => s.abort w)
    (fun _ => ⟨rfl, rfl⟩)
    (fun h₁₂ h₂₃ => ⟨h₂₃.1.trans h₁₂.1, h₂₃.2.trans h₁₂.2⟩) (fun _ _ => ⟨rfl, rfl⟩) l t

section WriteFiling

variable {batch : List (List RWNode)} (hw : Wellformed batch) {name : Bytes}

include hw

/-- Aborting a node of the batch raises the flag of the node's own transaction. -/
theorem edgeOf_abort_self {s : SortState} (hf : Frame (ofBatch batch name) s) {n : NodeRef}
    (hn : n ∈ (batchRefs batch).flatten) : ((s.abort n).edgeOf n).isAborted = true := by
  obtain ⟨tx, htx, hpos⟩ := mem_flatten_batchRefs.mp hn
  have hkeys : (ofBatch batch name).edges.keys = batch.map txId := keys_foldl_fileEdge hw.toBuiltBatch
  have hid : (s.heap n).transInfo.id = txId tx :=
    (congrArg TransInfo.id (hf.heap.transInfo n)).trans (id_ofBatch hw.toBuiltBatch htx hpos)
  have hk : (s.heap n).transInfo.id ∈ s.edges.keys := by
    rw [hf.edges_keys, hkeys, hid]
    exact List.mem_map_of_mem (List.mem_of_getElem? htx)
  show ((s.abort n).edges.findD (s.heap n).transInfo.id Edge.zero).isAborted = true
  rw [findD_abort, if_pos ⟨rfl, hk⟩]

/-- The aborts of a loop over nodes of the batch stay raised. -/
theorem aborted_foldl_abort {t : SortState} (hf : Frame (ofBatch batch name) t) {l : List NodeRef}
    (hl : ∀ x ∈ l, x ∈ (batchRefs batch).flatten) :
    ∀ x ∈ l, ((l.foldl (fun s w => s.abort w) t).edgeOf x).isAborted = true :=
  foldl_establishes_of_invariant (I := Frame (ofBatch batch name))
    (P := fun x t' => (t'.edgeOf x).isAborted = true) l
    (fun t' x _ ht => ht.trans (frame_abort t' x)) (fun _ x hx ht => edgeOf_abort_self hw ht (hl x hx))
    (fun t' x _ _ _ hy => (frame_abort t' x).edgeOf_aborted hy) t hf

/-- A read on the edge of a write of the queue, with the write's key, is a
read of the queue in the write's transaction. -/
theorem mem_rSlice_of_edge {t : SortState} (hf : Frame (ofBatch batch name) t) {x rw : NodeRef}
    (hx : x ∈ t.queue.wSlice) (hrw : rw ∈ (t.edgeOf x).set) (hl : (t.heap rw).label = .r)
    (hk : (t.heap x).rwSet.key = (t.heap rw).rwSet.key) : rw ∈ t.queue.rSlice ∧ rw.tx = x.tx := by
  obtain ⟨hxF, hxq, -⟩ := mem_wSlice_ofBatch.mp (hf.wSlice ▸ hx)
  rw [hf.edgeOf_set] at hrw
  obtain ⟨hrwF, hrwx⟩ := (mem_edgeOf_ofBatch hw hxF).mp hrw
  have hkey : (Heap.ofBatch batch rw).rwSet.key = (Heap.ofBatch batch x).rwSet.key :=
    ((congrArg RWSet.key (hf.heap.rwSet rw)).symm.trans hk.symm).trans (congrArg RWSet.key (hf.heap.rwSet x))
  refine ⟨hf.rSlice ▸ mem_rSlice_ofBatch.mpr ⟨hrwF, ?_, ?_⟩, hrwx⟩
  · rw [queueName, hkey]
    exact hxq
  · rw [← hl, hf.heap.label]
    rfl

section Scan

variable {t₀ : SortState} (hf₀ : Frame (ofBatch batch name) t₀)

include hf₀

/-- The read in the queue of a writer still live during the loop was live at `t₀`. -/
theorem live_of_own_read {s : SortState} (hh : s.heap = t₀.heap) (hfs : Frame t₀ s) {x r : NodeRef}
    (hx : x ∈ t₀.queue.wSlice) (hr : r ∈ t₀.queue.rSlice) (hrx : r.tx = x.tx)
    (hab : ¬ (s.edgeOf x).isAborted = true) : (t₀.edgeOf r).isAborted = false := by
  have hc := (queueCtx_ofBatch hw name).frame hf₀
  have hrw : s.edgeOf r = s.edgeOf x :=
    edgeOf_eq_of_transInfo s (by rw [hh]; exact (hc.own_read x hx r hr hrx).2)
  by_contra habr
  exact hab (hrw ▸ hfs.edgeOf_aborted (Bool.not_eq_false _ ▸ habr))

/-! The loop over the numbered writes from `t₀`, whose live reads are marked
and at most `maxRead` and whose numbers are one per transaction. -/

variable
  (hass : ∀ r ∈ t₀.queue.rSlice, (t₀.edgeOf r).isAborted = false → (t₀.heap r).isAssigned = true)
  (hle : ∀ r ∈ t₀.queue.rSlice, (t₀.edgeOf r).isAborted = false →
    (t₀.heap r).sequence ≤ t₀.queue.maxRead)
  (huni : ∀ n ∈ (batchRefs batch).flatten, ∀ m ∈ (batchRefs batch).flatten, n.tx = m.tx →
    (t₀.heap n).sequence = (t₀.heap m).sequence)

include hass hle huni in
/-- One pass of the loop over the numbered writes keeps `Filing`. -/
theorem Filing.step {acc : SortState × List NodeRef × WriteBuckets} (hI : Filing t₀ acc) {x : NodeRef}
    (hx : x ∈ t₀.queue.wSlice) : Filing t₀ (checkWrite acc x) := by
  have hc := (queueCtx_ofBatch hw name).frame hf₀
  obtain ⟨s, tmpWQueue, tmpWQueue2⟩ := acc
  obtain ⟨hh, hq, hfs, htmp, hbk⟩ := hI
  dsimp only at hh hq hfs htmp hbk
  -- filing `x` under its number, for a transaction without a read in the queue
  have hpush : (s.heap x).sequence ≠ 0 → (∀ r ∈ t₀.queue.rSlice, r.tx ≠ x.tx) →
      Filing t₀ (s, tmpWQueue, tmpWQueue2.push (s.heap x).sequence x) := by
    intro h0 hno
    refine ⟨hh, hq, hfs, htmp, fun n y hy => ?_⟩
    rcases WriteBuckets.mem_findD_push.mp hy with hy | ⟨rfl, rfl⟩
    · exact hbk n y hy
    · rw [← hh]
      exact ⟨hx, rfl, h0, hno⟩
  unfold checkWrite
  dsimp only
  split_ifs with h0 hab hle' hsame hbefore
  · exact ⟨hh, hq, hfs, htmp, hbk⟩
  · exact ⟨hh, hq, hfs, htmp, hbk⟩
  · -- `isSame`: the marked read found is the transaction's read of the queue
    refine ⟨hh, hq, hfs, fun y hy => ?_, hbk⟩
    rcases List.mem_append.mp hy with hy | hy
    · exact htmp y hy
    · obtain rfl := List.mem_singleton.mp hy
      obtain ⟨rw, hrw, hl, -, hk⟩ := (readScan_fst _ _ _ _).mp hsame
      rw [hfs.edgeOf_set] at hrw
      rw [hh] at hl hk
      obtain ⟨hrR, hrx⟩ := mem_rSlice_of_edge hw hf₀ hx hrw hl hk
      exact ⟨hx, rw, hrR, hrx⟩
  · exact ⟨hh, hq, hfs.trans (frame_abort s x), htmp, hbk⟩
  · -- neither: a read of the transaction in the queue would be live, marked and found
    refine hpush h0 fun r hr hrx => hsame ((readScan_fst _ _ _ _).mpr ⟨r, ?_, ?_, ?_, ?_⟩)
    · rw [hfs.edgeOf_set]
      exact (hc.own_read x hx r hr hrx).1
    · rw [hh]
      exact hc.read_label r hr
    · rw [hh]
      exact hass r hr (live_of_own_read hw hf₀ hh hfs hx hr hrx hab)
    · rw [hh]
      exact (hc.same_key x hx r hr).symm
  · -- above `maxRead`: a read of the transaction would carry its number, at most `maxRead`
    refine hpush h0 fun r hr hrx => hle' ?_
    rw [hh, hq, ← huni r (mem_flatten_of_rSlice hf₀ hr) x (mem_flatten_of_wSlice hf₀ hx) hrx]
    exact hle r hr (live_of_own_read hw hf₀ hh hfs hx hr hrx hab)

include hass hle huni in
theorem Filing.foldl (l : List NodeRef) (hl : ∀ x ∈ l, x ∈ t₀.queue.wSlice) :
    ∀ acc, Filing t₀ acc → Filing t₀ (l.foldl checkWrite acc) :=
  foldl_invariant l fun _ x hx hI => hI.step hw hf₀ hass hle huni (hl x hx)

end Scan

/-- A write still live after the loop over the numbered writes is unnumbered,
in `tmpWQueue`, or in the bucket of its number. -/
theorem filed_of_live (t₀ : SortState) (l : List NodeRef) (hl : ∀ x ∈ l, x ∈ (batchRefs batch).flatten)
    (acc : SortState × List NodeRef × WriteBuckets) (hh : acc.1.heap = t₀.heap)
    (hfa : Frame (ofBatch batch name) acc.1) :
    ∀ x ∈ l, ((l.foldl checkWrite acc).1.edgeOf x).isAborted = false →
      (t₀.heap x).sequence = 0 ∨ x ∈ (l.foldl checkWrite acc).2.1 ∨
        x ∈ (l.foldl checkWrite acc).2.2.findD (t₀.heap x).sequence [] := by
  refine foldl_establishes_of_invariant (I := fun a : SortState × List NodeRef × WriteBuckets =>
    a.1.heap = t₀.heap ∧ Frame (ofBatch batch name) a.1)
    (P := fun x a => (a.1.edgeOf x).isAborted = false → (t₀.heap x).sequence = 0 ∨ x ∈ a.2.1 ∨
      x ∈ a.2.2.findD (t₀.heap x).sequence []) (f := checkWrite) l
    (fun a y _ hI => ⟨(heap_foldl_checkWrite [y] a).1.trans hI.1, hI.2.trans (frame_checkWrite a y)⟩)
    (fun a x hx hI => ?_) (fun a y _ x _ hpre => ?_) acc ⟨hh, hfa⟩
  · obtain ⟨s, tmpWQueue, tmpWQueue2⟩ := a
    obtain ⟨hs, hfs⟩ := hI
    dsimp only at hs hfs ⊢
    unfold checkWrite
    dsimp only
    split_ifs with h0 hab hle' hsame hbefore
    · exact fun _ => Or.inl (hs ▸ h0)
    · intro hlive
      rw [hlive] at hab
      exact absurd hab Bool.false_ne_true
    · exact fun _ => Or.inr (Or.inl (List.mem_append_right _ (List.mem_singleton_self x)))
    · intro hlive
      rw [edgeOf_abort_self hw hfs (hl x hx)] at hlive
      exact absurd hlive (by decide)
    · exact fun _ => Or.inr (Or.inr (WriteBuckets.mem_findD_push.mpr (Or.inr ⟨by rw [hs], rfl⟩)))
    · exact fun _ => Or.inr (Or.inr (WriteBuckets.mem_findD_push.mpr (Or.inr ⟨by rw [hs], rfl⟩)))
  · -- a later pass only appends, files and aborts
    intro hlive
    have hlive' : (a.1.edgeOf x).isAborted = false := (frame_checkWrite a y).live_before hlive
    obtain ⟨t, ht, -⟩ := tmp_foldl_checkWrite [y] a
    rcases hpre hlive' with h | h | h
    · exact Or.inl h
    · refine Or.inr (Or.inl ?_)
      rw [show checkWrite a y = [y].foldl checkWrite a from rfl, ht]
      exact List.mem_append_left _ h
    · refine Or.inr (Or.inr ?_)
      rcases buckets_checkWrite a y with hb | ⟨-, hb⟩
      · rw [hb]
        exact h
      · rw [hb]
        exact WriteBuckets.mem_findD_push.mpr (Or.inl h)

/-! ## The loop over `tmpWQueue` -/

/-- The loop over `tmpWQueue` numbers only the transaction of its first
writer, at `maxWrite + 1`. -/
theorem sequence_numberSameKeyWriters {t : SortState} (hf : Frame (ofBatch batch name) t) :
    ∀ {tmpWQueue : List NodeRef}, (∀ w ∈ tmpWQueue, w ∈ (batchRefs batch).flatten) →
      ∀ q ∈ (batchRefs batch).flatten,
        ((Unbounded.numberSameKeyWriters t tmpWQueue).heap q).sequence = (t.heap q).sequence ∨
          ∃ w, tmpWQueue.head? = some w ∧ q.tx = w.tx ∧
            ((Unbounded.numberSameKeyWriters t tmpWQueue).heap q).sequence = t.queue.maxWrite + 1
  | [], _, _, _ => Or.inl rfl
  | w :: rest, hmem, q, hq => by
    rw [numberSameKeyWriters_cons, (heap_foldl_abort _ _).1]
    show ((t.renumber w (t.queue.maxWrite + 1)).heap q).sequence = _ ∨
      ∃ w', some w = some w' ∧ q.tx = w'.tx ∧ ((t.renumber w (t.queue.maxWrite + 1)).heap q).sequence = _
    rw [sequence_renumber_ofBatch hw hf (hmem w List.mem_cons_self) _ hq]
    split
    · rename_i htx
      exact Or.inr ⟨w, rfl, htx, rfl⟩
    · exact Or.inl rfl

/-- The loop over `tmpWQueue` places its first writer at `maxWrite + 1`, which
`maxRead` takes; the read of that writer's transaction goes up with it. -/
theorem placed_numberSameKeyWriters {R : List NodeRef} {Live : NodeRef → Prop} {t : SortState}
    (hf : Frame (ofBatch batch name) t) (hRF : ∀ r ∈ R, r ∈ (batchRefs batch).flatten)
    (hmr : t.queue.maxRead ≤ t.queue.maxWrite)
    (hreads : ∀ r ∈ R, Live r → (t.heap r).sequence ≤ t.queue.maxRead) :
    ∀ {tmpWQueue : List NodeRef}, (∀ w ∈ tmpWQueue, w ∈ (batchRefs batch).flatten) →
      Placed R Live (fun z => tmpWQueue.head? = some z) (Unbounded.numberSameKeyWriters t tmpWQueue)
  | [], _ => ⟨hmr, hreads, fun _ h => by simp at h, fun _ _ h => by simp at h, fun _ _ _ _ h => by simp at h⟩
  | w :: rest, hmem => by
    have hwF := hmem w List.mem_cons_self
    have hseq : ∀ q ∈ (batchRefs batch).flatten,
        ((((t.renumber w (t.queue.maxWrite + 1)).setMaxWrite (t.queue.maxWrite + 1)).setMaxRead
          (t.queue.maxWrite + 1)).heap q).sequence =
          if q.tx = w.tx then t.queue.maxWrite + 1 else (t.heap q).sequence :=
      fun q hq => sequence_renumber_ofBatch hw hf hwF _ hq
    have h₁ : Placed R Live (fun z => (w :: rest).head? = some z)
        (((t.renumber w (t.queue.maxWrite + 1)).setMaxWrite (t.queue.maxWrite + 1)).setMaxRead
          (t.queue.maxWrite + 1)) := by
      refine ⟨le_rfl, fun r hr hl => ?_, fun z hz => ?_, fun z z' hz hz' hne => ?_,
        fun r hr hl z hz hne => ?_⟩
      · show _ ≤ t.queue.maxWrite + 1
        rw [hseq r (hRF r hr)]
        split
        · exact le_rfl
        · have := hreads r hr hl
          omega
      · rw [← Option.some.inj hz]
        show _ ≤ t.queue.maxWrite + 1
        rw [hseq w hwF, if_pos rfl]
      · exact absurd ((Option.some.inj hz).symm.trans (Option.some.inj hz') ▸ rfl) hne
      · rw [← Option.some.inj hz] at hne ⊢
        rw [hseq r (hRF r hr), if_neg hne, hseq w hwF, if_pos rfl]
        have := hreads r hr hl
        omega
    obtain ⟨hh, hq⟩ := heap_foldl_abort rest
      (((t.renumber w (t.queue.maxWrite + 1)).setMaxWrite (t.queue.maxWrite + 1)).setMaxRead
        (t.queue.maxWrite + 1))
    rw [numberSameKeyWriters_cons]
    exact h₁.raise hh (congrArg Queue.maxRead hq) (congrArg Queue.maxWrite hq).ge

end WriteFiling

/-- The first writer of `tmpWQueue` leaves at `maxRead`. -/
theorem sequence_numberSameKeyWriters_head (t : SortState) (w : NodeRef) (rest : List NodeRef) :
    ((Unbounded.numberSameKeyWriters t (w :: rest)).heap w).sequence = (Unbounded.numberSameKeyWriters t (w :: rest)).queue.maxRead := by
  obtain ⟨hh, hq⟩ := heap_foldl_abort rest
    (((t.renumber w (t.queue.maxWrite + 1)).setMaxWrite (t.queue.maxWrite + 1)).setMaxRead
      (t.queue.maxWrite + 1))
  rw [numberSameKeyWriters_cons, hh, hq]
  exact sequence_renumber_self t w _

/-! ## The loop over the unnumbered writes -/


/-- The writes placed by the fresh-writer loop from `t₃` to `t`: those placed
at `t₃`, and the writes of the queue unnumbered at `t₃` and numbered at `t`. -/
def FreshPlaced (batch : List (List RWNode)) (name : Bytes) (P₃ : NodeRef → Prop) (t₃ t : SortState)
    (z : NodeRef) : Prop :=
  P₃ z ∨ (z ∈ (ofBatch batch name).queue.wSlice ∧ (t₃.heap z).sequence = 0 ∧ (t.heap z).sequence ≠ 0)

/-- The fresh-writer loop from `t₃` to `t`: the writes numbered at `t₃` keep
their numbers, `maxRead` stays, and the `FreshPlaced` writes are placed, none
of them on a kept number above `maxRead`. -/
structure FreshStage (batch : List (List RWNode)) (name : Bytes) (Live P₃ : NodeRef → Prop)
    (keys : List Int) (t₃ t : SortState) : Prop where
  frame : Frame (ofBatch batch name) t
  maxRead : t.queue.maxRead = t₃.queue.maxRead
  kept : ∀ z ∈ (ofBatch batch name).queue.wSlice, (t₃.heap z).sequence ≠ 0 →
    (t.heap z).sequence = (t₃.heap z).sequence
  placed : Placed (ofBatch batch name).queue.rSlice Live (FreshPlaced batch name P₃ t₃ t) t
  avoids : ∀ z, FreshPlaced batch name P₃ t₃ t z → (t.heap z).sequence ∈ keys →
    (t.heap z).sequence ≤ t.queue.maxRead

section FreshWriters

variable {batch : List (List RWNode)} {name : Bytes} {Live P₃ : NodeRef → Prop} {keys : List Int}
  {t₃ : SortState}

theorem FreshStage.start (hf : Frame (ofBatch batch name) t₃)
    (hI : Placed (ofBatch batch name).queue.rSlice Live P₃ t₃)
    (havoid : ∀ z, P₃ z → (t₃.heap z).sequence ∈ keys → (t₃.heap z).sequence ≤ t₃.queue.maxRead) :
    FreshStage batch name Live P₃ keys t₃ t₃ := by
  -- nothing is numbered between `t₃` and itself
  have hP : ∀ z, FreshPlaced batch name P₃ t₃ t₃ z → P₃ z := by
    rintro z (hz | ⟨-, h0, h0'⟩)
    · exact hz
    · exact absurd h0 h0'
  exact ⟨hf, rfl, fun _ _ _ => rfl, hI.mono hP, fun z hz => havoid z (hP z hz)⟩

variable (hw : Wellformed batch)

include hw

/-- One pass of the fresh-writer loop keeps `FreshStage`: the number found
lies above `maxWrite` and is kept by no write, and it goes to a transaction
without a read in the queue, since the write was unnumbered at `t₃`. -/
theorem FreshStage.step (hP₃ : ∀ z, P₃ z → z ∈ (ofBatch batch name).queue.wSlice)
    (hfresh : ∀ z ∈ (ofBatch batch name).queue.wSlice, (t₃.heap z).sequence = 0 →
      ∀ r ∈ (ofBatch batch name).queue.rSlice, r.tx ≠ z.tx)
    {t : SortState} (hI : FreshStage batch name Live P₃ keys t₃ t) {w : NodeRef}
    (hwW : w ∈ (ofBatch batch name).queue.wSlice) :
    FreshStage batch name Live P₃ keys t₃ (Unbounded.numberFreshWriter keys t w) := by
  have hWF : ∀ z ∈ (ofBatch batch name).queue.wSlice, z ∈ (batchRefs batch).flatten :=
    fun z hz => mem_flatten_of_wSlice (Frame.refl _) hz
  -- the only write of the queue in `w`'s transaction is `w`
  have hsame : ∀ z ∈ (ofBatch batch name).queue.wSlice, z.tx = w.tx → z = w :=
    fun z hz htx => List.inj_on_of_nodup_map (queueCtx_ofBatch hw name).writes_tx hz hwW htx
  have hPW : ∀ z, FreshPlaced batch name P₃ t₃ t z → z ∈ (ofBatch batch name).queue.wSlice := by
    rintro z (hz | hz)
    · exact hP₃ z hz
    · exact hz.1
  unfold Unbounded.numberFreshWriter
  split
  · exact hI
  · rename_i h0
    split
    · exact hI
    · rename_i i hi
      have h₃ : (t₃.heap w).sequence = 0 := by
        by_contra h
        exact h0 ((hI.kept w hwW h).symm ▸ h)
      have hseq : ∀ q ∈ (batchRefs batch).flatten, (((t.renumber w i).setMaxWrite i).heap q).sequence =
          if q.tx = w.tx then i else (t.heap q).sequence :=
        fun q hq => sequence_renumber_ofBatch hw hI.frame (hWF w hwW) i hq
      have hFP : ∀ z, FreshPlaced batch name P₃ t₃ ((t.renumber w i).setMaxWrite i) z →
          FreshPlaced batch name P₃ t₃ t z ∨ z = w := by
        rintro z (hz | ⟨hzW, hz₃, hz0⟩)
        · exact Or.inl (Or.inl hz)
        · by_cases htx : z.tx = w.tx
          · exact Or.inr (hsame z hzW htx)
          · rw [hseq z (hWF z hzW), if_neg htx] at hz0
            exact Or.inl (Or.inr ⟨hzW, hz₃, hz0⟩)
      have hplaced := hI.placed.renumber hw hI.frame (hWF w hwW)
        (fun r hr => ⟨mem_flatten_of_rSlice (Frame.refl _) hr, hfresh w hwW h₃ r hr⟩)
        (fun z hz => hWF z (hPW z hz)) (show t.queue.maxWrite < i by have := freeSlot_ge hi; omega)
      refine ⟨hI.frame.trans ((frame_renumber t w i).trans (frame_setMaxWrite _ _)), hI.maxRead,
        fun z hz hz0 => ?_, hplaced.mono hFP, fun z hz hk => ?_⟩
      · rw [hseq z (hWF z hz)]
        split
        · rename_i htx
          exact absurd (hsame z hz htx ▸ h₃) hz0
        · exact hI.kept z hz hz0
      · -- the new number is kept by no write; every other number stays
        have hzW : z ∈ (ofBatch batch name).queue.wSlice := by
          rcases hFP z hz with hz' | rfl
          · exact hPW z hz'
          · exact hwW
        rw [hseq z (hWF z hzW)] at hk ⊢
        split at hk
        · exact absurd hk (freeSlot_not_mem hi)
        · rename_i htx
          rw [if_neg htx]
          rcases hFP z hz with hz' | rfl
          · exact hI.avoids z hz' hk
          · exact absurd rfl htx

theorem FreshStage.foldl (hP₃ : ∀ z, P₃ z → z ∈ (ofBatch batch name).queue.wSlice)
    (hfresh : ∀ z ∈ (ofBatch batch name).queue.wSlice, (t₃.heap z).sequence = 0 →
      ∀ r ∈ (ofBatch batch name).queue.rSlice, r.tx ≠ z.tx)
    (hI : FreshStage batch name Live P₃ keys t₃ t₃) :
    FreshStage batch name Live P₃ keys t₃ (Unbounded.numberFreshWriters t₃ keys) := by
  rw [Unbounded.numberFreshWriters_eq]
  exact foldl_invariant _ (fun t w hwW ht => ht.step hw hP₃ hfresh (hI.frame.wSlice ▸ hwW)) t₃ hI

end FreshWriters

/-! ## `maxWrite` up to the kept numbers -/

theorem heap_raiseMaxWrite (t : SortState) (keys : List Int) : (raiseMaxWrite t keys).heap = t.heap := by
  unfold raiseMaxWrite
  split
  · split <;> rfl
  · rfl

/-- Over numbers in increasing order, `raiseMaxWrite` leaves `maxWrite` at least each of them. -/
theorem le_maxWrite_raiseMaxWrite (t : SortState) {keys : List Int} (hk : keys.Pairwise (· ≤ ·)) :
    ∀ k ∈ keys, k ≤ (raiseMaxWrite t keys).queue.maxWrite := by
  intro k hk'
  unfold raiseMaxWrite
  split
  · rename_i maxSeq hlast
    -- the last number is the largest
    have hkm : k ≤ maxSeq := by
      obtain ⟨ys, rfl⟩ := List.getLast?_eq_some_iff.mp hlast
      rcases List.mem_append.mp hk' with hy | hy
      · exact (List.pairwise_append.mp hk).2.2 k hy maxSeq (List.mem_singleton_self _)
      · exact le_of_eq (List.mem_singleton.mp hy)
    split
    · exact hkm
    · rename_i hge
      show k ≤ t.queue.maxWrite
      omega
  · rename_i hnone
    exact absurd (List.getLast?_eq_none_iff.mp hnone ▸ hk') List.not_mem_nil

/-- The heads of the buckets of `keys` above `maxRead`: the writes
`renumberKeptWriters` leaves on their numbers. -/
def BucketHead (keys : List Int) (tmpWQueue2 : WriteBuckets) (maxRead : Int) (x : NodeRef) : Prop :=
  ∃ n ∈ keys, maxRead < n ∧ (x, 0) ∈ (tmpWQueue2.findD n []).zipIdx

/-- With `maxWrite` raised to the kept numbers, the heads of the buckets above
`maxRead` are placed where they are, beside placed writes that hold no kept
number above `maxRead`. -/
theorem Placed.bucketHeads {R : List NodeRef} {Live P : NodeRef → Prop} {t : SortState} {keys : List Int}
    {tmpWQueue2 : WriteBuckets} (hI : Placed R Live P t)
    (hseq : ∀ n, ∀ x ∈ tmpWQueue2.findD n [], (t.heap x).sequence = n)
    (hkeys : ∀ k ∈ keys, k ≤ t.queue.maxWrite)
    (havoid : ∀ z, P z → (t.heap z).sequence ∈ keys → (t.heap z).sequence ≤ t.queue.maxRead) :
    Placed R Live (fun z => P z ∨ BucketHead keys tmpWQueue2 t.queue.maxRead z) t := by
  refine hI.keep ?_ ?_ ?_
  · rintro x ⟨n, hn, hlt, hx⟩
    rw [hseq n x (List.fst_mem_of_mem_zipIdx hx)]
    exact ⟨hlt, hkeys n hn⟩
  · -- two heads on one number head one bucket, so they are one write
    rintro x x' ⟨n, -, -, hx⟩ ⟨n', -, -, hx'⟩ hne heq
    have hxn := hseq n x (List.fst_mem_of_mem_zipIdx hx)
    have hxn' := hseq n' x' (List.fst_mem_of_mem_zipIdx hx')
    obtain rfl : n = n' := hxn.symm.trans (heq.trans hxn')
    have h₀ := List.mem_zipIdx_iff_getElem?.mp hx
    have h₀' := List.mem_zipIdx_iff_getElem?.mp hx'
    exact hne (congrArg NodeRef.tx (Option.some.inj (h₀.symm.trans h₀')))
  · rintro z x hz ⟨n, hn, hlt, hx⟩ heq
    rw [hseq n x (List.fst_mem_of_mem_zipIdx hx)] at heq
    have havoid := havoid z hz (heq ▸ hn)
    omega

/-! ## The loop over the kept writes -/

/-- A site above `maxWrite` leaves a number, or writes one above `maxWrite`. -/
theorem sequence_numberWrite_cases (t : SortState) (x z : NodeRef) :
    (((t.renumber x (t.queue.maxWrite + 1)).setMaxWrite (t.queue.maxWrite + 1)).heap z).sequence =
        (t.heap z).sequence ∨
      t.queue.maxWrite < (((t.renumber x (t.queue.maxWrite + 1)).setMaxWrite (t.queue.maxWrite + 1)).heap z).sequence := by
  rcases Heap.renumber_sequence_cases t.heap x (t.queue.maxWrite + 1) (t.edgeOf x).set z with h | h
  · right
    show t.queue.maxWrite < (t.heap.renumber x (t.queue.maxWrite + 1) (t.edgeOf x).set z).sequence
    omega
  · exact Or.inl h

/-- The writes placed by the kept-writer loop from `t₅` to `t`: those placed at
`t₅`, and the writes of the queue moved from at most `maxWrite` of `t₅` to
above it. -/
def KeptPlaced (batch : List (List RWNode)) (name : Bytes) (P₅ : NodeRef → Prop) (t₅ t : SortState)
    (z : NodeRef) : Prop :=
  P₅ z ∨ (z ∈ (ofBatch batch name).queue.wSlice ∧ (t₅.heap z).sequence ≤ t₅.queue.maxWrite ∧
    t₅.queue.maxWrite < (t.heap z).sequence)

/-- The kept-writer loop from `t₅` to `t`: `maxRead` stays and `maxWrite`
only rises, every number is that of `t₅` or above `t₅`'s `maxWrite`, and the
`KeptPlaced` writes are placed. -/
structure KeptStage (batch : List (List RWNode)) (name : Bytes) (Live P₅ : NodeRef → Prop)
    (t₅ t : SortState) : Prop where
  frame : Frame (ofBatch batch name) t
  maxRead : t.queue.maxRead = t₅.queue.maxRead
  maxWrite : t₅.queue.maxWrite ≤ t.queue.maxWrite
  moved : ∀ z, (t.heap z).sequence = (t₅.heap z).sequence ∨ t₅.queue.maxWrite < (t.heap z).sequence
  placed : Placed (ofBatch batch name).queue.rSlice Live (KeptPlaced batch name P₅ t₅ t) t

section KeptWriters

variable {batch : List (List RWNode)} {name : Bytes} {Live P₅ : NodeRef → Prop} {t₅ : SortState}

theorem KeptStage.start (hf : Frame (ofBatch batch name) t₅)
    (hI : Placed (ofBatch batch name).queue.rSlice Live P₅ t₅) : KeptStage batch name Live P₅ t₅ t₅ := by
  have hP : ∀ z, KeptPlaced batch name P₅ t₅ t₅ z → P₅ z := by
    rintro z (hz | ⟨-, hle, hlt⟩)
    · exact hz
    · omega
  exact ⟨hf, rfl, le_rfl, fun _ => Or.inl rfl, hI.mono hP⟩

/-- A number above `maxWrite` of `t₅` stays above it. -/
theorem KeptStage.above {t : SortState} (hI : KeptStage batch name Live P₅ t₅ t) (n : Int)
    (wi : NodeRef × Nat) {z : NodeRef} (hz : t₅.queue.maxWrite < (t.heap z).sequence) :
    t₅.queue.maxWrite < ((Unbounded.renumberKeptWriter n t wi).heap z).sequence := by
  unfold Unbounded.renumberKeptWriter
  split
  · exact hz
  · rcases sequence_numberWrite_cases t wi.1 z with h | h
    · exact h ▸ hz
    · exact lt_of_le_of_lt hI.maxWrite h

variable (hw : Wellformed batch)

include hw

/-- One pass of the kept-writer loop keeps `KeptStage`: a write it moves goes
above `maxWrite`, and its transaction has no read in the queue. -/
theorem KeptStage.step (hP₅ : ∀ z, P₅ z → z ∈ (ofBatch batch name).queue.wSlice) {t : SortState}
    (hI : KeptStage batch name Live P₅ t₅ t) (n : Int) {wi : NodeRef × Nat}
    (hwi : wi.1 ∈ (ofBatch batch name).queue.wSlice)
    (hno : ∀ r ∈ (ofBatch batch name).queue.rSlice, r.tx ≠ wi.1.tx) :
    KeptStage batch name Live P₅ t₅ (Unbounded.renumberKeptWriter n t wi) := by
  have hWF : ∀ z ∈ (ofBatch batch name).queue.wSlice, z ∈ (batchRefs batch).flatten :=
    fun z hz => mem_flatten_of_wSlice (Frame.refl _) hz
  have hPW : ∀ z, KeptPlaced batch name P₅ t₅ t z → z ∈ (ofBatch batch name).queue.wSlice := by
    rintro z (hz | hz)
    · exact hP₅ z hz
    · exact hz.1
  unfold Unbounded.renumberKeptWriter
  split
  · exact hI
  · have hseq : ∀ q ∈ (batchRefs batch).flatten,
        (((t.renumber wi.1 (t.queue.maxWrite + 1)).setMaxWrite (t.queue.maxWrite + 1)).heap q).sequence =
          if q.tx = wi.1.tx then t.queue.maxWrite + 1 else (t.heap q).sequence :=
      fun q hq => sequence_renumber_ofBatch hw hI.frame (hWF wi.1 hwi) _ hq
    have hKP : ∀ z, KeptPlaced batch name P₅ t₅
        ((t.renumber wi.1 (t.queue.maxWrite + 1)).setMaxWrite (t.queue.maxWrite + 1)) z →
          KeptPlaced batch name P₅ t₅ t z ∨ z = wi.1 := by
      rintro z (hz | ⟨hzW, hle, hlt⟩)
      · exact Or.inl (Or.inl hz)
      · by_cases htx : z.tx = wi.1.tx
        · exact Or.inr (List.inj_on_of_nodup_map (queueCtx_ofBatch hw name).writes_tx hzW hwi htx)
        · rw [hseq z (hWF z hzW), if_neg htx] at hlt
          exact Or.inl (Or.inr ⟨hzW, hle, hlt⟩)
    have hplaced := hI.placed.renumber hw hI.frame (hWF wi.1 hwi)
      (fun r hr => ⟨mem_flatten_of_rSlice (Frame.refl _) hr, hno r hr⟩)
      (fun z hz => hWF z (hPW z hz)) (show t.queue.maxWrite < t.queue.maxWrite + 1 by omega)
    refine ⟨hI.frame.trans ((frame_renumber t _ _).trans (frame_setMaxWrite _ _)), hI.maxRead,
      hI.maxWrite.trans (show t.queue.maxWrite ≤ t.queue.maxWrite + 1 by omega), fun z => ?_, hplaced.mono hKP⟩
    rcases sequence_numberWrite_cases t wi.1 z with h | h
    · rw [h]
      exact hI.moved z
    · exact Or.inr (lt_of_le_of_lt hI.maxWrite h)

section Buckets

variable (hP₅ : ∀ z, P₅ z → z ∈ (ofBatch batch name).queue.wSlice) {tmpWQueue2 : WriteBuckets}
  (hbk : ∀ n, ∀ x ∈ tmpWQueue2.findD n [], x ∈ (ofBatch batch name).queue.wSlice ∧
    ∀ r ∈ (ofBatch batch name).queue.rSlice, r.tx ≠ x.tx)

include hP₅ hbk

/-- The passes over one bucket keep `KeptStage`. -/
theorem KeptStage.bucket (n : Int) {t : SortState} (hI : KeptStage batch name Live P₅ t₅ t) :
    KeptStage batch name Live P₅ t₅ (((tmpWQueue2.findD n []).zipIdx).foldl (Unbounded.renumberKeptWriter n) t) :=
  foldl_invariant _ (fun _ wi hwi ht => (hbk n wi.1 (List.fst_mem_of_mem_zipIdx hwi)).elim
    (fun hx hno => ht.step hw hP₅ n hx hno)) t hI

theorem KeptStage.foldl (keys : List Int) (hI : KeptStage batch name Live P₅ t₅ t₅) :
    KeptStage batch name Live P₅ t₅ (Unbounded.renumberKeptWriters t₅ keys tmpWQueue2) := by
  rw [Unbounded.renumberKeptWriters_eq]
  exact foldl_invariant keys (fun t n _ ht => ht.bucket hw hP₅ hbk n) t₅ hI

/-- Every write of a kept bucket that the loop does not leave in place ends
above `maxWrite` of `t₅`: its own pass moves it there, and no later pass
brings a number down. -/
theorem renumberKeptWriters_above (keys : List Int) (hI : KeptStage batch name Live P₅ t₅ t₅) :
    ∀ n ∈ keys, ∀ wi ∈ (tmpWQueue2.findD n []).zipIdx, ¬ (n > t₅.queue.maxRead ∧ wi.2 = 0) →
      t₅.queue.maxWrite < ((Unbounded.renumberKeptWriters t₅ keys tmpWQueue2).heap wi.1).sequence := by
  rw [Unbounded.renumberKeptWriters_eq]
  refine foldl_establishes_of_invariant (I := KeptStage batch name Live P₅ t₅)
    (P := fun n t => ∀ wi ∈ (tmpWQueue2.findD n []).zipIdx, ¬ (n > t₅.queue.maxRead ∧ wi.2 = 0) →
      t₅.queue.maxWrite < (t.heap wi.1).sequence)
    (f := fun s n => ((tmpWQueue2.findD n []).zipIdx).foldl (Unbounded.renumberKeptWriter n) s) keys
    (fun t n _ ht => ht.bucket hw hP₅ hbk n) (fun t n _ ht => ?_) (fun t n _ m ht hm => ?_) t₅ hI
  · refine foldl_establishes_of_invariant (I := KeptStage batch name Live P₅ t₅)
      (P := fun (wi : NodeRef × Nat) (t : SortState) =>
        ¬ (n > t₅.queue.maxRead ∧ wi.2 = 0) → t₅.queue.maxWrite < (t.heap wi.1).sequence)
      (f := Unbounded.renumberKeptWriter n) _ (fun t' wi hwi ht' => (hbk n wi.1 (List.fst_mem_of_mem_zipIdx hwi)).elim
        (fun hx hno => ht'.step hw hP₅ n hx hno)) (fun t' wi _ ht' hmove => ?_)
      (fun t' wi _ wi' ht' h hmove => ht'.above n wi (h hmove)) t ht
    unfold Unbounded.renumberKeptWriter
    rw [if_neg (by rwa [ht'.maxRead])]
    show t₅.queue.maxWrite < ((t'.renumber wi.1 (t'.queue.maxWrite + 1)).heap wi.1).sequence
    rw [sequence_renumber_self]
    have := ht'.maxWrite
    show t₅.queue.maxWrite < t'.queue.maxWrite + 1
    omega
  · -- the passes over another bucket keep every number above `maxWrite` of `t₅` there
    refine (foldl_invariant (P := fun t' => KeptStage batch name Live P₅ t₅ t' ∧
      ∀ wi ∈ (tmpWQueue2.findD m []).zipIdx, ¬ (m > t₅.queue.maxRead ∧ wi.2 = 0) →
        t₅.queue.maxWrite < (t'.heap wi.1).sequence) _ (fun t' wi' hwi' ht' => ?_) t ⟨ht, hm⟩).2
    refine ⟨(hbk n wi'.1 (List.fst_mem_of_mem_zipIdx hwi')).elim (fun hx hno => ht'.1.step hw hP₅ n hx hno),
      fun wi hwi hmove => ht'.1.above n wi' (ht'.2 wi hwi hmove)⟩

end Buckets

end KeptWriters

/-! ## The whole of `sortInQueue` -/

section WholeSort

variable {batch : List (List RWNode)} (hw : Wellformed batch) {name : Bytes}

include hw

/-- The three loops after `tmpWQueue`, from a state `t₃` whose placed writes
`P₃` sit at most `maxRead`, whose unnumbered writes and bucketed writes belong
to transactions without a read in the queue, and whose every live write is
placed, unnumbered or in the bucket of its number: when every write leaves
numbered, the queue leaves in order. -/
theorem ordered_of_sameKeyWriters {t₃ : SortState} {P₃ : NodeRef → Prop} {tmpWQueue2 : WriteBuckets}
    (hf₃ : Frame (ofBatch batch name) t₃) (hnn₃ : Nonneg t₃)
    (hP₃ : ∀ z, P₃ z → z ∈ (ofBatch batch name).queue.wSlice)
    (hplaced : Placed (ofBatch batch name).queue.rSlice (fun z => (t₃.edgeOf z).isAborted = false) P₃ t₃)
    (hP₃le : ∀ z, P₃ z → (t₃.heap z).sequence ≤ t₃.queue.maxRead)
    (hfresh : ∀ z ∈ (ofBatch batch name).queue.wSlice, (t₃.heap z).sequence = 0 →
      ∀ r ∈ (ofBatch batch name).queue.rSlice, r.tx ≠ z.tx)
    (hbk : ∀ n, ∀ x ∈ tmpWQueue2.findD n [], x ∈ (ofBatch batch name).queue.wSlice ∧
      (t₃.heap x).sequence = n ∧ n ≠ 0 ∧ ∀ r ∈ (ofBatch batch name).queue.rSlice, r.tx ≠ x.tx)
    (hcov : ∀ w ∈ (ofBatch batch name).queue.wSlice, (t₃.edgeOf w).isAborted = false →
      P₃ w ∨ (t₃.heap w).sequence = 0 ∨ w ∈ tmpWQueue2.findD (t₃.heap w).sequence [])
    (hnum : ∀ w ∈ (ofBatch batch name).queue.wSlice,
      ((Unbounded.renumberKeptWriters (raiseMaxWrite (Unbounded.numberFreshWriters t₃ (sortInts tmpWQueue2.keys))
        (sortInts tmpWQueue2.keys)) (sortInts tmpWQueue2.keys) tmpWQueue2).heap w).sequence ≠ 0) :
    QueueOrdered (Unbounded.renumberKeptWriters (raiseMaxWrite (Unbounded.numberFreshWriters t₃ (sortInts tmpWQueue2.keys))
      (sortInts tmpWQueue2.keys)) (sortInts tmpWQueue2.keys) tmpWQueue2) := by
  -- the fresh writers
  have h₄ : FreshStage batch name (fun z => (t₃.edgeOf z).isAborted = false) P₃ (sortInts tmpWQueue2.keys) t₃
      (Unbounded.numberFreshWriters t₃ (sortInts tmpWQueue2.keys)) :=
    FreshStage.foldl hw hP₃ hfresh (FreshStage.start hf₃ hplaced fun z hz _ => hP₃le z hz)
  have hcalm₄ := calm_numberFreshWriters t₃ (sortInts tmpWQueue2.keys)
  have hframe₄ := frame_numberFreshWriters t₃ (sortInts tmpWQueue2.keys)
  have hnn₄ := nonneg_numberFreshWriters hnn₃ (sortInts tmpWQueue2.keys)
  generalize Unbounded.numberFreshWriters t₃ (sortInts tmpWQueue2.keys) = t₄ at h₄ hcalm₄ hframe₄ hnn₄ hnum ⊢
  -- `maxWrite` up to the kept numbers
  have hh₅ := heap_raiseMaxWrite t₄ (sortInts tmpWQueue2.keys)
  have hmr₅ := (calm_raiseMaxWrite t₄ (sortInts tmpWQueue2.keys)).maxRead
  have hmw₅ := maxWrite_le_raiseMaxWrite t₄ (sortInts tmpWQueue2.keys)
  have hkeys₅ := le_maxWrite_raiseMaxWrite t₄ (sortInts_pairwise tmpWQueue2.keys)
  have hcalm₅ := hcalm₄.trans (calm_raiseMaxWrite t₄ (sortInts tmpWQueue2.keys))
  have hframe₅ := hframe₄.trans (frame_raiseMaxWrite t₄ (sortInts tmpWQueue2.keys))
  have hf₅ := h₄.frame.trans (frame_raiseMaxWrite t₄ (sortInts tmpWQueue2.keys))
  have hnn₅ := nonneg_raiseMaxWrite hnn₄ (sortInts tmpWQueue2.keys)
  generalize raiseMaxWrite t₄ (sortInts tmpWQueue2.keys) = t₅ at hh₅ hmr₅ hmw₅ hkeys₅ hcalm₅ hframe₅ hf₅ hnn₅ hnum ⊢
  have hmem : ∀ n x, x ∈ tmpWQueue2.findD n [] → n ∈ sortInts tmpWQueue2.keys := by
    intro n x hx
    by_contra hn
    rw [GoMap.findD_of_not_mem fun h => hn ((sortInts_perm _).symm.subset h)] at hx
    exact List.not_mem_nil hx
  have hseq₅ : ∀ n, ∀ x ∈ tmpWQueue2.findD n [], (t₅.heap x).sequence = n := by
    intro n x hx
    obtain ⟨hxW, hx₃, hn0, -⟩ := hbk n x hx
    rw [hh₅, h₄.kept x hxW (hx₃ ▸ hn0), hx₃]
  -- the head of each bucket above `maxRead` is placed where it is
  have hplaced₅ := (h₄.placed.raise hh₅ hmr₅ hmw₅).bucketHeads hseq₅ hkeys₅ fun z hz hk => by
    rw [hh₅] at hk ⊢
    rw [hmr₅]
    exact h₄.avoids z hz hk
  -- the kept writers
  have hP₅ : ∀ z, (FreshPlaced batch name P₃ t₃ t₄ z ∨ BucketHead (sortInts tmpWQueue2.keys) tmpWQueue2
      t₅.queue.maxRead z) → z ∈ (ofBatch batch name).queue.wSlice := by
    rintro z ((hz | hz) | ⟨n, -, -, hz⟩)
    · exact hP₃ z hz
    · exact hz.1
    · exact (hbk n z (List.fst_mem_of_mem_zipIdx hz)).1
  have hbk' : ∀ n, ∀ x ∈ tmpWQueue2.findD n [], x ∈ (ofBatch batch name).queue.wSlice ∧
      ∀ r ∈ (ofBatch batch name).queue.rSlice, r.tx ≠ x.tx :=
    fun n x hx => ⟨(hbk n x hx).1, (hbk n x hx).2.2.2⟩
  have hstart := KeptStage.start hf₅ hplaced₅
  have h₆ := KeptStage.foldl hw hP₅ hbk' (sortInts tmpWQueue2.keys) hstart
  have habove := renumberKeptWriters_above hw hP₅ hbk' (sortInts tmpWQueue2.keys) hstart
  have hlive : ∀ z, ((Unbounded.renumberKeptWriters t₅ (sortInts tmpWQueue2.keys) tmpWQueue2).edgeOf z) = t₃.edgeOf z :=
    edgeOf_eq_of_edges (hcalm₅.trans (calm_renumberKeptWriters _ _ _)).edges
      (hframe₅.trans (frame_renumberKeptWriters _ _ _))
  -- every live write is placed by the end
  have hcov₆ : ∀ w ∈ (ofBatch batch name).queue.wSlice, (t₃.edgeOf w).isAborted = false →
      KeptPlaced batch name (fun z => FreshPlaced batch name P₃ t₃ t₄ z ∨
        BucketHead (sortInts tmpWQueue2.keys) tmpWQueue2 t₅.queue.maxRead z) t₅
        (Unbounded.renumberKeptWriters t₅ (sortInts tmpWQueue2.keys) tmpWQueue2) w := by
    intro w hwW hl
    rcases hcov w hwW hl with hP | h0 | hb
    · exact Or.inl (Or.inl (Or.inl hP))
    · by_cases h4 : (t₄.heap w).sequence = 0
      · -- left unnumbered by the fresh writers, so moved by the kept-writer loop
        rcases h₆.moved w with h | h
        · rw [hh₅] at h
          exact absurd (h.trans h4) (hnum w hwW)
        · exact Or.inr ⟨hwW, by rw [hh₅, h4]; exact hnn₅.maxWrite, h⟩
      · exact Or.inl (Or.inl (Or.inr ⟨hwW, h0, h4⟩))
    · obtain ⟨i, hi⟩ : ∃ i, (w, i) ∈ (tmpWQueue2.findD (t₃.heap w).sequence []).zipIdx := by
        obtain ⟨i, hi, hget⟩ := List.getElem_of_mem hb
        exact ⟨i, List.mem_zipIdx_iff_getElem?.mpr ((List.getElem?_eq_getElem hi).trans (congrArg some hget))⟩
      have hn := hmem _ w hb
      by_cases hkeep : (t₃.heap w).sequence > t₅.queue.maxRead ∧ i = 0
      · obtain ⟨hgt, rfl⟩ := hkeep
        exact Or.inl (Or.inr ⟨_, hn, hgt, hi⟩)
      · exact Or.inr ⟨hwW, by rw [hseq₅ _ w hb]; exact hkeys₅ _ hn, habove _ hn (w, i) hi hkeep⟩
  refine ⟨fun r hr w hwq hne hlr hlw => ?_, fun w hwq w' hwq' hne hl hl' => ?_⟩
  · rw [h₆.frame.rSlice] at hr
    rw [h₆.frame.wSlice] at hwq
    rw [hlive] at hlr hlw
    exact h₆.placed.ordered r hr hlr w (hcov₆ w hwq hlw) hne
  · rw [h₆.frame.wSlice] at hwq hwq'
    rw [hlive] at hl hl'
    exact h₆.placed.distinct w w' (hcov₆ w hwq hl) (hcov₆ w' hwq' hl') hne

/-- Sorting a queue of a well-formed batch that leaves every node of the queue
numbered leaves the queue in order. -/
theorem sortInQueue_ordered {s : SortState} (hI : Within batch name s) (hs : Nonneg s)
    (hnum : ∀ n ∈ s.queue.rSlice ++ s.queue.wSlice, ((Unbounded.sortInQueue s).heap n).sequence ≠ 0) :
    QueueOrdered (Unbounded.sortInQueue s) := by
  have hRF : ∀ r ∈ (ofBatch batch name).queue.rSlice, r ∈ (batchRefs batch).flatten :=
    fun r hr => mem_flatten_of_rSlice (Frame.refl _) hr
  have hWF : ∀ w ∈ (ofBatch batch name).queue.wSlice, w ∈ (batchRefs batch).flatten :=
    fun w hw' => mem_flatten_of_wSlice (Frame.refl _) hw'
  -- the reads
  have hW₀ := within_sortReads hw hI
  have hf₀ := frame_sortReads s
  have hedge₀ : ∀ z, (sortReads s).edgeOf z = s.edgeOf z := edgeOf_eq_of_edges (edges_sortReads s) hf₀
  have hR₀ : (sortReads s).queue.rSlice = (ofBatch batch name).queue.rSlice := hW₀.frame.rSlice
  have hW₀s : (sortReads s).queue.wSlice = (ofBatch batch name).queue.wSlice := hW₀.frame.wSlice
  have hass₀ : ∀ r ∈ (sortReads s).queue.rSlice, ((sortReads s).edgeOf r).isAborted = false →
      ((sortReads s).heap r).isAssigned = true := fun r hr hl =>
    sortReads_assigned ((queueCtx_ofBatch hw name).frame hI.frame) r (hf₀.rSlice ▸ hr) (hedge₀ r ▸ hl)
  have hle₀ : ∀ r ∈ (sortReads s).queue.rSlice, ((sortReads s).edgeOf r).isAborted = false →
      ((sortReads s).heap r).sequence ≤ (sortReads s).queue.maxRead := fun r hr hl =>
    sortReads_le_maxRead s r (hf₀.rSlice ▸ hr) (hedge₀ r ▸ hl)
  have hnz₀ : ∀ r ∈ (ofBatch batch name).queue.rSlice, ((sortReads s).heap r).sequence ≠ 0 :=
    fun r hr => sortReads_numbered hs r (hI.frame.rSlice ▸ hr)
  -- the loop over the numbered writes
  have hfil := Filing.foldl hw hW₀.frame hass₀ hle₀ hW₀.numbering.uniform _ (fun _ h => h) _
    (Filing.start (sortReads s))
  have hcls := filed_of_live hw (sortReads s) (sortReads s).queue.wSlice (fun x hx => hWF x (hW₀s ▸ hx))
    (sortReads s, [], GoMap.empty) rfl hW₀.frame
  have hnn₁ := nonneg_foldl_checkWrite (sortReads s).queue.wSlice (sortReads s, [], GoMap.empty)
    (nonneg_sortReads hs)
  unfold Unbounded.sortInQueue at hnum ⊢
  dsimp only at hnum ⊢
  generalize (sortReads s).queue.wSlice.foldl checkWrite (sortReads s, [], GoMap.empty) = acc
    at hfil hcls hnn₁ hnum ⊢
  obtain ⟨t₁, tmpWQueue, tmpWQueue2⟩ := acc
  obtain ⟨hh₁, hq₁, hf₁, htmp, hbk⟩ := hfil
  dsimp only at hh₁ hq₁ hf₁ htmp hbk hcls hnn₁ hnum ⊢
  -- `maxWrite` from `maxRead`, then the loop over `tmpWQueue`
  set t₂ := t₁.setMaxWrite (if t₁.queue.maxRead = 0 then initialSequence - 1 else t₁.queue.maxRead) with ht₂
  have hf₂ : Frame (ofBatch batch name) t₂ := (hW₀.frame.trans hf₁).trans (frame_setMaxWrite _ _)
  have hh₂ : t₂.heap = (sortReads s).heap := hh₁
  have hmr₂ : t₂.queue.maxRead = (sortReads s).queue.maxRead := by
    show t₁.queue.maxRead = _
    rw [hq₁]
  have hmw₂ : t₂.queue.maxRead ≤ t₂.queue.maxWrite := by
    show t₁.queue.maxRead ≤ if t₁.queue.maxRead = 0 then initialSequence - 1 else t₁.queue.maxRead
    split
    · rename_i h0
      rw [h0]
      decide
    · exact le_rfl
  have hnn₂ : Nonneg t₂ := by
    refine hnn₁.setMaxWrite ?_
    show 0 ≤ if t₁.queue.maxRead = 0 then initialSequence - 1 else t₁.queue.maxRead
    split
    · decide
    · exact hnn₁.maxRead
  have htmpW : ∀ w ∈ tmpWQueue, w ∈ (ofBatch batch name).queue.wSlice :=
    fun w hw' => hW₀s ▸ (htmp w hw').1
  have htmpF : ∀ w ∈ tmpWQueue, w ∈ (batchRefs batch).flatten := fun w hw' => hWF w (htmpW w hw')
  have hseq₃ := sequence_numberSameKeyWriters hw hf₂ htmpF
  have hf₁₃ := (frame_setMaxWrite t₁ _).trans (frame_numberSameKeyWriters t₂ tmpWQueue)
  have hlive₁ : ∀ z, ((Unbounded.numberSameKeyWriters t₂ tmpWQueue).edgeOf z).isAborted = false →
      (t₁.edgeOf z).isAborted = false := fun _ hz => hf₁₃.live_before hz
  have hlive₀ : ∀ z, ((Unbounded.numberSameKeyWriters t₂ tmpWQueue).edgeOf z).isAborted = false →
      ((sortReads s).edgeOf z).isAborted = false := fun _ hz => hf₁.live_before (hf₁₃.live_before hz)
  have hplaced₃ : Placed (ofBatch batch name).queue.rSlice
      (fun z => ((Unbounded.numberSameKeyWriters t₂ tmpWQueue).edgeOf z).isAborted = false)
      (fun z => tmpWQueue.head? = some z) (Unbounded.numberSameKeyWriters t₂ tmpWQueue) :=
    placed_numberSameKeyWriters hw hf₂ hRF hmw₂ (fun r hr hl => by
      rw [hh₂, hmr₂]
      exact hle₀ r (hR₀ ▸ hr) (hlive₀ r hl)) htmpF
  -- a bucketed write keeps the number it was filed under: it is not the first of `tmpWQueue`
  have hbk₃ : ∀ n, ∀ x ∈ tmpWQueue2.findD n [], ((Unbounded.numberSameKeyWriters t₂ tmpWQueue).heap x).sequence =
      ((sortReads s).heap x).sequence := by
    intro n x hx
    obtain ⟨hxW, -, -, hno⟩ := hbk n x hx
    rcases hseq₃ x (hWF x (hW₀s ▸ hxW)) with h | ⟨w, hw₀, htx, -⟩
    · rw [h, hh₂]
    · obtain ⟨-, r, hr, hrw⟩ := htmp w (List.mem_of_mem_head? hw₀)
      exact absurd (hrw.trans htx.symm) (hno r hr)
  refine ordered_of_sameKeyWriters hw (hf₂.trans (frame_numberSameKeyWriters t₂ tmpWQueue))
    (nonneg_numberSameKeyWriters hnn₂ tmpWQueue) (fun z hz => htmpW z (List.mem_of_mem_head? hz)) hplaced₃ (fun z hz => ?_) (fun z hz h0 r hr hrz => ?_)
    (fun n x hx => ?_) (fun w hwW hl => ?_) (fun w hwW => hnum w (List.mem_append_right _ (hI.frame.wSlice ▸ hwW)))
  · -- the first writer of `tmpWQueue` sits at `maxRead`
    cases tmpWQueue with
    | nil => exact absurd hz (by simp)
    | cons w rest =>
      obtain rfl : w = z := Option.some.inj hz
      exact le_of_eq (sequence_numberSameKeyWriters_head t₂ w rest)
  · -- an unnumbered write was unnumbered after the reads, and the reads are all numbered
    have hz₀ : ((sortReads s).heap z).sequence = 0 := by
      rcases hseq₃ z (hWF z hz) with h | ⟨w, -, -, h⟩
      · rw [← hh₂, ← h]
        exact h0
      · have := (nonneg_sortReads hs).maxRead
        omega
    exact hnz₀ r hr ((hW₀.numbering.uniform r (hRF r hr) z (hWF z hz) hrz).trans hz₀)
  · obtain ⟨hxW, hxn, hn0, hno⟩ := hbk n x hx
    exact ⟨hW₀s ▸ hxW, (hbk₃ n x hx).trans hxn, hn0, hR₀ ▸ hno⟩
  · rcases hcls w (hW₀s ▸ hwW) (hlive₁ w hl) with h0 | htw | hb
    · rcases hseq₃ w (hWF w hwW) with h | ⟨w₀, hw₀, htx, -⟩
      · exact Or.inr (Or.inl (by rw [h, hh₂]; exact h0))
      · left
        rw [List.inj_on_of_nodup_map (queueCtx_ofBatch hw name).writes_tx hwW
          (htmpW w₀ (List.mem_of_mem_head? hw₀)) htx]
        exact hw₀
    · -- a later writer of `tmpWQueue` is aborted
      cases tmpWQueue with
      | nil => exact absurd htw List.not_mem_nil
      | cons w₀ rest =>
        rcases List.mem_cons.mp htw with rfl | hrest
        · exact Or.inl rfl
        · have hf₂' := ((hf₂.trans (frame_renumber t₂ w₀ (t₂.queue.maxWrite + 1))).trans
            (frame_setMaxWrite _ (t₂.queue.maxWrite + 1))).trans (frame_setMaxRead _ (t₂.queue.maxWrite + 1))
          have hab := aborted_foldl_abort hw hf₂' (fun x hx => htmpF x (List.mem_cons_of_mem w₀ hx)) w hrest
          rw [← numberSameKeyWriters_cons] at hab
          rw [hab] at hl
          exact absurd hl (by decide)
    · right
      right
      rw [hbk₃ _ w hb]
      exact hb

end WholeSort

end SortState

/-! ## The loop of `DeSS` -/

/-- Over the unbounded loops, on every batch meeting the preconditions of the
serializability property whose `N` nodes leave `initialSequence + N` below
`math.MaxInt32`, for every order the runtime ranges over maps in and every
state of the loop of `DeSS` over the sequence `QueuesSort` returns: the queue
sorted next leaves `sortInQueue` in order. -/
theorem Unbounded.deSS_sorts_queue_ordered {batch : List (List RWNode)} (hw : Wellformed batch)
    (hsize : initialSequence + (batch.map List.length).sum < maxInt32) {cq : QueueGraph}
    (hcq : createGraph (Heap.ofBatch batch) (batchRefs batch) = .ok cq) {σ : Schedule} {fuel : Nat}
    {sequence : List Bytes} (hs : queuesSort (Heap.ofBatch batch) cq σ fuel = .ok sequence)
    {pre post : List Bytes} {name : Bytes} (hsplit : sequence = pre ++ name :: post) :
    SortState.QueueOrdered (Unbounded.sortInQueue ⟨(pre.foldl Unbounded.sortQueueNamed (Heap.ofBatch batch, cq)).1,
      (pre.foldl Unbounded.sortQueueNamed (Heap.ofBatch batch, cq)).2.edges,
      (pre.foldl Unbounded.sortQueueNamed (Heap.ofBatch batch, cq)).2.queues.findD name Queue.zero⟩) := by
  obtain rfl := eq_ofBatch_of_createGraph hcq
  by_cases hne : batch = []
  · -- an empty batch leaves every queue without writes
    subst hne
    refine SortState.QueueOrdered.of_wSlice_eq_nil (List.eq_nil_iff_forall_not_mem.mpr fun w hw' => ?_)
    have hf := ((sortedSoFar_foldl hw pre).frame name).trans (SortState.frame_sortInQueue _)
    exact List.not_mem_nil (SortState.mem_flatten_of_wSlice hf hw')
  have h64 := size_le_maxInt64 hsize
  -- the queues up to `name` come out each once, so they hold at most the batch's nodes among their writes
  have hnd : (pre ++ [name]).Nodup := by
    have h := (queuesSort_perm_of_ok hw.toBuiltBatch σ hw.keys_apart hne h64 hs).nodup_iff.mpr
      (QueueGraph.ofBatch batch).queues.nodup
    rw [hsplit, show pre ++ name :: post = (pre ++ [name]) ++ post by simp] at h
    exact h.sublist (List.sublist_append_left _ _)
  have hcount := @sum_wSlice_ofBatch_le batch _ hnd
  rw [List.map_append, List.sum_append, List.map_singleton, List.sum_singleton] at hcount
  have h10 : ((initialSequence.toNat : Nat) : Int) = initialSequence := by decide
  obtain ⟨hB, -⟩ := loopBounded_foldl pre _ _ (loopBounded_ofBatch hw.unnumbered) (by omega)
  have hN := numberedSoFar_foldl hw pre
  -- the state hands the sort of `name` the queue `CreateGraph` built, numbered within the bound
  have hwS := (hN.sorted.frame name).wSlice
  obtain ⟨-, hnum⟩ := hB.step (by omega) name
  refine SortState.sortInQueue_ordered hw (hN.within name) (hB.nonneg name) (hnum ?_)
  have hw' := congrArg List.length hwS
  simp only [SortState.ofBatch] at hw'
  dsimp only at hw' ⊢
  rw [hw']
  omega

/-- With `initialSequence + M` at least `math.MaxInt32 + 2`, the first sort of
the loop of `DeSS` on `M` writers of one key leaves writer
`maxInt32 - initialSequence` and the next one live and both at `0`. -/
theorem manyWriters_not_ordered {M : Nat} (hM : maxInt32 + 2 ≤ initialSequence + M) :
    ¬ SortState.QueueOrdered (Unbounded.sortInQueue
      ⟨(([] : List Bytes).foldl Unbounded.sortQueueNamed (Heap.ofBatch (manyWriters M), QueueGraph.ofBatch (manyWriters M))).1,
        (([] : List Bytes).foldl Unbounded.sortQueueNamed
          (Heap.ofBatch (manyWriters M), QueueGraph.ofBatch (manyWriters M))).2.edges,
        (([] : List Bytes).foldl Unbounded.sortQueueNamed (Heap.ofBatch (manyWriters M),
          QueueGraph.ofBatch (manyWriters M))).2.queues.findD (convertByte2String (some [0])) Queue.zero⟩) := by
  intro hord
  -- the loop hands its first sort the graph `CreateGraph` built
  change SortState.QueueOrdered
    (Unbounded.sortInQueue (SortState.ofBatch (manyWriters M) (convertByte2String (some [0])))) at hord
  obtain ⟨hedges, hseq⟩ := sortInQueue_manyWriters M
  have hW : ∀ j < M, (⟨j, 0⟩ : NodeRef) ∈
      (Unbounded.sortInQueue (SortState.ofBatch (manyWriters M) (convertByte2String (some [0])))).queue.wSlice := by
    intro j hj
    rw [(SortState.frame_sortInQueue _).wSlice, queue_manyWriters]
    exact List.mem_map.mpr ⟨j, List.mem_range.mpr hj, rfl⟩
  have hlive : ∀ n, ((Unbounded.sortInQueue (SortState.ofBatch (manyWriters M)
      (convertByte2String (some [0])))).edgeOf n).isAborted = false := by
    intro n
    rw [SortState.edgeOf, hedges]
    exact aborted_ofBatch (manyWriters_wellformed M) _
  -- the fresh-writer search runs out at writer `maxInt32 - initialSequence`, so it and the next keep `0`
  have hzero : ∀ j < M, maxInt32 ≤ initialSequence + j →
      ((Unbounded.sortInQueue (SortState.ofBatch (manyWriters M) (convertByte2String (some [0])))).heap ⟨j, 0⟩).sequence = 0 := by
    intro j hj hge
    rw [hseq j hj, if_neg (by omega)]
  have hlt : initialSequence < maxInt32 := by decide
  obtain ⟨j, hj₁, hj₂⟩ : ∃ j : Nat, initialSequence + j = maxInt32 ∧ j + 1 < M :=
    ⟨(maxInt32 - initialSequence).toNat, by omega, by omega⟩
  exact hord.writes_distinct ⟨j, 0⟩ (hW j (by omega)) ⟨j + 1, 0⟩ (hW (j + 1) hj₂) (by dsimp only; omega)
    (hlive _) (hlive _) ((hzero j (by omega) (by omega)).trans (hzero (j + 1) hj₂ (by omega)).symm)

end Nezha
