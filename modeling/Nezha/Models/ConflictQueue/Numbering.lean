import Nezha.Models.ConflictQueue.AbortCause

/-!
# How `sortInQueue` numbers a queue

Every numbering site of `sortInQueue` writes one number to a whole
transaction: in a well-formed batch two nodes of a transaction differ in key
or label, so `assignSequence` skips none of them. The numbers written are
`initialSequence`, the least number among the queue's numbered reads, or one
above `maxWrite`, which never starts below `initialSequence - 1`: every number
set is at least `initialSequence`, and no number is cleared. None of this
depends on the size of the batch; that the free-slot search finds a number is
a matter of the bound of `ConflictQueue.SequenceRange`.
-/

namespace Nezha

/-! ## Counting -/

theorem sum_map_ite_eq_count {β : Type} [DecidableEq β] (K : List β) (a : β) :
    (K.map fun k => if k = a then 1 else 0).sum = K.count a := by
  induction K with
  | nil => rfl
  | cons k K ih =>
    simp [List.count_cons, ih, beq_iff_eq]
    omega

/-- One more element of a list adds one to the part of its own value. -/
theorem map_length_filter_cons {α β : Type} [DecidableEq β] (g : α → β) (K : List β) (x : α) (L : List α) :
    (K.map fun k => ((x :: L).filter fun y => g y = k).length) =
      K.map fun k => (L.filter fun y => g y = k).length + if k = g x then 1 else 0 := by
  refine List.map_congr_left fun k _ => ?_
  by_cases hk : k = g x
  · simp [hk]
  · simp [Ne.symm hk, hk]

/-! ## Numberings -/

/-- The numbers a heap gives the nodes of a batch: one per transaction, each
unset or at least `initialSequence`. -/
structure Numbering (batch : List (List RWNode)) (h : Heap) : Prop where
  uniform : ∀ n ∈ (batchRefs batch).flatten, ∀ m ∈ (batchRefs batch).flatten, n.tx = m.tx →
    (h n).sequence = (h m).sequence
  range : ∀ n ∈ (batchRefs batch).flatten, (h n).sequence = 0 ∨ initialSequence ≤ (h n).sequence

/-- `maxRead` unset, or at least `initialSequence`. -/
def MaxReadOK (q : Queue) : Prop :=
  q.maxRead = 0 ∨ initialSequence ≤ q.maxRead

section Numberings

variable {batch : List (List RWNode)} {h h' : Heap}

theorem Numbering.of_sequence (hN : Numbering batch h) (hs : ∀ n, (h' n).sequence = (h n).sequence) :
    Numbering batch h' :=
  ⟨fun n hn m hm hnm => by rw [hs, hs]; exact hN.uniform n hn m hm hnm,
    fun n hn => by rw [hs]; exact hN.range n hn⟩

theorem Numbering.ge (hN : Numbering batch h) {n : NodeRef} (hn : n ∈ (batchRefs batch).flatten)
    (h0 : (h n).sequence ≠ 0) : initialSequence ≤ (h n).sequence :=
  (hN.range n hn).resolve_left h0

/-- `CreateRWNode` leaves every node unnumbered. -/
theorem numbering_ofBatch (hw : BuiltBatch batch) : Numbering batch (Heap.ofBatch batch) :=
  ⟨fun n _ m _ _ => by rw [sequence_ofBatch hw, sequence_ofBatch hw],
    fun n _ => Or.inl (sequence_ofBatch hw n)⟩

end Numberings

namespace SortState

/-! ## Numbers once set stay set -/

/-- No number set in `s` is cleared in `s'`. -/
def Keeps (s s' : SortState) : Prop := ∀ n, (s.heap n).sequence ≠ 0 → (s'.heap n).sequence ≠ 0

namespace Keeps

theorem refl (s : SortState) : Keeps s s := fun _ h => h

theorem trans {s₁ s₂ s₃ : SortState} (h₁₂ : Keeps s₁ s₂) (h₂₃ : Keeps s₂ s₃) : Keeps s₁ s₃ :=
  fun n h => h₂₃ n (h₁₂ n h)

theorem foldl {α γ : Type} (π : γ → SortState) {f : γ → α → γ} (hf : ∀ a x, Keeps (π a) (π (f a x))) :
    ∀ (l : List α) (a : γ), Keeps (π a) (π (l.foldl f a)) :=
  foldl_rel (R := fun a b => Keeps (π a) (π b)) (fun a => refl (π a)) (fun h₁₂ h₂₃ => h₁₂.trans h₂₃) hf

/-- `Keeps` along a loop whose passes keep it from every state without
negative numbers, and keep those states. -/
theorem foldl_nonneg {α : Type} {f : SortState → α → SortState} (hI : ∀ s x, Nonneg s → Nonneg (f s x))
    (hf : ∀ s x, Nonneg s → Keeps s (f s x)) (l : List α) {s : SortState} (hs : Nonneg s) :
    Keeps s (l.foldl f s) :=
  (foldl_rel_of_invariant refl (fun h₁₂ h₂₃ => h₁₂.trans h₂₃) (fun s x hs => ⟨hI s x hs, hf s x hs⟩) l s hs).2

end Keeps

theorem keeps_renumber (s : SortState) (n : NodeRef) {v : Int} (hv : v ≠ 0) : Keeps s (s.renumber n v) := by
  intro q hq
  show (s.heap.renumber n v (s.edgeOf n).set q).sequence ≠ 0
  rcases Heap.renumber_sequence_cases s.heap n v (s.edgeOf n).set q with h | h
  · rw [h]
    exact hv
  · rw [h]
    exact hq

theorem sequence_renumber_self (s : SortState) (n : NodeRef) (v : Int) :
    ((s.renumber n v).heap n).sequence = v :=
  Heap.renumber_sequence_self _ _ _ _

/-! ## In place: a queue of a well-formed batch -/

section InPlace

variable {batch : List (List RWNode)} (hw : Wellformed batch) {name : Bytes}

include hw

/-- A numbering site on a node of the batch numbers exactly the node's transaction. -/
theorem sequence_renumber_ofBatch {s : SortState} (hf : Frame (ofBatch batch name) s) {p : NodeRef}
    (hp : p ∈ (batchRefs batch).flatten) (v : Int) {q : NodeRef} (hq : q ∈ (batchRefs batch).flatten) :
    ((s.renumber p v).heap q).sequence = if q.tx = p.tx then v else (s.heap q).sequence := by
  have hedge : ∀ m, m ∈ (s.edgeOf p).set ↔ m ∈ (batchRefs batch).flatten ∧ m.tx = p.tx := fun m => by
    rw [hf.edgeOf_set]
    exact mem_edgeOf_ofBatch hw hp
  -- two nodes of one transaction differ in key or label
  have hdiff : ∀ e ∈ (s.edgeOf p).set, e ≠ p →
      (s.heap e).rwSet ≠ (s.heap p).rwSet ∨ (s.heap e).label ≠ (s.heap p).label := by
    intro e he hne
    obtain ⟨he₁, he₂⟩ := (hedge e).mp he
    by_contra hsame
    rw [not_or, not_not, not_not, hf.heap.rwSet, hf.heap.rwSet, hf.heap.label, hf.heap.label] at hsame
    exact hne (eq_of_key_ofBatch hw he₁ hp he₂ hsame.2 (congrArg RWSet.key hsame.1))
  show (s.heap.renumber p v (s.edgeOf p).set q).sequence = _
  rw [Heap.sequence_renumber _ _ _ hdiff]
  by_cases htx : q.tx = p.tx
  · rw [if_pos (Or.inr ((hedge q).mpr ⟨hq, htx⟩)), if_pos htx]
  · have hnot : ¬ (q = p ∨ q ∈ (s.edgeOf p).set) := by
      rintro (rfl | hm)
      · exact htx rfl
      · exact htx ((hedge q).mp hm).2
    rw [if_neg hnot, if_neg htx]

theorem numbering_renumber {s : SortState} (hf : Frame (ofBatch batch name) s)
    (hN : Numbering batch s.heap) {p : NodeRef} (hp : p ∈ (batchRefs batch).flatten) {v : Int}
    (hv : initialSequence ≤ v) : Numbering batch (s.renumber p v).heap := by
  refine ⟨fun n hn m hm hnm => ?_, fun n hn => ?_⟩
  · rw [sequence_renumber_ofBatch hw hf hp v hn, sequence_renumber_ofBatch hw hf hp v hm, hnm]
    split
    · rfl
    · exact hN.uniform n hn m hm hnm
  · rw [sequence_renumber_ofBatch hw hf hp v hn]
    split
    · exact Or.inr hv
    · exact hN.range n hn

omit hw in
theorem mem_flatten_of_rSlice {s : SortState} (hf : Frame (ofBatch batch name) s) {r : NodeRef}
    (hr : r ∈ s.queue.rSlice) : r ∈ (batchRefs batch).flatten :=
  (mem_rSlice_ofBatch.mp (hf.rSlice ▸ hr)).1

omit hw in
theorem mem_flatten_of_wSlice {s : SortState} (hf : Frame (ofBatch batch name) s) {w : NodeRef}
    (hw' : w ∈ s.queue.wSlice) : w ∈ (batchRefs batch).flatten :=
  (mem_wSlice_ofBatch.mp (hf.wSlice ▸ hw')).1

end InPlace

/-! ## Reads -/

/-- The least number the scan over the numbered reads finds is at most that of each of them. -/
theorem scanNumberedReads_le (s : SortState) (tmp : List NodeRef) :
    ∀ tr ∈ tmp, (scanNumberedReads s tmp).2 ≤ (s.heap tr).sequence := by
  have hseq : ∀ (h : Heap) tr n, (h.setAssigned tr n).sequence = (h n).sequence :=
    fun h tr n => (Heap.setAssigned_static h tr n).2.2.2
  refine foldl_establishes_of_invariant (I := fun acc : SortState × Int =>
      ∀ n, (acc.1.heap n).sequence = (s.heap n).sequence)
    (P := fun tr acc => acc.2 ≤ (s.heap tr).sequence) tmp
    (fun acc tr _ hs => ?_) (fun acc tr _ hs => ?_) (fun acc tr _ y hs hy => ?_) (s, maxInt32)
    (fun _ => rfl)
  · -- the scan only marks reads, so it reads the numbers of `s` throughout
    dsimp only
    intro n
    split <;> simp only [setMaxRead, hseq, hs]
  · dsimp only
    split <;> (simp only [hseq, hs] at *; omega)
  · dsimp only
    split <;> omega

/-- The least number the scan finds is no lower than a bound below
`math.MaxInt32` that all the reads it scans respect. -/
theorem le_scanNumberedReads (s : SortState) {tmp : List NodeRef} {lo : Int} (hlo : lo ≤ maxInt32)
    (htmp : ∀ tr ∈ tmp, lo ≤ (s.heap tr).sequence) : lo ≤ (scanNumberedReads s tmp).2 := by
  have hseq : ∀ (h : Heap) tr n, (h.setAssigned tr n).sequence = (h n).sequence :=
    fun h tr n => (Heap.setAssigned_static h tr n).2.2.2
  refine (foldl_invariant (P := fun acc : SortState × Int =>
    (∀ n, (acc.1.heap n).sequence = (s.heap n).sequence) ∧ lo ≤ acc.2) tmp
    (fun acc tr htr hI => ?_) (s, maxInt32) ⟨fun _ => rfl, hlo⟩).2
  obtain ⟨hs, hlo'⟩ := hI
  have hlt := htmp tr htr
  dsimp only
  refine ⟨fun n => ?_, ?_⟩
  · split <;> simp only [setMaxRead, hseq, hs]
  · split <;> (simp only [hseq, hs] at *; omega)

theorem keeps_scanNumberedReads (s : SortState) (tmp : List NodeRef) :
    Keeps s (scanNumberedReads s tmp).1 :=
  fun n hn => by rw [sequence_scanNumberedReads]; exact hn

/-- A read numbered through an earlier queue has a positive number. -/
theorem sequence_pos_of_mem_tmpRQueue {s : SortState} (hs : Nonneg s) {tr : NodeRef} (htr : tr ∈ tmpRQueue s) :
    tr ∈ s.queue.rSlice ∧ 1 ≤ (s.heap tr).sequence := by
  simp only [tmpRQueue, List.mem_filter, Bool.and_eq_true, decide_eq_true_eq] at htr
  have h0 := htr.2.1
  have := hs.sequence tr
  exact ⟨htr.1, by omega⟩

theorem keeps_sortReads {s : SortState} (hs : Nonneg s) : Keeps s (sortReads s) := by
  unfold sortReads
  split
  · refine Keeps.foldl id (fun t r => ?_) _ s
    exact keeps_renumber t r (v := initialSequence) (by decide)
  · -- the least number found is a number of a numbered read, so it is not zero
    have hmin := le_scanNumberedReads s (by decide) fun tr htr => (sequence_pos_of_mem_tmpRQueue hs htr).2
    have hk := keeps_scanNumberedReads s (tmpRQueue s)
    generalize scanNumberedReads s (tmpRQueue s) = p at hmin hk
    obtain ⟨t, min⟩ := p
    refine hk.trans (Keeps.foldl id (fun t r => ?_) _ t)
    split
    · exact Keeps.refl t
    · exact keeps_renumber t r (by omega)

/-- `sortReads` numbers every read of the queue. -/
theorem sortReads_numbered {s : SortState} (hs : Nonneg s) :
    ∀ r ∈ s.queue.rSlice, ((sortReads s).heap r).sequence ≠ 0 := by
  unfold sortReads
  split
  · refine foldl_establishes (P := fun (r : NodeRef) (t : SortState) => (t.heap r).sequence ≠ 0)
      (fun t r => ?_) (fun t r y hy => ?_) _ s
    · show ((t.renumber r initialSequence).heap r).sequence ≠ 0
      rw [sequence_renumber_self]
      decide
    · exact keeps_renumber t r (v := initialSequence) (by decide) y hy
  · have hmin := le_scanNumberedReads s (by decide) fun tr htr => (sequence_pos_of_mem_tmpRQueue hs htr).2
    have hf := frame_scanNumberedReads s (tmpRQueue s)
    generalize scanNumberedReads s (tmpRQueue s) = p at hmin hf
    obtain ⟨t, min⟩ := p
    intro r hr
    rw [← hf.rSlice] at hr
    refine foldl_establishes (P := fun (r : NodeRef) (t : SortState) => (t.heap r).sequence ≠ 0)
      (fun t' r' => ?_) (fun t' r' y hy => ?_) t.queue.rSlice t r hr
    · split
      · assumption
      · rw [sequence_renumber_self]
        omega
    · split
      · exact hy
      · exact keeps_renumber t' r' (by omega) y hy

/-- A state of the sort of the queue `name` whose numbers and `maxRead` are
unset or at least `initialSequence`, one number per transaction. -/
structure Within (batch : List (List RWNode)) (name : Bytes) (t : SortState) : Prop where
  frame : Frame (ofBatch batch name) t
  numbering : Numbering batch t.heap
  maxRead : MaxReadOK t.queue

section ReadsInPlace

variable {batch : List (List RWNode)} (hw : Wellformed batch) {name : Bytes}

omit hw in
theorem within_scanNumberedReads {s : SortState} (hI : Within batch name s) {tmp : List NodeRef}
    (htmp : ∀ tr ∈ tmp, initialSequence ≤ (s.heap tr).sequence) :
    Within batch name (scanNumberedReads s tmp).1 := by
  have hseq : ∀ (h : Heap) tr n, (h.setAssigned tr n).sequence = (h n).sequence :=
    fun h tr n => (Heap.setAssigned_static h tr n).2.2.2
  refine (foldl_invariant (P := fun acc : SortState × Int => Within batch name acc.1 ∧
    ∀ n, (acc.1.heap n).sequence = (s.heap n).sequence) tmp (fun acc tr htr hI' => ?_) (s, maxInt32)
    ⟨hI, fun _ => rfl⟩).1
  obtain ⟨hW, hs⟩ := hI'
  have hnum := hW.numbering.of_sequence (hseq acc.1.heap tr)
  have hf := hW.frame.trans (frame_setAssigned acc.1 tr)
  dsimp only
  split
  · -- the read raises `maxRead` to its own number
    refine ⟨⟨hf.trans (frame_setMaxRead _ _), hnum, Or.inr ?_⟩, fun n => ?_⟩
    · show initialSequence ≤ (acc.1.heap.setAssigned tr tr).sequence
      rw [hseq, hs]
      exact htmp tr htr
    · simp only [setMaxRead, hseq, hs]
  · exact ⟨⟨hf, hnum, hW.maxRead⟩, fun n => by simp only [hseq, hs]⟩

include hw

theorem within_numberWaitingReads {s : SortState} (hI : Within batch name s) {min : Int}
    (hlo : initialSequence ≤ min) : Within batch name (numberWaitingReads s min) := by
  refine foldl_invariant _ (fun t r hr ht => ?_) s hI
  split
  · exact ht
  · exact ⟨ht.frame.trans (frame_renumber t r min),
      numbering_renumber hw ht.frame ht.numbering (mem_flatten_of_rSlice hI.frame hr) hlo, ht.maxRead⟩

/-- `sortReads` writes `initialSequence` or the least number of a numbered read. -/
theorem within_sortReads {s : SortState} (hI : Within batch name s) : Within batch name (sortReads s) := by
  unfold sortReads
  split
  · refine foldl_invariant _ (fun t r hr ht => ?_) s hI
    refine ⟨ht.frame.trans ((frame_renumber t r _).trans (frame_setMaxRead _ _)),
      numbering_renumber hw ht.frame ht.numbering (mem_flatten_of_rSlice hI.frame hr) le_rfl, Or.inr ?_⟩
    show initialSequence ≤ ((t.renumber r initialSequence).heap r).sequence
    rw [sequence_renumber_self]
  · -- the numbered reads, and so the least of them, are at least `initialSequence`
    have hbounds : ∀ tr ∈ tmpRQueue s, initialSequence ≤ (s.heap tr).sequence := by
      intro tr htr
      simp only [tmpRQueue, List.mem_filter, Bool.and_eq_true, decide_eq_true_eq] at htr
      exact hI.numbering.ge (mem_flatten_of_rSlice hI.frame htr.1) htr.2.1
    have hmin := le_scanNumberedReads s (by decide) hbounds
    have hscan := within_scanNumberedReads hI hbounds
    generalize scanNumberedReads s (tmpRQueue s) = p at hmin hscan
    obtain ⟨t, min⟩ := p
    exact within_numberWaitingReads hw hscan hmin

end ReadsInPlace

/-! ## Writes -/

/-- The number of writes the buckets hold. -/
def WriteBuckets.size (b : WriteBuckets) : Nat := (b.keys.map fun k => (b.findD k []).length).sum

theorem WriteBuckets.size_push (b : WriteBuckets) (seq : Int) (w : NodeRef) :
    WriteBuckets.size (b.push seq w) = WriteBuckets.size b + 1 := by
  unfold WriteBuckets.size WriteBuckets.push
  by_cases hk : seq ∈ b.keys
  · -- the bucket of `seq` grows by one, every other stays
    have hmap : (b.keys.map fun k => ((b.insert seq (b.findD seq [] ++ [w])).findD k []).length) =
        b.keys.map fun k => (b.findD k []).length + if k = seq then 1 else 0 := by
      refine List.map_congr_left fun k _ => ?_
      rw [GoMap.findD_insert]
      by_cases hks : k = seq
      · subst hks
        simp
      · simp [hks]
    rw [GoMap.keys_insert_of_mem _ _ hk, hmap, List.sum_map_add, sum_map_ite_eq_count,
      List.count_eq_one_of_mem b.nodup hk]
  · -- a new bucket of one write comes last
    have hmap : (b.keys.map fun k => ((b.insert seq (b.findD seq [] ++ [w])).findD k []).length) =
        b.keys.map fun k => (b.findD k []).length := by
      refine List.map_congr_left fun k hk' => ?_
      rw [GoMap.findD_insert, if_neg (fun h : k = seq => hk (h ▸ hk'))]
    rw [GoMap.keys_insert_of_not_mem _ _ hk, List.map_append, List.sum_append, hmap]
    simp [GoMap.findD_of_not_mem hk, GoMap.findD_insert]

theorem WriteBuckets.mem_keys_push {b : WriteBuckets} {seq k : Int} {w : NodeRef} :
    k ∈ (b.push seq w).keys ↔ k ∈ b.keys ∨ k = seq := by
  rw [WriteBuckets.push, GoMap.mem_keys_insert, or_comm]

theorem WriteBuckets.mem_findD_push {b : WriteBuckets} {seq k : Int} {w x : NodeRef} :
    x ∈ (b.push seq w).findD k [] ↔ x ∈ b.findD k [] ∨ (k = seq ∧ x = w) := by
  rw [WriteBuckets.push, GoMap.findD_insert]
  by_cases hk : k = seq
  · subst hk
    simp
  · simp [hk]

/-- A pass over a write files it under its number, or leaves the buckets. -/
theorem buckets_checkWrite (acc : SortState × List NodeRef × WriteBuckets) (w : NodeRef) :
    (checkWrite acc w).2.2 = acc.2.2 ∨
      ((acc.1.heap w).sequence ≠ 0 ∧ (checkWrite acc w).2.2 = acc.2.2.push (acc.1.heap w).sequence w) := by
  obtain ⟨s, tmpWQueue, tmpWQueue2⟩ := acc
  unfold checkWrite
  dsimp only
  split_ifs with h0 <;> simp [h0]

/-- The buckets the loop over the writes fills: at most one write per pass,
filed under the number of a numbered write of the loop. -/
theorem buckets_foldl_checkWrite : ∀ (l : List NodeRef) (acc : SortState × List NodeRef × WriteBuckets),
    WriteBuckets.size (l.foldl checkWrite acc).2.2 ≤ WriteBuckets.size acc.2.2 + l.length ∧
      (∀ k ∈ (l.foldl checkWrite acc).2.2.keys,
        k ∈ acc.2.2.keys ∨ ∃ w ∈ l, (acc.1.heap w).sequence = k ∧ k ≠ 0) ∧
      (∀ k, ∀ x ∈ (l.foldl checkWrite acc).2.2.findD k [], x ∈ acc.2.2.findD k [] ∨ x ∈ l)
  | [], acc => ⟨by simp, fun k hk => Or.inl hk, fun k x hx => Or.inl hx⟩
  | w :: l, acc => by
    obtain ⟨ih₁, ih₂, ih₃⟩ := buckets_foldl_checkWrite l (checkWrite acc w)
    have hheap : (checkWrite acc w).1.heap = acc.1.heap := (heap_foldl_checkWrite [w] acc).1
    rw [List.foldl_cons]
    rcases buckets_checkWrite acc w with hb | ⟨h0, hb⟩
    · rw [hb] at ih₁ ih₂ ih₃
      rw [hheap] at ih₂
      refine ⟨by simp only [List.length_cons]; omega, fun k hk => ?_, fun k x hx => ?_⟩
      · rcases ih₂ k hk with h | ⟨w', hw', h⟩
        · exact Or.inl h
        · exact Or.inr ⟨w', List.mem_cons_of_mem w hw', h⟩
      · rcases ih₃ k x hx with h | h
        · exact Or.inl h
        · exact Or.inr (List.mem_cons_of_mem w h)
    · rw [hb, WriteBuckets.size_push] at ih₁
      rw [hb] at ih₂ ih₃
      rw [hheap] at ih₂
      refine ⟨by simp only [List.length_cons]; omega, fun k hk => ?_, fun k x hx => ?_⟩
      · rcases ih₂ k hk with h | ⟨w', hw', h⟩
        · rcases WriteBuckets.mem_keys_push.mp h with h | rfl
          · exact Or.inl h
          · exact Or.inr ⟨w, List.mem_cons_self, rfl, h0⟩
        · exact Or.inr ⟨w', List.mem_cons_of_mem w hw', h⟩
      · rcases ih₃ k x hx with h | h
        · rcases WriteBuckets.mem_findD_push.mp h with h | ⟨-, rfl⟩
          · exact Or.inl h
          · exact Or.inr List.mem_cons_self
        · exact Or.inr (List.mem_cons_of_mem w h)

/-- A state of the writes half: numbers and `maxRead` as in `Within`, and
`maxWrite` at least `initialSequence - 1`. -/
structure WritesWithin (batch : List (List RWNode)) (name : Bytes) (t : SortState) : Prop where
  within : Within batch name t
  maxWrite_lo : initialSequence - 1 ≤ t.queue.maxWrite

theorem keeps_foldl_checkWrite (l : List NodeRef) (acc : SortState × List NodeRef × WriteBuckets) :
    Keeps acc.1 (l.foldl checkWrite acc).1 :=
  fun n hn => by rw [(heap_foldl_checkWrite l acc).1]; exact hn

theorem keeps_numberSameKeyWriters {t : SortState} (ht : Nonneg t) : ∀ tmpWQueue : List NodeRef,
    Keeps t (Unbounded.numberSameKeyWriters t tmpWQueue)
  | [] => Keeps.refl t
  | w :: rest => by
    have h₁ : Keeps t (((t.renumber w (t.queue.maxWrite + 1)).setMaxWrite (t.queue.maxWrite + 1)).setMaxRead
        (t.queue.maxWrite + 1)) := keeps_renumber t w (by have := ht.maxWrite; omega)
    refine h₁.trans (Keeps.foldl id (f := fun s w => s.abort w) (fun t' x => ?_) rest _)
    exact Keeps.refl t'

theorem keeps_numberFreshWriter (keys : List Int) {t : SortState} (ht : Nonneg t) (w : NodeRef) :
    Keeps t (Unbounded.numberFreshWriter keys t w) := by
  unfold Unbounded.numberFreshWriter
  split
  · exact Keeps.refl t
  · split
    · exact Keeps.refl t
    · rename_i i hi
      exact keeps_renumber t w (by have := freeSlot_ge hi; have := ht.maxWrite; omega)

theorem keeps_numberFreshWriters {t : SortState} (ht : Nonneg t) (keys : List Int) :
    Keeps t (Unbounded.numberFreshWriters t keys) := by
  rw [Unbounded.numberFreshWriters_eq]
  exact Keeps.foldl_nonneg (fun s w hs => nonneg_numberFreshWriter hs keys w)
    (fun s w hs => keeps_numberFreshWriter keys hs w) _ ht

theorem keeps_raiseMaxWrite (t : SortState) (keys : List Int) : Keeps t (raiseMaxWrite t keys) := by
  unfold raiseMaxWrite
  split
  · split
    · exact fun _ h => h
    · exact Keeps.refl t
  · exact Keeps.refl t

theorem keeps_renumberKeptWriter (n : Int) {t : SortState} (ht : Nonneg t) (wi : NodeRef × Nat) :
    Keeps t (Unbounded.renumberKeptWriter n t wi) := by
  unfold Unbounded.renumberKeptWriter
  split
  · exact Keeps.refl t
  · exact keeps_renumber t wi.1 (by have := ht.maxWrite; omega)

theorem keeps_renumberKeptWriters {t : SortState} (ht : Nonneg t) (keys : List Int)
    (tmpWQueue2 : WriteBuckets) : Keeps t (Unbounded.renumberKeptWriters t keys tmpWQueue2) := by
  rw [Unbounded.renumberKeptWriters_eq]
  refine Keeps.foldl_nonneg (fun s n hs => ?_) (fun s n hs => ?_) keys ht
  · exact foldl_invariant (P := Nonneg) _ (fun u wi _ hu => nonneg_renumberKeptWriter hu n wi) s hs
  · exact Keeps.foldl_nonneg (fun u wi hu => nonneg_renumberKeptWriter hu n wi)
      (fun u wi hu => keeps_renumberKeptWriter n hu wi) _ hs

/-- `sortInQueue` clears no number. -/
theorem keeps_sortInQueue {s : SortState} (hs : Nonneg s) : Keeps s (Unbounded.sortInQueue s) := by
  unfold Unbounded.sortInQueue
  dsimp only
  have h₁ := (keeps_sortReads hs).trans
    (keeps_foldl_checkWrite (sortReads s).queue.wSlice (sortReads s, [], GoMap.empty))
  have hn₁ := nonneg_foldl_checkWrite (sortReads s).queue.wSlice (sortReads s, [], GoMap.empty)
    (nonneg_sortReads hs)
  generalize (sortReads s).queue.wSlice.foldl checkWrite (sortReads s, [], GoMap.empty) = acc at h₁ hn₁
  obtain ⟨t₁, tmpWQueue, tmpWQueue2⟩ := acc
  dsimp only at h₁ hn₁
  have hn₂ : Nonneg (t₁.setMaxWrite (if t₁.queue.maxRead = 0 then initialSequence - 1 else t₁.queue.maxRead)) :=
    hn₁.setMaxWrite (by split <;> simp [initialSequence, hn₁.maxRead])
  have h₂ : Keeps s (t₁.setMaxWrite
      (if t₁.queue.maxRead = 0 then initialSequence - 1 else t₁.queue.maxRead)) := h₁
  have hn₃ := nonneg_numberSameKeyWriters hn₂ tmpWQueue
  have hn₄ := nonneg_numberFreshWriters hn₃ (sortInts tmpWQueue2.keys)
  exact (((h₂.trans (keeps_numberSameKeyWriters hn₂ tmpWQueue)).trans (keeps_numberFreshWriters hn₃ _)).trans
    (keeps_raiseMaxWrite _ _)).trans (keeps_renumberKeptWriters (nonneg_raiseMaxWrite hn₄ _) _ _)

section WritesInPlace

variable {batch : List (List RWNode)} (hw : Wellformed batch) {name : Bytes}

include hw

/-- A write site: the write takes a number `j` above `maxWrite`, which becomes `maxWrite`. -/
theorem WritesWithin.numberWriteAt {t : SortState} (hI : WritesWithin batch name t)
    {w : NodeRef} (hwF : w ∈ (batchRefs batch).flatten) {j : Int} (hj : t.queue.maxWrite + 1 ≤ j) :
    WritesWithin batch name ((t.renumber w j).setMaxWrite j) := by
  have hlo := hI.maxWrite_lo
  refine ⟨⟨hI.within.frame.trans ((frame_renumber t w j).trans (frame_setMaxWrite _ _)),
    numbering_renumber hw hI.within.frame hI.within.numbering hwF
      (by simp only [initialSequence] at hlo ⊢; omega), hI.within.maxRead⟩, ?_⟩
  show initialSequence - 1 ≤ j
  omega

theorem writesWithin_numberSameKeyWriters {t : SortState} (hI : WritesWithin batch name t) :
    ∀ {tmpWQueue : List NodeRef}, (∀ w ∈ tmpWQueue, w ∈ (batchRefs batch).flatten) →
      WritesWithin batch name (Unbounded.numberSameKeyWriters t tmpWQueue)
  | [], _ => hI
  | w :: rest, hmem => by
    have h₁ := hI.numberWriteAt hw (hmem w List.mem_cons_self) le_rfl
    -- `maxRead` follows `maxWrite` up; the later writers are only aborted
    have h₂ : WritesWithin batch name
        ((((t.renumber w (t.queue.maxWrite + 1)).setMaxWrite (t.queue.maxWrite + 1))).setMaxRead
          (t.queue.maxWrite + 1)) := by
      refine ⟨⟨h₁.within.frame.trans (frame_setMaxRead _ _), h₁.within.numbering, Or.inr ?_⟩,
        h₁.maxWrite_lo⟩
      have := hI.maxWrite_lo
      show initialSequence ≤ t.queue.maxWrite + 1
      simp only [initialSequence] at this ⊢
      omega
    refine foldl_invariant rest (fun t' x _ ht => ?_) _ h₂
    exact ⟨⟨ht.within.frame.trans (frame_abort t' x), ht.within.numbering, ht.within.maxRead⟩,
      ht.maxWrite_lo⟩

/-- A pass of the loop over the unnumbered writes numbers its write above
`maxWrite`, or leaves the state. -/
theorem writesWithin_numberFreshWriter {keys : List Int} {t : SortState} (hI : WritesWithin batch name t)
    {w : NodeRef} (hwF : w ∈ (batchRefs batch).flatten) :
    WritesWithin batch name (Unbounded.numberFreshWriter keys t w) := by
  unfold Unbounded.numberFreshWriter
  split
  · exact hI
  · split
    · exact hI
    · rename_i j hj
      exact hI.numberWriteAt hw hwF (freeSlot_ge hj)

theorem writesWithin_numberFreshWriters {t : SortState} (hI : WritesWithin batch name t) (keys : List Int)
    (hmem : ∀ w ∈ t.queue.wSlice, w ∈ (batchRefs batch).flatten) :
    WritesWithin batch name (Unbounded.numberFreshWriters t keys) := by
  rw [Unbounded.numberFreshWriters_eq]
  exact foldl_invariant (P := WritesWithin batch name) _
    (fun u w hw' hu => writesWithin_numberFreshWriter hw hu (hmem w hw')) t hI

omit hw in
theorem writesWithin_raiseMaxWrite {t : SortState} (hI : WritesWithin batch name t) (keys : List Int) :
    WritesWithin batch name (raiseMaxWrite t keys) := by
  unfold raiseMaxWrite
  split
  · rename_i maxSeq _
    split
    · rename_i hlt
      exact ⟨⟨hI.within.frame.trans (frame_setMaxWrite _ _), hI.within.numbering, hI.within.maxRead⟩,
        by have := hI.maxWrite_lo; show initialSequence - 1 ≤ maxSeq; omega⟩
    · exact hI
  · exact hI

/-- The loop over the kept writes moves writes above `maxWrite` only. -/
theorem writesWithin_renumberKeptWriters {t : SortState} (hI : WritesWithin batch name t)
    (keys : List Int) {tmpWQueue2 : WriteBuckets}
    (hmem : ∀ n, ∀ x ∈ tmpWQueue2.findD n [], x ∈ (batchRefs batch).flatten) :
    WritesWithin batch name (Unbounded.renumberKeptWriters t keys tmpWQueue2) := by
  rw [Unbounded.renumberKeptWriters_eq]
  refine foldl_invariant (P := WritesWithin batch name) keys (fun u n _ hu => ?_) t hI
  refine foldl_invariant (P := WritesWithin batch name) _ (fun u' wi hwi hu' => ?_) u hu
  unfold Unbounded.renumberKeptWriter
  split
  · exact hu'
  · exact hu'.numberWriteAt hw (hmem n wi.1 (List.fst_mem_of_mem_zipIdx hwi)) le_rfl

/-- Sorting a queue of a well-formed batch keeps the numbers one per
transaction and every number set at least `initialSequence`. -/
theorem sortInQueue_numbering {s : SortState} (hI : Within batch name s) :
    Within batch name (Unbounded.sortInQueue s) := by
  have h₁ := within_sortReads hw hI
  have hf₁ := frame_sortReads s
  -- the loop over the writes leaves heap and queue, and fills the buckets
  have hfold := heap_foldl_checkWrite (sortReads s).queue.wSlice (sortReads s, [], GoMap.empty)
  have hframe := Frame.foldl Prod.fst frame_checkWrite (sortReads s).queue.wSlice (sortReads s, [], GoMap.empty)
  have hbuckets := buckets_foldl_checkWrite (sortReads s).queue.wSlice (sortReads s, [], GoMap.empty)
  have htmp := tmp_foldl_checkWrite (sortReads s).queue.wSlice (sortReads s, [], GoMap.empty)
  unfold Unbounded.sortInQueue
  dsimp only
  generalize (sortReads s).queue.wSlice.foldl checkWrite (sortReads s, [], GoMap.empty) = acc
    at hfold hframe hbuckets htmp
  obtain ⟨t₁, tmpWQueue, tmpWQueue2⟩ := acc
  obtain ⟨-, -, hmem⟩ := hbuckets
  obtain ⟨tmp, htmp, hsub⟩ := htmp
  dsimp only at hfold hframe hmem htmp ⊢
  obtain rfl : tmpWQueue = tmp := by simpa using htmp
  have hwS : (sortReads s).queue.wSlice = s.queue.wSlice := hf₁.wSlice
  have hwF : ∀ w ∈ s.queue.wSlice, w ∈ (batchRefs batch).flatten := fun w hw' =>
    mem_flatten_of_wSlice hI.frame hw'
  have hW₁ : Within batch name t₁ :=
    ⟨h₁.frame.trans hframe, hfold.1 ▸ h₁.numbering, hfold.2 ▸ h₁.maxRead⟩
  have hmemF : ∀ n, ∀ x ∈ tmpWQueue2.findD n [], x ∈ (batchRefs batch).flatten := by
    intro n x hx
    rcases hmem n x hx with h | h
    · exact absurd h List.not_mem_nil
    · exact hwF x (hwS ▸ h)
  -- `maxWrite` starts at `maxRead`, or just below `initialSequence`
  have hW₂ : WritesWithin batch name
      (t₁.setMaxWrite (if t₁.queue.maxRead = 0 then initialSequence - 1 else t₁.queue.maxRead)) := by
    have hmr := hW₁.maxRead
    refine ⟨⟨hW₁.frame.trans (frame_setMaxWrite _ _), hW₁.numbering, hW₁.maxRead⟩, ?_⟩
    show initialSequence - 1 ≤ (if t₁.queue.maxRead = 0 then initialSequence - 1 else t₁.queue.maxRead)
    split
    · exact le_rfl
    · rcases hmr with h | h
      · contradiction
      · omega
  have hW₃ := writesWithin_numberSameKeyWriters hw hW₂ fun w hw' => hwF w (hwS ▸ hsub.subset hw')
  have hw₃ : (Unbounded.numberSameKeyWriters (t₁.setMaxWrite
      (if t₁.queue.maxRead = 0 then initialSequence - 1 else t₁.queue.maxRead)) tmpWQueue).queue.wSlice =
      s.queue.wSlice :=
    ((((hf₁.trans hframe).trans (frame_setMaxWrite _ _)).trans (frame_numberSameKeyWriters _ tmpWQueue))).wSlice
  have hW₄ := writesWithin_numberFreshWriters hw hW₃ (sortInts tmpWQueue2.keys) fun w hw' => hwF w (hw₃ ▸ hw')
  exact (writesWithin_renumberKeptWriters hw (writesWithin_raiseMaxWrite hW₄ _) _ hmemF).within

end WritesInPlace

end SortState

/-- No pass of the loop of `DeSS` clears a number. -/
theorem sequence_foldl_sortQueueNamed_ne_zero (sequence : List Bytes) {hc : Heap × QueueGraph}
    (hI : LoopNonneg hc) (n : NodeRef) (hn : (hc.1 n).sequence ≠ 0) :
    ((sequence.foldl Unbounded.sortQueueNamed hc).1 n).sequence ≠ 0 :=
  (foldl_rel_of_invariant (I := LoopNonneg)
    (R := fun a b : Heap × QueueGraph => ∀ n, (a.1 n).sequence ≠ 0 → (b.1 n).sequence ≠ 0)
    (fun _ _ h => h) (fun h₁₂ h₂₃ n h => h₂₃ n (h₁₂ n h))
    (fun _ name hI => ⟨hI.step name, fun n hn => SortState.keeps_sortInQueue (hI name) n hn⟩)
    sequence hc hI).2 n hn

end Nezha
