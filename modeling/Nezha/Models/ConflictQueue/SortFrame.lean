import Nezha.Models.ConflictQueue.Unbounded

/-!
# What sorting a queue can change (`sortInQueue`)

Every site of `sortInQueue` writes a `Sequence`, an `isAssigned` or an
`isAborted` flag, or one of the queue's two maxima. None touches a node's key,
value, transaction or label, the node lists of `cq.Edges` or the two slices
of the queue, and no flag is ever cleared. `Frame` collects these facts: each
operation of `SortState` is a frame, frames compose along every loop, and so
the whole of `sortInQueue` is one, here over the unbounded loops.
-/

namespace Nezha

/-- What the numbering sites keep of every node. -/
structure Heap.Static (h h' : Heap) : Prop where
  rwSet : ∀ n, (h' n).rwSet = (h n).rwSet
  transInfo : ∀ n, (h' n).transInfo = (h n).transInfo
  label : ∀ n, (h' n).label = (h n).label
  assigned : ∀ n, (h n).isAssigned = true → (h' n).isAssigned = true

namespace Heap.Static

theorem refl (h : Heap) : Heap.Static h h :=
  ⟨fun _ => rfl, fun _ => rfl, fun _ => rfl, fun _ hn => hn⟩

theorem trans {h₁ h₂ h₃ : Heap} (h₁₂ : Heap.Static h₁ h₂) (h₂₃ : Heap.Static h₂ h₃) :
    Heap.Static h₁ h₃ :=
  ⟨fun n => (h₂₃.rwSet n).trans (h₁₂.rwSet n), fun n => (h₂₃.transInfo n).trans (h₁₂.transInfo n),
    fun n => (h₂₃.label n).trans (h₁₂.label n), fun n hn => h₂₃.assigned n (h₁₂.assigned n hn)⟩

end Heap.Static

namespace Heap

theorem static_setSequence (h : Heap) (p : NodeRef) (v : Int) : Heap.Static h (h.setSequence p v) := by
  refine ⟨fun n => (setSequence_static h p n v).1, fun n => (setSequence_static h p n v).2.1,
    fun n => (setSequence_static h p n v).2.2.1, fun n hn => ?_⟩
  rw [(setSequence_static h p n v).2.2.2]
  exact hn

theorem static_setAssigned (h : Heap) (p : NodeRef) : Heap.Static h (h.setAssigned p) := by
  refine ⟨fun n => (setAssigned_static h p n).1, fun n => (setAssigned_static h p n).2.1,
    fun n => (setAssigned_static h p n).2.2.1, fun n hn => ?_⟩
  by_cases hnp : n = p
  · subst hnp
    simp
  · rw [setAssigned_of_ne h hnp]
    exact hn

theorem static_assignSequence (h : Heap) (p : NodeRef) (edge : List NodeRef) :
    Heap.Static h (h.assignSequence p edge) := by
  unfold assignSequence
  refine foldl_rel Heap.Static.refl (fun h₁₂ h₂₃ => h₁₂.trans h₂₃) (fun h e => ?_) edge h
  split
  · exact Heap.Static.refl h
  · exact static_setSequence h e _

theorem static_renumber (h : Heap) (p : NodeRef) (v : Int) (edge : List NodeRef) :
    Heap.Static h (h.renumber p v edge) :=
  ((static_setSequence h p v).trans (static_setAssigned _ p)).trans (static_assignSequence _ p edge)

/-- `assignSequence` writes only the nodes of the edge. -/
theorem assignSequence_of_not_mem (h : Heap) (p : NodeRef) {edge : List NodeRef} {q : NodeRef}
    (hq : q ∉ edge) : h.assignSequence p edge q = h q := by
  unfold assignSequence
  induction edge generalizing h with
  | nil => rfl
  | cons e rest ih =>
    rw [List.mem_cons, not_or] at hq
    rw [List.foldl_cons, ih _ hq.2]
    split
    · rfl
    · exact setSequence_of_ne h _ hq.1

/-- A numbering site writes only its node and the nodes of its edge. -/
theorem renumber_of_ne (h : Heap) {p q : NodeRef} (v : Int) {edge : List NodeRef} (hqp : q ≠ p)
    (hq : q ∉ edge) : h.renumber p v edge q = h q := by
  rw [renumber, assignSequence_of_not_mem _ _ hq, setAssigned_of_ne _ hqp, setSequence_of_ne _ _ hqp]

/-- A numbering site marks its node assigned. -/
theorem renumber_assigned (h : Heap) (p : NodeRef) (v : Int) (edge : List NodeRef) :
    (h.renumber p v edge p).isAssigned = true :=
  (static_assignSequence _ p edge).assigned p (by simp)

/-! ### What a numbering site writes -/

/-- `assignSequence` never writes the node it copies from. -/
theorem assignSequence_self (h : Heap) (p : NodeRef) : ∀ edge : List NodeRef, h.assignSequence p edge p = h p
  | [] => rfl
  | e :: rest => by
    have hstep : (if h.deepEqual p e then h else h.setSequence e (h p).sequence) p = h p := by
      split
      · rfl
      · rename_i hd
        exact setSequence_of_ne h _ fun hpe => hd (by simp [deepEqual, hpe])
    exact (assignSequence_self (if h.deepEqual p e then h else h.setSequence e (h p).sequence) p rest).trans
      hstep

/-- `assignSequence` gives a node the number of the node it copies from, or leaves it. -/
theorem sequence_assignSequence_cases (h : Heap) (p : NodeRef) : ∀ (edge : List NodeRef) (q : NodeRef),
    (h.assignSequence p edge q).sequence = (h p).sequence ∨
      (h.assignSequence p edge q).sequence = (h q).sequence
  | [], _ => Or.inr rfl
  | e :: rest, q => by
    have hp : (if h.deepEqual p e then h else h.setSequence e (h p).sequence) p = h p :=
      assignSequence_self h p [e]
    have hq : ((if h.deepEqual p e then h else h.setSequence e (h p).sequence) q).sequence = (h p).sequence ∨
        ((if h.deepEqual p e then h else h.setSequence e (h p).sequence) q).sequence = (h q).sequence := by
      split
      · exact Or.inr rfl
      · by_cases hqe : q = e
        · subst hqe
          exact Or.inl (by simp)
        · exact Or.inr (by rw [setSequence_of_ne h _ hqe])
    rcases sequence_assignSequence_cases (if h.deepEqual p e then h else h.setSequence e (h p).sequence) p rest q
      with h' | h'
    · exact Or.inl (h'.trans (by rw [hp]))
    · exact h' ▸ hq

/-- `assignSequence` over nodes that differ from the source node in key,
value or label copies the source's number to each of them. -/
theorem sequence_assignSequence (h : Heap) (p : NodeRef) : ∀ (edge : List NodeRef),
    (∀ e ∈ edge, e ≠ p → (h e).rwSet ≠ (h p).rwSet ∨ (h e).label ≠ (h p).label) →
    ∀ q, (h.assignSequence p edge q).sequence = if q ∈ edge then (h p).sequence else (h q).sequence
  | [], _, q => by simp [assignSequence]
  | e :: rest, hdiff, q => by
    have hrest : ∀ e' ∈ rest, e' ≠ p → (h e').rwSet ≠ (h p).rwSet ∨ (h e').label ≠ (h p).label :=
      fun e' he' => hdiff e' (List.mem_cons_of_mem _ he')
    show ((rest.foldl (fun h e => if h.deepEqual p e then h else h.setSequence e (h p).sequence)
      (if h.deepEqual p e then h else h.setSequence e (h p).sequence)) q).sequence = _
    by_cases hep : e = p
    · -- the pass over the source node itself skips it
      subst hep
      rw [if_pos (by simp [deepEqual])]
      have ih := sequence_assignSequence h e rest hrest q
      unfold assignSequence at ih
      rw [ih]
      by_cases hq : q = e
      · subst hq
        simp
      · simp [hq]
    · have hne : h p ≠ h e := fun heq => by
        rcases hdiff e List.mem_cons_self hep with h' | h' <;> exact h' (by rw [heq])
      rw [if_neg (by simp [deepEqual, Ne.symm hep, hne])]
      have ih := sequence_assignSequence (h.setSequence e (h p).sequence) p rest (fun e' he' hne' => by
        rw [(setSequence_static h e e' _).1, (setSequence_static h e e' _).2.2.1,
          setSequence_of_ne h _ (Ne.symm hep)]
        exact hrest e' he' hne') q
      unfold assignSequence at ih
      rw [ih, setSequence_of_ne h _ (Ne.symm hep)]
      by_cases hq : q = e
      · subst hq
        simp
      · simp [hq, setSequence_of_ne h _ hq]

theorem renumber_sequence_self (h : Heap) (p : NodeRef) (v : Int) (edge : List NodeRef) :
    (h.renumber p v edge p).sequence = v := by
  rw [renumber, assignSequence_self]
  simp

/-- A numbering site gives a node its number or leaves it. -/
theorem renumber_sequence_cases (h : Heap) (p : NodeRef) (v : Int) (edge : List NodeRef) (q : NodeRef) :
    (h.renumber p v edge q).sequence = v ∨ (h.renumber p v edge q).sequence = (h q).sequence := by
  by_cases hq : q = p
  · subst hq
    exact Or.inl (renumber_sequence_self h q v edge)
  · rcases sequence_assignSequence_cases ((h.setSequence p v).setAssigned p) p edge q with h' | h'
    · left
      rw [renumber, h']
      simp
    · right
      rw [renumber, h', setAssigned_of_ne _ hq, setSequence_of_ne _ _ hq]

/-- A numbering site over an edge whose other nodes differ from the node in
key, value or label writes its number to the node and to the whole edge. -/
theorem sequence_renumber (h : Heap) (p : NodeRef) (v : Int) {edge : List NodeRef}
    (hdiff : ∀ e ∈ edge, e ≠ p → (h e).rwSet ≠ (h p).rwSet ∨ (h e).label ≠ (h p).label) (q : NodeRef) :
    (h.renumber p v edge q).sequence = if q = p ∨ q ∈ edge then v else (h q).sequence := by
  have hdiff' : ∀ e ∈ edge, e ≠ p → (((h.setSequence p v).setAssigned p) e).rwSet ≠
      (((h.setSequence p v).setAssigned p) p).rwSet ∨
      (((h.setSequence p v).setAssigned p) e).label ≠ (((h.setSequence p v).setAssigned p) p).label := by
    intro e he hne
    rw [(setAssigned_static _ p e).1, (setAssigned_static _ p e).2.2.1, (setAssigned_static _ p p).1,
      (setAssigned_static _ p p).2.2.1, (setSequence_static h p e v).1, (setSequence_static h p e v).2.2.1,
      (setSequence_static h p p v).1, (setSequence_static h p p v).2.2.1]
    exact hdiff e he hne
  rw [renumber, sequence_assignSequence _ p edge hdiff' q]
  by_cases hq : q = p
  · subst hq
    simp
  · by_cases hqe : q ∈ edge
    · simp [hqe]
    · simp [hq, hqe, setAssigned_of_ne _ hq, setSequence_of_ne _ _ hq]

end Heap

/-- What `sortInQueue` keeps of its state. -/
structure SortState.Frame (s s' : SortState) : Prop where
  heap : Heap.Static s.heap s'.heap
  edges_keys : s'.edges.keys = s.edges.keys
  edges_set : ∀ id, (s'.edges.findD id Edge.zero).set = (s.edges.findD id Edge.zero).set
  aborted : ∀ id, (s.edges.findD id Edge.zero).isAborted = true →
    (s'.edges.findD id Edge.zero).isAborted = true
  rSlice : s'.queue.rSlice = s.queue.rSlice
  wSlice : s'.queue.wSlice = s.queue.wSlice

namespace SortState

namespace Frame

theorem refl (s : SortState) : Frame s s :=
  ⟨Heap.Static.refl _, rfl, fun _ => rfl, fun _ h => h, rfl, rfl⟩

theorem trans {s₁ s₂ s₃ : SortState} (h₁₂ : Frame s₁ s₂) (h₂₃ : Frame s₂ s₃) : Frame s₁ s₃ :=
  ⟨h₁₂.heap.trans h₂₃.heap, h₂₃.edges_keys.trans h₁₂.edges_keys,
    fun id => (h₂₃.edges_set id).trans (h₁₂.edges_set id),
    fun id h => h₂₃.aborted id (h₁₂.aborted id h), h₂₃.rSlice.trans h₁₂.rSlice,
    h₂₃.wSlice.trans h₁₂.wSlice⟩

/-- A loop whose every pass is a frame, seen through a projection of its accumulator. -/
theorem foldl {α γ : Type} (π : γ → SortState) {f : γ → α → γ} (hf : ∀ a x, Frame (π a) (π (f a x))) :
    ∀ (l : List α) (a : γ), Frame (π a) (π (l.foldl f a)) :=
  foldl_rel (R := fun a b => Frame (π a) (π b)) (fun a => refl (π a)) (fun h₁₂ h₂₃ => h₁₂.trans h₂₃) hf

/-- A node's edge keeps its node list. -/
theorem edgeOf_set {s s' : SortState} (hf : Frame s s') (n : NodeRef) :
    (s'.edgeOf n).set = (s.edgeOf n).set := by
  rw [edgeOf, edgeOf, hf.heap.transInfo n]
  exact hf.edges_set _

theorem edgeOf_aborted {s s' : SortState} (hf : Frame s s') {n : NodeRef}
    (h : (s.edgeOf n).isAborted = true) : (s'.edgeOf n).isAborted = true := by
  rw [edgeOf, hf.heap.transInfo n]
  exact hf.aborted _ h

end Frame

theorem frame_renumber (s : SortState) (n : NodeRef) (v : Int) : Frame s (s.renumber n v) :=
  ⟨Heap.static_renumber _ _ _ _, rfl, fun _ => rfl, fun _ h => h, rfl, rfl⟩

theorem frame_setMaxRead (s : SortState) (v : Int) : Frame s (s.setMaxRead v) :=
  ⟨Heap.Static.refl _, rfl, fun _ => rfl, fun _ h => h, rfl, rfl⟩

theorem frame_setMaxWrite (s : SortState) (v : Int) : Frame s (s.setMaxWrite v) :=
  ⟨Heap.Static.refl _, rfl, fun _ => rfl, fun _ h => h, rfl, rfl⟩

theorem frame_setAssigned (s : SortState) (n : NodeRef) :
    Frame s { s with heap := s.heap.setAssigned n } :=
  ⟨Heap.static_setAssigned _ _, rfl, fun _ => rfl, fun _ h => h, rfl, rfl⟩

/-- Aborting a transaction only raises the flag of its edge. -/
theorem findD_abort (s : SortState) (n : NodeRef) (id : Bytes) :
    ((s.abort n).edges.findD id Edge.zero) =
      if id = (s.heap n).transInfo.id ∧ id ∈ s.edges.keys then
        { s.edges.findD id Edge.zero with isAborted := true }
      else s.edges.findD id Edge.zero := by
  rw [abort, GoMap.findD_modify]
  by_cases hid : id = (s.heap n).transInfo.id
  · rw [if_pos hid]
    by_cases hk : id ∈ s.edges.keys
    · obtain ⟨e, he⟩ := GoMap.exists_get?_of_mem hk
      rw [if_pos ⟨hid, hk⟩, he, GoMap.findD_eq_of_get? he]
      rfl
    · have hn : s.edges.get? id = none := by
        simpa [s.edges.mem_keys id, Option.not_isSome_iff_eq_none] using hk
      rw [if_neg fun h => hk h.2, hn, GoMap.findD, hn]
      rfl
  · rw [if_neg hid, if_neg fun h => hid h.1]

theorem frame_abort (s : SortState) (n : NodeRef) : Frame s (s.abort n) := by
  refine ⟨Heap.Static.refl _, rfl, fun id => ?_, fun id h => ?_, rfl, rfl⟩
  · rw [findD_abort]
    split <;> rfl
  · rw [findD_abort]
    split
    · rfl
    · exact h

/-! ## Every loop of `sortInQueue` is a frame -/

theorem frame_numberFreshReads (s : SortState) : Frame s (numberFreshReads s) :=
  Frame.foldl id (fun s r => (frame_renumber s r _).trans (frame_setMaxRead _ _)) _ s

theorem frame_scanNumberedReads (s : SortState) (tmp : List NodeRef) :
    Frame s (scanNumberedReads s tmp).1 := by
  refine Frame.foldl Prod.fst (fun acc tr => ?_) tmp (s, maxInt32)
  refine (frame_setAssigned acc.1 tr).trans ?_
  dsimp only
  split
  · exact frame_setMaxRead _ _
  · exact Frame.refl _

theorem frame_numberWaitingReads (s : SortState) (min : Int) : Frame s (numberWaitingReads s min) := by
  refine Frame.foldl id (fun s r => ?_) _ s
  split
  · exact Frame.refl s
  · exact frame_renumber s r min

theorem frame_sortReads (s : SortState) : Frame s (sortReads s) := by
  unfold sortReads
  split
  · exact frame_numberFreshReads s
  · exact (frame_scanNumberedReads s _).trans (frame_numberWaitingReads _ _)

theorem frame_checkWrite (acc : SortState × List NodeRef × WriteBuckets) (w : NodeRef) :
    Frame acc.1 (checkWrite acc w).1 := by
  obtain ⟨s, tmpWQueue, tmpWQueue2⟩ := acc
  unfold checkWrite
  dsimp only
  split_ifs
  · exact Frame.refl s
  · exact Frame.refl s
  · exact Frame.refl s
  · exact frame_abort s w
  · exact Frame.refl s
  · exact Frame.refl s

theorem frame_numberSameKeyWriters (s : SortState) : ∀ tmpWQueue : List NodeRef,
    Frame s (Unbounded.numberSameKeyWriters s tmpWQueue)
  | [] => Frame.refl s
  | w :: rest =>
    (((frame_renumber s w _).trans (frame_setMaxWrite _ _)).trans (frame_setMaxRead _ _)).trans
      (Frame.foldl id (fun s w => frame_abort s w) rest _)

theorem frame_numberFreshWriter (keys : List Int) (s : SortState) (w : NodeRef) :
    Frame s (Unbounded.numberFreshWriter keys s w) := by
  unfold Unbounded.numberFreshWriter
  split
  · exact Frame.refl s
  · split
    · exact Frame.refl s
    · exact (frame_renumber s w _).trans (frame_setMaxWrite _ _)

theorem frame_numberFreshWriters (s : SortState) (keys : List Int) :
    Frame s (Unbounded.numberFreshWriters s keys) :=
  Frame.foldl id (frame_numberFreshWriter keys) _ s

theorem frame_raiseMaxWrite (s : SortState) (keys : List Int) : Frame s (raiseMaxWrite s keys) := by
  unfold raiseMaxWrite
  split
  · split
    · exact frame_setMaxWrite s _
    · exact Frame.refl s
  · exact Frame.refl s

theorem frame_renumberKeptWriter (n : Int) (s : SortState) (wi : NodeRef × Nat) :
    Frame s (Unbounded.renumberKeptWriter n s wi) := by
  unfold Unbounded.renumberKeptWriter
  split
  · exact Frame.refl s
  · exact (frame_renumber s wi.1 _).trans (frame_setMaxWrite _ _)

theorem frame_renumberKeptWriters (s : SortState) (keys : List Int) (tmpWQueue2 : WriteBuckets) :
    Frame s (Unbounded.renumberKeptWriters s keys tmpWQueue2) :=
  Frame.foldl id (fun s n => Frame.foldl id (frame_renumberKeptWriter n) _ s) keys s

/-- The writes loop of `sortInQueue` leaves the heap as it was: it only aborts. -/
theorem heap_foldl_checkWrite : ∀ (l : List NodeRef) (acc : SortState × List NodeRef × WriteBuckets),
    (l.foldl checkWrite acc).1.heap = acc.1.heap ∧ (l.foldl checkWrite acc).1.queue = acc.1.queue
  | [], _ => ⟨rfl, rfl⟩
  | w :: l, acc => by
    obtain ⟨hh, hq⟩ := heap_foldl_checkWrite l (checkWrite acc w)
    rw [List.foldl_cons, hh, hq]
    obtain ⟨s, tmpWQueue, tmpWQueue2⟩ := acc
    unfold checkWrite
    dsimp only
    split_ifs <;> exact ⟨rfl, rfl⟩

theorem frame_sortInQueue (s : SortState) : Frame s (Unbounded.sortInQueue s) := by
  unfold Unbounded.sortInQueue
  dsimp only
  have h₁ := frame_sortReads s
  have h₂ := Frame.foldl Prod.fst frame_checkWrite (sortReads s).queue.wSlice (sortReads s, [], GoMap.empty)
  exact ((((h₁.trans h₂).trans (frame_setMaxWrite _ _)).trans (frame_numberSameKeyWriters _ _)).trans
    ((frame_numberFreshWriters _ _).trans (frame_raiseMaxWrite _ _))).trans
    (frame_renumberKeptWriters _ _ _)

/-! ## No number is negative -/

/-- Every number of the heap and both maxima of the queue are at least zero.
The unbounded loops write only `initialSequence`, numbers already present and
numbers above `maxWrite`, so they keep this; in the code it holds as long as
no sum wraps. -/
structure Nonneg (s : SortState) : Prop where
  sequence : ∀ n, 0 ≤ (s.heap n).sequence
  maxRead : 0 ≤ s.queue.maxRead
  maxWrite : 0 ≤ s.queue.maxWrite

namespace Nonneg

variable {s : SortState}

theorem renumber (hs : Nonneg s) (n : NodeRef) {v : Int} (hv : 0 ≤ v) : Nonneg (s.renumber n v) := by
  refine ⟨fun q => ?_, hs.maxRead, hs.maxWrite⟩
  show 0 ≤ (s.heap.renumber n v (s.edgeOf n).set q).sequence
  rcases Heap.renumber_sequence_cases s.heap n v (s.edgeOf n).set q with h | h
  · rw [h]
    exact hv
  · rw [h]
    exact hs.sequence q

theorem setMaxRead (hs : Nonneg s) {v : Int} (hv : 0 ≤ v) : Nonneg (s.setMaxRead v) :=
  ⟨hs.sequence, hv, hs.maxWrite⟩

theorem setMaxWrite (hs : Nonneg s) {v : Int} (hv : 0 ≤ v) : Nonneg (s.setMaxWrite v) :=
  ⟨hs.sequence, hs.maxRead, hv⟩

theorem abort (hs : Nonneg s) (n : NodeRef) : Nonneg (s.abort n) :=
  ⟨hs.sequence, hs.maxRead, hs.maxWrite⟩

theorem setAssigned (hs : Nonneg s) (n : NodeRef) : Nonneg { s with heap := s.heap.setAssigned n } := by
  refine ⟨fun q => ?_, hs.maxRead, hs.maxWrite⟩
  rw [(Heap.setAssigned_static s.heap n q).2.2.2]
  exact hs.sequence q

/-- A write site: the number one above `maxWrite` goes to a node and to `maxWrite`. -/
theorem numberWrite (hs : Nonneg s) (n : NodeRef) {v : Int} (hv : s.queue.maxWrite < v) :
    Nonneg ((s.renumber n v).setMaxWrite v) :=
  (hs.renumber n (by have := hs.maxWrite; omega)).setMaxWrite (by have := hs.maxWrite; omega)

end Nonneg

theorem nonneg_sortReads {s : SortState} (hs : Nonneg s) : Nonneg (sortReads s) := by
  unfold sortReads
  split
  · refine foldl_invariant _ (fun t r _ ht => ?_) s hs
    have ht' := ht.renumber r (v := initialSequence) (by decide)
    exact ht'.setMaxRead (ht'.sequence r)
  · -- the scan keeps its least number at most `math.MaxInt32` and at least zero
    have hscan : Nonneg (scanNumberedReads s (tmpRQueue s)).1 ∧ 0 ≤ (scanNumberedReads s (tmpRQueue s)).2 := by
      refine foldl_invariant (P := fun acc : SortState × Int => Nonneg acc.1 ∧ 0 ≤ acc.2) _
        (fun acc tr _ hacc => ?_) (s, maxInt32) ⟨hs, (by decide : (0 : Int) ≤ maxInt32)⟩
      have ht := hacc.1.setAssigned tr
      have hseq := ht.sequence tr
      dsimp only
      refine ⟨?_, ?_⟩
      · split
        · exact ht.setMaxRead hseq
        · exact ht
      · split <;> omega
    obtain ⟨hs₁, hmin⟩ := hscan
    generalize scanNumberedReads s (tmpRQueue s) = p at hs₁ hmin ⊢
    refine foldl_invariant _ (fun t r _ ht => ?_) p.1 hs₁
    split
    · exact ht
    · exact ht.renumber r hmin

theorem nonneg_foldl_checkWrite (l : List NodeRef) (acc : SortState × List NodeRef × WriteBuckets)
    (hs : Nonneg acc.1) : Nonneg (l.foldl checkWrite acc).1 := by
  obtain ⟨hh, hq⟩ := heap_foldl_checkWrite l acc
  exact ⟨fun n => hh ▸ hs.sequence n, hq ▸ hs.maxRead, hq ▸ hs.maxWrite⟩

theorem nonneg_numberSameKeyWriters {s : SortState} (hs : Nonneg s) :
    ∀ tmpWQueue : List NodeRef, Nonneg (Unbounded.numberSameKeyWriters s tmpWQueue)
  | [] => hs
  | w :: rest => by
    have h₁ := hs.numberWrite w (v := s.queue.maxWrite + 1) (by omega)
    exact foldl_invariant rest (fun t x _ ht => ht.abort x) _ (h₁.setMaxRead (h₁.maxWrite))

theorem nonneg_numberFreshWriter {t : SortState} (ht : Nonneg t) (keys : List Int) (w : NodeRef) :
    Nonneg (Unbounded.numberFreshWriter keys t w) := by
  unfold Unbounded.numberFreshWriter
  split
  · exact ht
  · split
    · exact ht
    · rename_i i hi
      exact ht.numberWrite w (by have := freeSlot_ge hi; omega)

theorem nonneg_numberFreshWriters {s : SortState} (hs : Nonneg s) (keys : List Int) :
    Nonneg (Unbounded.numberFreshWriters s keys) := by
  rw [Unbounded.numberFreshWriters_eq]
  exact foldl_invariant (P := Nonneg) _ (fun t w _ ht => nonneg_numberFreshWriter ht keys w) s hs

theorem nonneg_raiseMaxWrite {s : SortState} (hs : Nonneg s) (keys : List Int) :
    Nonneg (raiseMaxWrite s keys) := by
  unfold raiseMaxWrite
  split
  · split
    · exact hs.setMaxWrite (by have := hs.maxWrite; omega)
    · exact hs
  · exact hs

theorem nonneg_renumberKeptWriter {t : SortState} (ht : Nonneg t) (n : Int) (wi : NodeRef × Nat) :
    Nonneg (Unbounded.renumberKeptWriter n t wi) := by
  unfold Unbounded.renumberKeptWriter
  split
  · exact ht
  · exact ht.numberWrite wi.1 (by omega)

theorem nonneg_renumberKeptWriters {s : SortState} (hs : Nonneg s) (keys : List Int)
    (tmpWQueue2 : WriteBuckets) : Nonneg (Unbounded.renumberKeptWriters s keys tmpWQueue2) := by
  rw [Unbounded.renumberKeptWriters_eq]
  exact foldl_invariant (P := Nonneg) keys (fun t n _ ht => foldl_invariant (P := Nonneg) _
    (fun u wi _ hu => nonneg_renumberKeptWriter hu n wi) t ht) s hs

/-- The unbounded `sortInQueue` writes no negative number. -/
theorem nonneg_sortInQueue {s : SortState} (hs : Nonneg s) : Nonneg (Unbounded.sortInQueue s) := by
  unfold Unbounded.sortInQueue
  dsimp only
  have h₁ := nonneg_foldl_checkWrite (sortReads s).queue.wSlice (sortReads s, [], GoMap.empty)
    (nonneg_sortReads hs)
  generalize (sortReads s).queue.wSlice.foldl checkWrite (sortReads s, [], GoMap.empty) = acc at h₁ ⊢
  obtain ⟨t, tmpWQueue, tmpWQueue2⟩ := acc
  have h₂ : Nonneg (t.setMaxWrite (if t.queue.maxRead = 0 then initialSequence - 1 else t.queue.maxRead)) :=
    h₁.setMaxWrite (by split <;> simp [initialSequence, h₁.maxRead])
  exact nonneg_renumberKeptWriters (nonneg_raiseMaxWrite
    (nonneg_numberFreshWriters (nonneg_numberSameKeyWriters h₂ tmpWQueue) _) _) _ _

/-! ## `maxWrite` only rises in the writer loops -/

theorem maxWrite_le_numberSameKeyWriters (t : SortState) :
    ∀ tmpWQueue : List NodeRef, t.queue.maxWrite ≤ (Unbounded.numberSameKeyWriters t tmpWQueue).queue.maxWrite
  | [] => le_rfl
  | w :: rest => by
    -- the later writers are only aborted, which leaves the queue alone
    have hq : ∀ u : SortState, (rest.foldl (fun (s : SortState) w => s.abort w) u).queue = u.queue := by
      refine foldl_rel (R := fun a b : SortState => b.queue = a.queue) (fun _ => rfl)
        (fun h₁₂ h₂₃ => h₂₃.trans h₁₂) (fun u x => ?_) rest
      rfl
    unfold Unbounded.numberSameKeyWriters
    rw [hq]
    show t.queue.maxWrite ≤ t.queue.maxWrite + 1
    omega

theorem maxWrite_le_numberFreshWriter (keys : List Int) (t : SortState) (w : NodeRef) :
    t.queue.maxWrite ≤ (Unbounded.numberFreshWriter keys t w).queue.maxWrite := by
  unfold Unbounded.numberFreshWriter
  split
  · exact le_rfl
  · split
    · exact le_rfl
    · rename_i i hi
      show t.queue.maxWrite ≤ i
      have := freeSlot_ge hi
      omega

theorem maxWrite_le_raiseMaxWrite (t : SortState) (keys : List Int) :
    t.queue.maxWrite ≤ (raiseMaxWrite t keys).queue.maxWrite := by
  unfold raiseMaxWrite
  split
  · split
    · rename_i hlt
      exact le_of_lt hlt
    · exact le_rfl
  · exact le_rfl

theorem maxWrite_le_renumberKeptWriter (n : Int) (t : SortState) (wi : NodeRef × Nat) :
    t.queue.maxWrite ≤ (Unbounded.renumberKeptWriter n t wi).queue.maxWrite := by
  unfold Unbounded.renumberKeptWriter
  split
  · exact le_rfl
  · show t.queue.maxWrite ≤ t.queue.maxWrite + 1
    omega

end SortState

/-- A state of the loop of `DeSS` in which no number and no queue maximum is negative. -/
def LoopNonneg (hc : Heap × QueueGraph) : Prop :=
  ∀ name, SortState.Nonneg ⟨hc.1, hc.2.edges, hc.2.queues.findD name Queue.zero⟩

/-- `CreateGraph`'s queues start with both maxima zero. -/
theorem loopNonneg_of_zero {hc : Heap × QueueGraph} (hh : ∀ n, 0 ≤ (hc.1 n).sequence)
    (hq : ∀ name, (hc.2.queues.findD name Queue.zero).maxRead = 0 ∧
      (hc.2.queues.findD name Queue.zero).maxWrite = 0) : LoopNonneg hc :=
  fun name => ⟨hh, (hq name).1 ▸ le_rfl, (hq name).2 ▸ le_rfl⟩

/-- A pass of the loop of `DeSS` writes no negative number. -/
theorem LoopNonneg.step {hc : Heap × QueueGraph} (hI : LoopNonneg hc) (name : Bytes) :
    LoopNonneg (Unbounded.sortQueueNamed hc name) := by
  intro name'
  have hnn := SortState.nonneg_sortInQueue (hI name)
  rcases Unbounded.findD_sortQueueNamed hc name name' with ⟨hq, rfl⟩ | hq
  · rw [hq]
    exact hnn
  · rw [hq]
    exact ⟨hnn.sequence, (hI name').maxRead, (hI name').maxWrite⟩

theorem LoopNonneg.foldl {hc : Heap × QueueGraph} (hI : LoopNonneg hc) (sequence : List Bytes) :
    LoopNonneg (sequence.foldl Unbounded.sortQueueNamed hc) :=
  foldl_invariant sequence (fun _ name _ h => h.step name) hc hI

end Nezha
