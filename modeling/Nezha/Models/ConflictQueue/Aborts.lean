import Nezha.Models.ConflictQueue.SortFrame

/-!
# Why `sortInQueue` aborts a transaction

`sortInQueue` aborts at two sites, both in the loop over the queue's writes.
A numbered write at or below `maxRead` whose transaction has an assigned read
of another key but none of this one is aborted (`isBefore`); of the writers
whose transaction also read this key (`tmpWQueue`), all but the first are
aborted. In the first case `maxRead` is positive, so the queue holds a read,
and it is not the writer's: the writer's own read of the key would be assigned
and would have been found. In the second case the first writer is another
transaction's write of the same key.

`AbortsWithin P s s'` says that going from `s` to `s'` changes no more than a
frame and aborts only transactions of nodes satisfying `P`; the sites above
give such a `P` for the whole of `sortInQueue`.
-/

namespace Nezha

namespace SortState

/-- `isSame` of the scan over a writer's transaction: the transaction has an
assigned read of the writer's key. -/
theorem readScan_fst (h : Heap) (w : NodeRef) :
    ∀ (l : List NodeRef) (b : Bool), (readScan h w l b).1 = true ↔
      ∃ rw ∈ l, (h rw).label = .r ∧ (h rw).isAssigned = true ∧ (h w).rwSet.key = (h rw).rwSet.key
  | [], _ => by simp [readScan]
  | rw :: rest, b => by
    unfold readScan
    by_cases hr : (h rw).label = .r ∧ (h rw).isAssigned = true
    · rw [if_pos hr]
      by_cases hk : (h w).rwSet.key = (h rw).rwSet.key
      · rw [if_pos hk]
        exact ⟨fun _ => ⟨rw, List.mem_cons_self, hr.1, hr.2, hk⟩, fun _ => rfl⟩
      · rw [if_neg hk, readScan_fst h w rest true]
        constructor
        · rintro ⟨x, hx, hxr⟩
          exact ⟨x, List.mem_cons_of_mem _ hx, hxr⟩
        · rintro ⟨x, hx, hxr⟩
          rcases List.mem_cons.mp hx with rfl | hx
          · exact absurd hxr.2.2 hk
          · exact ⟨x, hx, hxr⟩
    · rw [if_neg hr, readScan_fst h w rest b]
      constructor
      · rintro ⟨x, hx, hxr⟩
        exact ⟨x, List.mem_cons_of_mem _ hx, hxr⟩
      · rintro ⟨x, hx, hxr⟩
        rcases List.mem_cons.mp hx with rfl | hx
        · exact absurd ⟨hxr.1, hxr.2.1⟩ hr
        · exact ⟨x, hx, hxr⟩

/-- A scan over a transaction without reads finds neither kind. -/
theorem readScan_of_no_reads (h : Heap) (w : NodeRef) :
    ∀ (l : List NodeRef) (b : Bool), (∀ rw ∈ l, (h rw).label ≠ .r) → readScan h w l b = (false, b)
  | [], _, _ => rfl
  | rw :: rest, b, hl => by
    unfold readScan
    rw [if_neg fun hr => hl rw List.mem_cons_self hr.1]
    exact readScan_of_no_reads h w rest b fun x hx => hl x (List.mem_cons_of_mem _ hx)

/-! ## Steps that abort only some transactions -/

/-- `s'` is a frame of `s` that aborts, besides what `s` had aborted, only
transactions of nodes satisfying `P`. -/
structure AbortsWithin (P : NodeRef → Prop) (s s' : SortState) : Prop where
  frame : Frame s s'
  aborted : ∀ id, (s'.edges.findD id Edge.zero).isAborted = true →
    (s.edges.findD id Edge.zero).isAborted = true ∨ ∃ w, P w ∧ (s.heap w).transInfo.id = id

namespace AbortsWithin

variable {P Q : NodeRef → Prop} {s₁ s₂ s₃ : SortState}

theorem refl (s : SortState) : AbortsWithin P s s :=
  ⟨Frame.refl s, fun _ h => Or.inl h⟩

theorem trans (h₁₂ : AbortsWithin P s₁ s₂) (h₂₃ : AbortsWithin P s₂ s₃) : AbortsWithin P s₁ s₃ := by
  refine ⟨h₁₂.frame.trans h₂₃.frame, fun id h => ?_⟩
  rcases h₂₃.aborted id h with h | ⟨w, hw, hid⟩
  · exact h₁₂.aborted id h
  · rw [h₁₂.frame.heap.transInfo w] at hid
    exact Or.inr ⟨w, hw, hid⟩

theorem mono (hPQ : ∀ w, P w → Q w) (h : AbortsWithin P s₁ s₂) : AbortsWithin Q s₁ s₂ := by
  refine ⟨h.frame, fun id hab => ?_⟩
  rcases h.aborted id hab with h | ⟨w, hw, hid⟩
  · exact Or.inl h
  · exact Or.inr ⟨w, hPQ w hw, hid⟩

/-- A frame that leaves `cq.Edges` alone aborts nothing. -/
theorem of_edges (hf : Frame s₁ s₂) (he : s₂.edges = s₁.edges) : AbortsWithin P s₁ s₂ :=
  ⟨hf, fun _ h => Or.inl (he ▸ h)⟩

theorem abort (s : SortState) {w : NodeRef} (hw : P w) : AbortsWithin P s (s.abort w) := by
  refine ⟨frame_abort s w, fun id h => ?_⟩
  rw [findD_abort] at h
  split at h
  · rename_i hid
    exact Or.inr ⟨w, hw, hid.1.symm⟩
  · exact Or.inl h

end AbortsWithin

/-! ## The steps that never abort -/

/-- A loop whose every pass leaves `cq.Edges` alone leaves it alone. -/
theorem edges_foldl {α γ : Type} (π : γ → SortState) {f : γ → α → γ}
    (hf : ∀ a x, (π (f a x)).edges = (π a).edges) :
    ∀ (l : List α) (a : γ), (π (l.foldl f a)).edges = (π a).edges :=
  foldl_rel (R := fun a b => (π b).edges = (π a).edges) (fun _ => rfl) (fun h₁₂ h₂₃ => h₂₃.trans h₁₂) hf

theorem edges_numberFreshReads (s : SortState) : (numberFreshReads s).edges = s.edges := by
  refine edges_foldl id (fun s r => ?_) _ s
  rfl

theorem edges_scanNumberedReads (s : SortState) (tmp : List NodeRef) :
    (scanNumberedReads s tmp).1.edges = s.edges := by
  refine edges_foldl Prod.fst (fun acc tr => ?_) tmp (s, maxInt32)
  dsimp only
  split <;> rfl

theorem edges_numberWaitingReads (s : SortState) (min : Int) :
    (numberWaitingReads s min).edges = s.edges := by
  refine edges_foldl id (fun s r => ?_) _ s
  split <;> rfl

theorem edges_sortReads (s : SortState) : (sortReads s).edges = s.edges := by
  unfold sortReads
  split
  · exact edges_numberFreshReads s
  · exact (edges_numberWaitingReads _ _).trans (edges_scanNumberedReads _ _)

/-- The writer loops after `tmpWQueue` only number nodes and raise `maxWrite`:
they touch neither an abort flag nor `maxRead`. -/
structure Calm (s s' : SortState) : Prop where
  edges : s'.edges = s.edges
  maxRead : s'.queue.maxRead = s.queue.maxRead

namespace Calm

theorem refl (s : SortState) : Calm s s := ⟨rfl, rfl⟩

theorem trans {s₁ s₂ s₃ : SortState} (h₁₂ : Calm s₁ s₂) (h₂₃ : Calm s₂ s₃) : Calm s₁ s₃ :=
  ⟨h₂₃.edges.trans h₁₂.edges, h₂₃.maxRead.trans h₁₂.maxRead⟩

theorem foldl {α : Type} {f : SortState → α → SortState} (hf : ∀ s x, Calm s (f s x)) :
    ∀ (l : List α) (s : SortState), Calm s (l.foldl f s) :=
  foldl_rel refl (fun h₁₂ h₂₃ => h₁₂.trans h₂₃) hf

end Calm

theorem calm_numberWrite (s : SortState) (n : NodeRef) (v : Int) :
    Calm s ((s.renumber n v).setMaxWrite v) :=
  ⟨rfl, rfl⟩

theorem calm_numberFreshWriters (s : SortState) (keys : List Int) :
    Calm s (Unbounded.numberFreshWriters s keys) := by
  refine Calm.foldl (fun s w => ?_) _ s
  unfold Unbounded.numberFreshWriter
  split
  · exact Calm.refl s
  · split
    · exact Calm.refl s
    · exact calm_numberWrite s w _

theorem calm_raiseMaxWrite (s : SortState) (keys : List Int) : Calm s (raiseMaxWrite s keys) := by
  unfold raiseMaxWrite
  split
  · split
    · exact ⟨rfl, rfl⟩
    · exact Calm.refl s
  · exact Calm.refl s

theorem calm_renumberKeptWriters (s : SortState) (keys : List Int) (tmpWQueue2 : WriteBuckets) :
    Calm s (Unbounded.renumberKeptWriters s keys tmpWQueue2) := by
  refine Calm.foldl (fun s n => Calm.foldl (fun s wi => ?_) _ s) keys s
  unfold Unbounded.renumberKeptWriter
  split
  · exact Calm.refl s
  · exact calm_numberWrite s wi.1 _

/-! ## The queue `sortInQueue` is given -/

/-- What `sortInQueue` may assume of a queue built from a well-formed batch:
its reads are labelled `r` and share the key of its writes, no transaction
has two reads or two writes in it, the edge of a read lists only nodes of the
read's transaction, and the edge of a writer lists its transaction's read of
the queue, which carries the writer's `TransInfo`. -/
structure QueueCtx (s : SortState) : Prop where
  read_label : ∀ r ∈ s.queue.rSlice, (s.heap r).label = .r
  same_key : ∀ w ∈ s.queue.wSlice, ∀ r ∈ s.queue.rSlice, (s.heap r).rwSet.key = (s.heap w).rwSet.key
  reads_tx : (s.queue.rSlice.map NodeRef.tx).Nodup
  writes_tx : (s.queue.wSlice.map NodeRef.tx).Nodup
  edge_tx : ∀ r ∈ s.queue.rSlice, ∀ m ∈ (s.edgeOf r).set, m.tx = r.tx
  own_read : ∀ w ∈ s.queue.wSlice, ∀ r ∈ s.queue.rSlice, r.tx = w.tx →
    r ∈ (s.edgeOf w).set ∧ (s.heap r).transInfo = (s.heap w).transInfo

/-- The assumptions only read what a frame keeps. -/
theorem QueueCtx.frame {s s' : SortState} (hc : QueueCtx s) (hf : Frame s s') : QueueCtx s' := by
  refine ⟨fun r hr => ?_, fun w hw r hr => ?_, ?_, ?_, fun r hr m hm => ?_, fun w hw r hr hrw => ?_⟩
  · rw [hf.rSlice] at hr
    rw [hf.heap.label]
    exact hc.read_label r hr
  · rw [hf.wSlice] at hw
    rw [hf.rSlice] at hr
    rw [hf.heap.rwSet, hf.heap.rwSet]
    exact hc.same_key w hw r hr
  · rw [hf.rSlice]
    exact hc.reads_tx
  · rw [hf.wSlice]
    exact hc.writes_tx
  · rw [hf.rSlice] at hr
    rw [hf.edgeOf_set] at hm
    exact hc.edge_tx r hr m hm
  · rw [hf.wSlice] at hw
    rw [hf.rSlice] at hr
    rw [hf.edgeOf_set, hf.heap.transInfo, hf.heap.transInfo]
    exact hc.own_read w hw r hr hrw

/-- Two nodes with one `TransInfo` share their edge. -/
theorem edgeOf_eq_of_transInfo (s : SortState) {n m : NodeRef}
    (h : (s.heap n).transInfo = (s.heap m).transInfo) : s.edgeOf n = s.edgeOf m := by
  rw [edgeOf, edgeOf, h]

/-! ## Reads -/

/-- `sortReads` moves `maxRead` only in a queue with reads. -/
theorem maxRead_sortReads (s : SortState) :
    (sortReads s).queue.maxRead = s.queue.maxRead ∨ s.queue.rSlice ≠ [] := by
  by_cases hr : s.queue.rSlice = []
  · have ht : tmpRQueue s = [] := by simp [tmpRQueue, hr]
    left
    simp only [sortReads, if_pos ht, numberFreshReads, hr, List.foldl_nil]
  · exact Or.inr hr

theorem numberFreshReads_assigned (s : SortState) :
    ∀ r ∈ s.queue.rSlice, ((numberFreshReads s).heap r).isAssigned = true :=
  foldl_establishes (P := fun (r : NodeRef) (t : SortState) => (t.heap r).isAssigned = true)
    (fun _ _ => Heap.renumber_assigned _ _ _ _)
    (fun t r y hy => ((frame_renumber t r _).trans (frame_setMaxRead _ _)).heap.assigned y hy) _ s

theorem scanNumberedReads_assigned (s : SortState) (tmp : List NodeRef) :
    ∀ r ∈ tmp, ((scanNumberedReads s tmp).1.heap r).isAssigned = true := by
  refine foldl_establishes (P := fun (r : NodeRef) (acc : SortState × Int) => (acc.1.heap r).isAssigned = true)
    (fun acc tr => ?_) (fun acc tr y hy => ?_) tmp (s, maxInt32)
  · dsimp only
    split <;> simp [setMaxRead]
  · dsimp only
    split <;> exact (Heap.static_setAssigned acc.1.heap tr).assigned y hy

/-- The scan over the numbered reads only marks them. -/
theorem sequence_scanNumberedReads (s : SortState) (tmp : List NodeRef) (n : NodeRef) :
    ((scanNumberedReads s tmp).1.heap n).sequence = (s.heap n).sequence := by
  refine foldl_rel (R := fun a b : SortState × Int => (b.1.heap n).sequence = (a.1.heap n).sequence)
    (fun _ => rfl) (fun h₁₂ h₂₃ => h₂₃.trans h₁₂) (fun acc tr => ?_) tmp (s, maxInt32)
  dsimp only
  split <;> exact (Heap.setAssigned_static acc.1.heap tr n).2.2.2

/-- The loop over the waiting reads, started on any state: over reads of
distinct transactions whose edges stay within their transactions, it marks
every read that is unnumbered or already marked when the loop starts. The
induction is on the reads; numbering one leaves the later ones alone, since
those belong to other transactions. -/
theorem foldl_numberWaitingReads_assigned (min : Int) : ∀ (xs : List NodeRef) (t : SortState),
    (xs.map NodeRef.tx).Nodup → (∀ x ∈ xs, ∀ m ∈ (t.edgeOf x).set, m.tx = x.tx) →
    ∀ r ∈ xs, ((t.heap r).sequence = 0 ∨ (t.heap r).isAssigned = true) →
      ((xs.foldl (fun s r => if (s.heap r).sequence ≠ 0 then s else s.renumber r min) t).heap r).isAssigned = true
  | [], _, _, _, r, hr, _ => absurd hr List.not_mem_nil
  | x :: xs, t, hnd, hedge, r, hr, hpre => by
    have hframe : ∀ t', Frame t' (if (t'.heap x).sequence ≠ 0 then t' else t'.renumber x min) := by
      intro t'
      split
      · exact Frame.refl t'
      · exact frame_renumber t' x min
    rw [List.map_cons, List.nodup_cons] at hnd
    rw [List.foldl_cons]
    rcases List.mem_cons.mp hr with rfl | hr
    · -- the read of this pass: it is numbered now, or it was marked before
      have h₁ : ((if (t.heap r).sequence ≠ 0 then t else t.renumber r min).heap r).isAssigned = true := by
        split
        · rename_i h0
          exact hpre.resolve_left h0
        · exact Heap.renumber_assigned _ _ _ _
      refine (Frame.foldl id (fun s y => ?_) xs _).heap.assigned r h₁
      split
      · exact Frame.refl s
      · exact frame_renumber s y min
    · have hne : r.tx ≠ x.tx := fun h => hnd.1 (h ▸ List.mem_map_of_mem (f := NodeRef.tx) hr)
      have hkeep : (if (t.heap x).sequence ≠ 0 then t else t.renumber x min).heap r = t.heap r := by
        split
        · rfl
        · exact Heap.renumber_of_ne _ _ (fun h => hne (h ▸ rfl))
            (fun hm => hne (hedge x List.mem_cons_self r hm))
      refine foldl_numberWaitingReads_assigned min xs _ hnd.2 (fun y hy m hm => ?_) r hr (hkeep ▸ hpre)
      rw [(hframe t).edgeOf_set] at hm
      exact hedge y (List.mem_cons_of_mem _ hy) m hm

/-- After `sortReads` every read of a live transaction is marked assigned. -/
theorem sortReads_assigned {s : SortState} (hc : QueueCtx s) :
    ∀ r ∈ s.queue.rSlice, (s.edgeOf r).isAborted = false →
      ((sortReads s).heap r).isAssigned = true := by
  intro r hr hab
  unfold sortReads
  split
  · exact numberFreshReads_assigned s r hr
  · have hf := frame_scanNumberedReads s (tmpRQueue s)
    have hseq := sequence_scanNumberedReads s (tmpRQueue s) r
    have hass := scanNumberedReads_assigned s (tmpRQueue s)
    generalize scanNumberedReads s (tmpRQueue s) = p at hf hseq hass ⊢
    obtain ⟨t, min⟩ := p
    have hr' : r ∈ t.queue.rSlice := hf.rSlice ▸ hr
    refine foldl_numberWaitingReads_assigned min _ t (hf.rSlice ▸ hc.reads_tx)
      (fun x hx m hm => ?_) r hr' ?_
    · rw [hf.rSlice] at hx
      rw [hf.edgeOf_set] at hm
      exact hc.edge_tx x hx m hm
    · by_cases h0 : (s.heap r).sequence = 0
      · exact Or.inl (hseq.trans h0)
      · exact Or.inr (hass r (List.mem_filter.mpr ⟨hr, by simp [h0, hab]⟩))

/-! ## Writes -/

/-- A writer of the queue that another transaction reads there. -/
def ReadByOther (t : SortState) (w : NodeRef) : Prop :=
  w ∈ t.queue.wSlice ∧ ∃ r ∈ t.queue.rSlice, r.tx ≠ w.tx

/-- The loop over the writes, started from `t₀`, after some passes: it has
raised abort flags only, for writers that another transaction reads, and
`tmpWQueue` holds writes numbered from 1 up to `maxRead`. -/
structure WriteScan (t₀ : SortState) (acc : SortState × List NodeRef × WriteBuckets) : Prop where
  heap : acc.1.heap = t₀.heap
  queue : acc.1.queue = t₀.queue
  aborts : AbortsWithin (ReadByOther t₀) t₀ acc.1
  tmp : ∀ w ∈ acc.2.1, 0 < (t₀.heap w).sequence ∧ (t₀.heap w).sequence ≤ t₀.queue.maxRead

theorem WriteScan.start (t₀ : SortState) : WriteScan t₀ (t₀, [], GoMap.empty) :=
  ⟨rfl, rfl, AbortsWithin.refl t₀, fun _ h => absurd h List.not_mem_nil⟩

section WriteLoop

variable {t₀ : SortState} (hc : QueueCtx t₀)
  (hass : ∀ r ∈ t₀.queue.rSlice, (t₀.edgeOf r).isAborted = false → (t₀.heap r).isAssigned = true)
  (hmax : 0 < t₀.queue.maxRead → t₀.queue.rSlice ≠ []) (hnn : ∀ n, 0 ≤ (t₀.heap n).sequence)

include hc hass hmax hnn

/-- The `isBefore` site aborts a writer that another transaction reads: the
writer is numbered at most `maxRead`, so the queue has a read, and that read
is not the writer's own, which would be marked and would have been found. -/
theorem readByOther_of_not_same {s : SortState} (hh : s.heap = t₀.heap) (hq : s.queue = t₀.queue)
    (hf : Frame t₀ s) {w : NodeRef} (hw : w ∈ t₀.queue.wSlice) (h0 : (s.heap w).sequence ≠ 0)
    (hab : ¬ (s.edgeOf w).isAborted = true) (hle : (s.heap w).sequence ≤ s.queue.maxRead)
    (hsame : ¬ (readScan s.heap w (s.edgeOf w).set false).1 = true) : ReadByOther t₀ w := by
  have hpos : 0 ≤ (s.heap w).sequence := by
    rw [hh]
    exact hnn w
  obtain ⟨r, hr⟩ := List.exists_mem_of_ne_nil _ (hmax (by rw [← hq]; omega))
  refine ⟨hw, r, hr, fun hrw => hsame ?_⟩
  obtain ⟨hmem, hinfo⟩ := hc.own_read w hw r hr hrw
  have hlive : (t₀.edgeOf r).isAborted = false := by
    by_contra hr'
    have hrw : s.edgeOf r = s.edgeOf w := edgeOf_eq_of_transInfo s (by rw [hh]; exact hinfo)
    exact hab (hrw ▸ hf.edgeOf_aborted (Bool.not_eq_false _ ▸ hr'))
  refine (readScan_fst _ _ _ _).mpr ⟨r, by rw [hf.edgeOf_set]; exact hmem, ?_, ?_, ?_⟩
  · rw [hh]
    exact hc.read_label r hr
  · rw [hh]
    exact hass r hr hlive
  · rw [hh]
    exact (hc.same_key w hw r hr).symm

/-- One pass of the loop over the writes keeps `WriteScan`. -/
theorem WriteScan.step {acc : SortState × List NodeRef × WriteBuckets} (hI : WriteScan t₀ acc)
    {w : NodeRef} (hw : w ∈ t₀.queue.wSlice) : WriteScan t₀ (checkWrite acc w) := by
  obtain ⟨s, tmpWQueue, tmpWQueue2⟩ := acc
  obtain ⟨hh, hq, hab, htmp⟩ := hI
  dsimp only at hh hq hab htmp
  unfold checkWrite
  dsimp only
  split_ifs with h0 habw hle hsame hbefore
  · exact ⟨hh, hq, hab, htmp⟩
  · exact ⟨hh, hq, hab, htmp⟩
  · -- `isSame`: the writer joins `tmpWQueue`
    refine ⟨hh, hq, hab, fun x hx => ?_⟩
    rcases List.mem_append.mp hx with hx | hx
    · exact htmp x hx
    · obtain rfl := List.mem_singleton.mp hx
      have hpos : 0 ≤ (s.heap x).sequence := by
        rw [hh]
        exact hnn x
      rw [← hh, ← hq]
      exact ⟨lt_of_le_of_ne hpos (Ne.symm h0), hle⟩
  · -- `isBefore`: the abort
    exact ⟨hh, hq, hab.trans (AbortsWithin.abort s
      (readByOther_of_not_same hc hass hmax hnn hh hq hab.frame hw h0 habw hle hsame)), htmp⟩
  · exact ⟨hh, hq, hab, htmp⟩
  · exact ⟨hh, hq, hab, htmp⟩

theorem WriteScan.foldl (l : List NodeRef) (hl : ∀ w ∈ l, w ∈ t₀.queue.wSlice) :
    ∀ acc, WriteScan t₀ acc → WriteScan t₀ (l.foldl checkWrite acc) :=
  foldl_invariant l fun _ w hw hI => hI.step hc hass hmax hnn (hl w hw)

end WriteLoop

/-- The loop over the writes only appends to `tmpWQueue`, each write at most once. -/
theorem tmp_foldl_checkWrite : ∀ (l : List NodeRef) (acc : SortState × List NodeRef × WriteBuckets),
    ∃ t, (l.foldl checkWrite acc).2.1 = acc.2.1 ++ t ∧ t.Sublist l
  | [], acc => ⟨[], by simp, List.Sublist.slnil⟩
  | w :: l, acc => by
    obtain ⟨t, ht, hsub⟩ := tmp_foldl_checkWrite l (checkWrite acc w)
    have hpass : (checkWrite acc w).2.1 = acc.2.1 ∨ (checkWrite acc w).2.1 = acc.2.1 ++ [w] := by
      obtain ⟨s, tmpWQueue, tmpWQueue2⟩ := acc
      unfold checkWrite
      dsimp only
      split_ifs <;> simp
    rw [List.foldl_cons, ht]
    rcases hpass with h | h
    · exact ⟨t, by rw [h], hsub.cons w⟩
    · exact ⟨w :: t, by rw [h, List.append_assoc, List.singleton_append], hsub.cons_cons w⟩

/-- The loop over `tmpWQueue` aborts only the writers after the first. -/
theorem numberSameKeyWriters_aborts (s : SortState) :
    ∀ tmpWQueue : List NodeRef,
      AbortsWithin (fun w => w ∈ tmpWQueue.tail) s (Unbounded.numberSameKeyWriters s tmpWQueue)
  | [] => AbortsWithin.refl s
  | w :: rest =>
    (AbortsWithin.of_edges (((frame_renumber s w _).trans (frame_setMaxWrite _ _)).trans
      (frame_setMaxRead _ _)) rfl).trans
      (foldl_rel_of_mem AbortsWithin.refl (fun h₁₂ h₂₃ => h₁₂.trans h₂₃) rest
        (fun t _ hx => AbortsWithin.abort t hx) _)

theorem maxRead_numberSameKeyWriters (s : SortState) :
    ∀ tmpWQueue : List NodeRef,
      (Unbounded.numberSameKeyWriters s tmpWQueue).queue.maxRead = s.queue.maxRead ∨ tmpWQueue ≠ []
  | [] => Or.inl rfl
  | _ :: _ => Or.inr (List.cons_ne_nil _ _)

/-- A later member of a list of writes of distinct transactions has another
transaction's write before it. -/
theorem exists_tx_ne_of_mem_tail {l : List NodeRef} (hnd : (l.map NodeRef.tx).Nodup) {w : NodeRef}
    (hw : w ∈ l.tail) : ∃ w' ∈ l, w'.tx ≠ w.tx := by
  cases l with
  | nil => exact absurd hw List.not_mem_nil
  | cons a rest =>
    refine ⟨a, List.mem_cons_self, fun h => ?_⟩
    rw [List.map_cons, List.nodup_cons] at hnd
    exact hnd.1 (h ▸ List.mem_map_of_mem (f := NodeRef.tx) hw)

/-! ## The whole of `sortInQueue` -/

/-- The transactions `sortInQueue` may abort: writers of the queue's key whose
key another transaction reads or writes in the queue. -/
def ConflictingWriter (s : SortState) (w : NodeRef) : Prop :=
  w ∈ s.queue.wSlice ∧ ((∃ r ∈ s.queue.rSlice, r.tx ≠ w.tx) ∨ ∃ w' ∈ s.queue.wSlice, w'.tx ≠ w.tx)

/-- `sortInQueue` aborts only conflicting writers, and a queue without reads
keeps `maxRead` at zero. -/
theorem sortInQueue_aborts {s : SortState} (hc : QueueCtx s)
    (hmax : 0 < s.queue.maxRead → s.queue.rSlice ≠ []) (hnn : Nonneg s) :
    AbortsWithin (ConflictingWriter s) s (Unbounded.sortInQueue s) ∧
      (0 < (Unbounded.sortInQueue s).queue.maxRead → s.queue.rSlice ≠ []) := by
  -- the reads
  have hf₀ := frame_sortReads s
  have he₀ := edges_sortReads s
  have hass₀ : ∀ r ∈ (sortReads s).queue.rSlice, ((sortReads s).edgeOf r).isAborted = false →
      ((sortReads s).heap r).isAssigned = true := by
    intro r hr hab
    rw [hf₀.rSlice] at hr
    rw [edgeOf, he₀, hf₀.heap.transInfo] at hab
    exact sortReads_assigned hc r hr hab
  have hmax₀ : 0 < (sortReads s).queue.maxRead → (sortReads s).queue.rSlice ≠ [] := by
    intro hpos
    rw [hf₀.rSlice]
    rcases maxRead_sortReads s with h | h
    · exact hmax (h ▸ hpos)
    · exact h
  -- the loop over the writes
  have hscan := WriteScan.foldl (hc.frame hf₀) hass₀ hmax₀ (nonneg_sortReads hnn).sequence _ (fun _ h => h) _ (WriteScan.start _)
  obtain ⟨tmp, htmp, hsub⟩ := tmp_foldl_checkWrite (sortReads s).queue.wSlice (sortReads s, [], GoMap.empty)
  unfold Unbounded.sortInQueue
  dsimp only
  generalize (sortReads s).queue.wSlice.foldl checkWrite (sortReads s, [], GoMap.empty) = acc at hscan htmp
  obtain ⟨t₁, tmpWQueue, tmpWQueue2⟩ := acc
  obtain rfl : tmpWQueue = tmp := by simpa using htmp
  dsimp only at hscan ⊢
  have hnd : (tmpWQueue.map NodeRef.tx).Nodup :=
    ((hsub.map NodeRef.tx).nodup ((hc.frame hf₀).writes_tx))
  -- the loops after it
  set t₂ := t₁.setMaxWrite (if t₁.queue.maxRead = 0 then initialSequence - 1 else t₁.queue.maxRead)
  set t₃ := Unbounded.numberSameKeyWriters t₂ tmpWQueue
  set keys := sortInts tmpWQueue2.keys
  have hcalm := ((calm_numberFreshWriters t₃ keys).trans (calm_raiseMaxWrite _ keys)).trans
    (calm_renumberKeptWriters _ keys tmpWQueue2)
  have hframe := ((frame_numberFreshWriters t₃ keys).trans (frame_raiseMaxWrite _ keys)).trans
    (frame_renumberKeptWriters _ keys tmpWQueue2)
  constructor
  · have h₁ : AbortsWithin (ConflictingWriter s) (sortReads s) t₁ := by
      refine hscan.aborts.mono fun w hread => ?_
      obtain ⟨hw, r, hr, hrw⟩ := hread
      rw [hf₀.wSlice] at hw
      rw [hf₀.rSlice] at hr
      exact ⟨hw, Or.inl ⟨r, hr, hrw⟩⟩
    have h₃ : AbortsWithin (ConflictingWriter s) t₂ t₃ := by
      refine (numberSameKeyWriters_aborts t₂ tmpWQueue).mono fun w hw => ?_
      have hmem : ∀ x ∈ tmpWQueue, x ∈ s.queue.wSlice := fun x hx => hf₀.wSlice ▸ hsub.subset hx
      obtain ⟨w', hw', hne⟩ := exists_tx_ne_of_mem_tail hnd hw
      exact ⟨hmem w (List.mem_of_mem_tail hw), Or.inr ⟨w', hmem w' hw', hne⟩⟩
    have h₂ : AbortsWithin (ConflictingWriter s) t₁ t₂ :=
      AbortsWithin.of_edges (frame_setMaxWrite _ _) rfl
    exact ((((AbortsWithin.of_edges hf₀ he₀).trans h₁).trans h₂).trans h₃).trans
      (AbortsWithin.of_edges hframe hcalm.edges)
  · intro hpos
    rw [hcalm.maxRead] at hpos
    -- a positive `maxRead` goes back to the one the reads left
    have hpos₀ : 0 < (sortReads s).queue.maxRead := by
      rcases maxRead_numberSameKeyWriters t₂ tmpWQueue with h | h
      · rw [h] at hpos
        rw [← hscan.queue]
        exact hpos
      · obtain ⟨w, hw⟩ := List.exists_mem_of_ne_nil _ h
        exact lt_of_lt_of_le (hscan.tmp w hw).1 (hscan.tmp w hw).2
    rw [← hf₀.rSlice]
    exact hmax₀ hpos₀

end SortState

end Nezha
