import Nezha.Models.ConflictQueue.Numbering

/-!
# Sequence numbers stay in `int32` range

Every numbering site of `sortInQueue` writes a number at most one above the
largest number, `maxRead` and `maxWrite` present: the first same-key writer and
the kept writers take `maxWrite + 1`, and the free-slot search, which skips
only numbers the queue's writes already hold, stops at most one above both
`maxWrite` and those. A site fires at most once per write of the queue: the
loop over the numbered writes files each of them in `tmpWQueue` or a bucket at
most once, and the loop over the unnumbered writes numbers only writes that
were unnumbered then. Sorting a queue of `w` writes therefore raises the bound
by at most `w`.

`DeSS` sorts each queue once, so on a batch of `N` nodes every number, and
every queue's `maxRead` and `maxWrite`, stays within `initialSequence + N` at
every pass of its loop, and none is negative. Below `math.MaxInt32` this
keeps every `int32` increment of `sortInQueue` in range, and the free-slot
search always finds a number. All of this is over the unbounded loops;
`ConflictQueue.Int32` carries it over to the code.
-/

namespace Nezha

/-- The parts into which a map cuts a list, over a duplicate-free list of
values, add up to at most the whole list. -/
theorem sum_length_filter_le {α β : Type} [DecidableEq β] (g : α → β) {K : List β} (hK : K.Nodup) :
    ∀ L : List α, (K.map fun k => (L.filter fun x => g x = k).length).sum ≤ L.length
  | [] => by simp
  | x :: L => by
    have ih := sum_length_filter_le g hK L
    have hcount : K.count (g x) ≤ 1 := List.nodup_iff_count_le_one.mp hK (g x)
    rw [map_length_filter_cons, List.sum_map_add, sum_map_ite_eq_count, List.length_cons]
    omega

/-- One for a node without a number: what a pass that may number it costs. -/
def Heap.unnumbered (h : Heap) (n : NodeRef) : Nat := if (h n).sequence = 0 then 1 else 0

theorem Heap.unnumbered_le_one (h : Heap) (n : NodeRef) : h.unnumbered n ≤ 1 := by
  unfold Heap.unnumbered
  split <;> omega

/-- Over a list, the unnumbered nodes and the numbered ones make up the whole list. -/
theorem Heap.sum_unnumbered_add (h : Heap) (l : List NodeRef) :
    (l.map h.unnumbered).sum + (l.map fun n => 1 - h.unnumbered n).sum = l.length := by
  rw [← List.sum_map_add]
  have hone : ∀ n ∈ l, h.unnumbered n + (1 - h.unnumbered n) = 1 := fun n _ => by
    have := h.unnumbered_le_one n
    omega
  rw [List.map_congr_left hone]
  simp

namespace SortState

/-- Every number of the heap, and the queue's `maxRead` and `maxWrite`, at most `B`. -/
structure Bounded (B : Nat) (s : SortState) : Prop where
  sequence_le : ∀ n, (s.heap n).sequence ≤ B
  maxRead_le : s.queue.maxRead ≤ B
  maxWrite_le : s.queue.maxWrite ≤ B

namespace Bounded

variable {B : Nat} {s : SortState}

theorem mono (hI : Bounded B s) {B' : Nat} (hB : B ≤ B') : Bounded B' s :=
  have hB' : (B : Int) ≤ B' := Int.ofNat_le.mpr hB
  ⟨fun n => (hI.sequence_le n).trans hB', hI.maxRead_le.trans hB', hI.maxWrite_le.trans hB'⟩

/-- A numbering site writing a number within the bound. -/
theorem renumber (hI : Bounded B s) (n : NodeRef) {v : Int} (hv : v ≤ B) : Bounded B (s.renumber n v) := by
  refine ⟨fun q => ?_, hI.maxRead_le, hI.maxWrite_le⟩
  show (s.heap.renumber n v (s.edgeOf n).set q).sequence ≤ B
  rcases Heap.renumber_sequence_cases s.heap n v (s.edgeOf n).set q with h | h
  · rw [h]
    exact hv
  · rw [h]
    exact hI.sequence_le q

theorem setMaxRead (hI : Bounded B s) {v : Int} (hv : v ≤ B) : Bounded B (s.setMaxRead v) :=
  ⟨hI.sequence_le, hv, hI.maxWrite_le⟩

theorem setMaxWrite (hI : Bounded B s) {v : Int} (hv : v ≤ B) : Bounded B (s.setMaxWrite v) :=
  ⟨hI.sequence_le, hI.maxRead_le, hv⟩

theorem abort (hI : Bounded B s) (n : NodeRef) : Bounded B (s.abort n) :=
  ⟨hI.sequence_le, hI.maxRead_le, hI.maxWrite_le⟩

end Bounded

/-! ## Reads -/

theorem bounded_scanNumberedReads {B : Nat} {s : SortState} (hI : Bounded B s) (tmp : List NodeRef) :
    Bounded B (scanNumberedReads s tmp).1 := by
  refine foldl_invariant (P := fun acc : SortState × Int => Bounded B acc.1) tmp
    (fun acc tr _ hA => ?_) (s, maxInt32) hI
  -- marking a read keeps every number
  have hA' : Bounded B { acc.1 with heap := acc.1.heap.setAssigned tr } := by
    refine ⟨fun n => ?_, hA.maxRead_le, hA.maxWrite_le⟩
    show (acc.1.heap.setAssigned tr n).sequence ≤ B
    rw [(Heap.setAssigned_static acc.1.heap tr n).2.2.2]
    exact hA.sequence_le n
  dsimp only
  split
  · exact hA'.setMaxRead (hA'.sequence_le tr)
  · exact hA'

/-- `sortReads` writes `initialSequence`, or the least number of a numbered read. -/
theorem bounded_sortReads {B : Nat} {s : SortState} (hI : Bounded B s) (hB : initialSequence ≤ (B : Int)) :
    Bounded B (sortReads s) := by
  unfold sortReads
  split
  · refine foldl_invariant _ (fun t r _ ht => ?_) s hI
    have h₁ := ht.renumber r hB
    exact h₁.setMaxRead (h₁.sequence_le r)
  · rename_i htmp
    obtain ⟨t₀, ht₀⟩ := List.exists_mem_of_ne_nil _ htmp
    have hmin := scanNumberedReads_le s (tmpRQueue s) t₀ ht₀
    have hscan := bounded_scanNumberedReads hI (tmpRQueue s)
    generalize scanNumberedReads s (tmpRQueue s) = p at hmin hscan
    obtain ⟨t, min⟩ := p
    refine foldl_invariant _ (fun t' r _ ht' => ?_) t hscan
    split
    · exact ht'
    · exact ht'.renumber r (hmin.trans (hI.sequence_le t₀))

/-! ## Writes -/

/-- A pass over a write files it in `tmpWQueue` or a bucket only if it is numbered. -/
theorem filed_checkWrite (acc : SortState × List NodeRef × WriteBuckets) (w : NodeRef) :
    (checkWrite acc w).2.1.length + WriteBuckets.size (checkWrite acc w).2.2 ≤
      acc.2.1.length + WriteBuckets.size acc.2.2 + (1 - acc.1.heap.unnumbered w) := by
  obtain ⟨s, tmpWQueue, tmpWQueue2⟩ := acc
  unfold checkWrite Heap.unnumbered
  dsimp only
  split_ifs <;> simp [WriteBuckets.size_push] <;> omega

/-- The loop over the numbered writes files at most its numbered writes. -/
theorem filed_foldl_checkWrite : ∀ (l : List NodeRef) (acc : SortState × List NodeRef × WriteBuckets),
    (l.foldl checkWrite acc).2.1.length + WriteBuckets.size (l.foldl checkWrite acc).2.2 ≤
      acc.2.1.length + WriteBuckets.size acc.2.2 + (l.map fun w => 1 - acc.1.heap.unnumbered w).sum
  | [], acc => by simp
  | w :: l, acc => by
    have ih := filed_foldl_checkWrite l (checkWrite acc w)
    have hstep := filed_checkWrite acc w
    have hheap : (checkWrite acc w).1.heap = acc.1.heap := (heap_foldl_checkWrite [w] acc).1
    rw [hheap] at ih
    rw [List.foldl_cons, List.map_cons, List.sum_cons]
    omega

theorem bounded_numberSameKeyWriters {B : Nat} {t : SortState} (hI : Bounded B t) :
    ∀ tmpWQueue : List NodeRef, Bounded (B + tmpWQueue.length) (Unbounded.numberSameKeyWriters t tmpWQueue)
  | [] => hI.mono (Nat.le_add_right _ _)
  | w :: rest => by
    have hv : t.queue.maxWrite + 1 ≤ ((B + (w :: rest).length : Nat) : Int) := by
      have := hI.maxWrite_le
      simp only [List.length_cons]
      omega
    have h₁ := (((hI.mono (Nat.le_add_right B (w :: rest).length)).renumber w hv).setMaxWrite hv).setMaxRead hv
    -- the later writers are only aborted
    exact foldl_invariant rest (fun t' x _ ht => ht.abort x) _ h₁

/-- A pass of the loop over the unnumbered writes, with the kept numbers at most
`K ≤ B`: it writes a number at most one above the bound, and only when its
write is unnumbered; with room below `math.MaxInt32` it leaves the write numbered. -/
theorem Bounded.numberFreshWriter {keys : List Int} {K : Int} {B : Nat} (hK : ∀ k ∈ keys, k ≤ K)
    (hKB : K ≤ B) {t : SortState} (hI : Bounded B t) (ht : Nonneg t) (w : NodeRef) :
    Bounded (B + t.heap.unnumbered w) (Unbounded.numberFreshWriter keys t w) ∧
      ((B : Int) + 1 < maxInt32 → ((Unbounded.numberFreshWriter keys t w).heap w).sequence ≠ 0) := by
  unfold Unbounded.numberFreshWriter
  split
  · rename_i h0
    rw [Heap.unnumbered, if_neg h0, Nat.add_zero]
    exact ⟨hI, fun _ => h0⟩
  · rename_i h0
    rw [Heap.unnumbered, if_pos (not_not.mp h0)]
    have hmw := hI.maxWrite_le
    split
    · -- with room the search finds a number, so it finds none only without room
      rename_i hnone
      refine ⟨hI.mono (Nat.le_succ B), fun hroom => ?_⟩
      obtain ⟨j, hj⟩ := freeSlot_isSome hK (maxInt32 - (t.queue.maxWrite + 1)).toNat
        (t.queue.maxWrite + 1) (by omega)
      rw [hj] at hnone
      exact absurd hnone (Option.some_ne_none j)
    · rename_i j hj
      have hjB : j ≤ ((B + 1 : Nat) : Int) := by
        have := freeSlot_le hK hj
        omega
      refine ⟨((hI.mono (Nat.le_succ B)).renumber w hjB).setMaxWrite hjB, fun _ => ?_⟩
      show ((t.renumber w j).heap w).sequence ≠ 0
      rw [sequence_renumber_self]
      have := freeSlot_ge hj
      have := ht.maxWrite
      omega

/-- The loop over the unnumbered writes, from any state that keeps the numbers
of `t₀`: it costs one per write unnumbered in `t₀`, and with room below
`math.MaxInt32` it leaves every write it passes numbered. -/
theorem bounded_foldl_numberFreshWriter {keys : List Int} {K : Int} (hK : ∀ k ∈ keys, k ≤ K) (t₀ : SortState) :
    ∀ (l : List NodeRef) (t : SortState) (B : Nat), K ≤ B → Bounded B t → Nonneg t → Keeps t₀ t →
      Bounded (B + (l.map t₀.heap.unnumbered).sum) (l.foldl (Unbounded.numberFreshWriter keys) t) ∧
        Keeps t₀ (l.foldl (Unbounded.numberFreshWriter keys) t) ∧
        (((B + (l.map t₀.heap.unnumbered).sum : Nat) : Int) < maxInt32 →
          ∀ w ∈ l, ((l.foldl (Unbounded.numberFreshWriter keys) t).heap w).sequence ≠ 0)
  | [], t, B, _, hI, _, hk => ⟨by simpa using hI, hk, fun _ w hw => absurd hw List.not_mem_nil⟩
  | w :: l, t, B, hKB, hI, ht, hk => by
    -- a write unnumbered in `t` was unnumbered in `t₀` already
    have hcharge : t.heap.unnumbered w ≤ t₀.heap.unnumbered w := by
      unfold Heap.unnumbered
      by_cases h0 : (t₀.heap w).sequence = 0
      · rw [if_pos h0]
        split <;> omega
      · rw [if_neg h0, if_neg (hk w h0)]
    obtain ⟨hB₁, hnum₁⟩ := hI.numberFreshWriter hK hKB ht w
    obtain ⟨ih₁, ih₂, ih₃⟩ := bounded_foldl_numberFreshWriter hK t₀ l _ (B + t₀.heap.unnumbered w)
      (by omega) (hB₁.mono (by omega)) (nonneg_numberFreshWriter ht keys w)
      (hk.trans (keeps_numberFreshWriter keys ht w))
    rw [List.foldl_cons]
    simp only [List.map_cons, List.sum_cons]
    refine ⟨by simpa only [Nat.add_assoc] using ih₁, ih₂, fun hroom w' hw' => ?_⟩
    rcases List.mem_cons.mp hw' with rfl | hw'
    · -- the pass over `w` numbers it, or it was numbered; the later passes keep it
      refine (Keeps.foldl_nonneg (fun s x hs => nonneg_numberFreshWriter hs keys x)
        (fun s x hs => keeps_numberFreshWriter keys hs x) l (nonneg_numberFreshWriter ht keys w')) w' ?_
      by_cases h0 : (t.heap w').sequence = 0
      · have h₀ : t₀.heap.unnumbered w' = 1 := by
          have : t.heap.unnumbered w' = 1 := by rw [Heap.unnumbered, if_pos h0]
          have := t₀.heap.unnumbered_le_one w'
          omega
        exact hnum₁ (by omega)
      · exact keeps_numberFreshWriter keys ht w' w' h0
    · exact ih₃ (by omega) w' hw'

theorem Bounded.raiseMaxWrite {B : Nat} {t : SortState} (hI : Bounded B t) {keys : List Int}
    (hK : ∀ k ∈ keys, k ≤ B) : Bounded B (raiseMaxWrite t keys) := by
  unfold Nezha.raiseMaxWrite
  split
  · rename_i maxSeq hlast
    split
    · exact hI.setMaxWrite (hK maxSeq (List.mem_of_getLast? hlast))
    · exact hI
  · exact hI

/-- The loop over the kept writes costs one per write the buckets hold. -/
theorem Bounded.renumberKeptWriters {B : Nat} {t : SortState} (hI : Bounded B t) (keys : List Int)
    (tmpWQueue2 : WriteBuckets) :
    Bounded (B + (keys.map fun n => (tmpWQueue2.findD n []).length).sum)
      (Unbounded.renumberKeptWriters t keys tmpWQueue2) := by
  rw [Unbounded.renumberKeptWriters_eq]
  refine foldl_graded (I := Bounded) (fun n => (tmpWQueue2.findD n []).length) keys
    (fun t n _ B ht => ?_) t B hI
  rw [show (tmpWQueue2.findD n []).length = ((tmpWQueue2.findD n []).zipIdx.map fun _ => 1).sum by simp]
  refine foldl_graded (I := Bounded) (fun _ => 1) _ (fun t wi _ B ht => ?_) t B ht
  unfold Unbounded.renumberKeptWriter
  split
  · exact ht.mono (Nat.le_succ B)
  · have hv : t.queue.maxWrite + 1 ≤ ((B + 1 : Nat) : Int) := by
      have := ht.maxWrite_le
      omega
    exact ((ht.mono (Nat.le_succ B)).renumber wi.1 hv).setMaxWrite hv

/-- Sorting a queue of `w` writes raises the bound by at most `w`, and with room
below `math.MaxInt32` leaves every node of the queue numbered. -/
theorem sortInQueue_bounded {B : Nat} {s : SortState} (hI : Bounded B s) (hs : Nonneg s)
    (hB : initialSequence ≤ (B : Int)) :
    Bounded (B + s.queue.wSlice.length) (Unbounded.sortInQueue s) ∧
      (((B + s.queue.wSlice.length : Nat) : Int) < maxInt32 →
        ∀ n ∈ s.queue.rSlice ++ s.queue.wSlice, ((Unbounded.sortInQueue s).heap n).sequence ≠ 0) := by
  have h₁ := bounded_sortReads hI hB
  have hn₁ := nonneg_sortReads hs
  have hf₁ := frame_sortReads s
  have hfold := heap_foldl_checkWrite (sortReads s).queue.wSlice (sortReads s, [], GoMap.empty)
  have hbuckets := buckets_foldl_checkWrite (sortReads s).queue.wSlice (sortReads s, [], GoMap.empty)
  have hfiled := filed_foldl_checkWrite (sortReads s).queue.wSlice (sortReads s, [], GoMap.empty)
  have hframe := Frame.foldl Prod.fst frame_checkWrite (sortReads s).queue.wSlice (sortReads s, [], GoMap.empty)
  unfold Unbounded.sortInQueue
  dsimp only
  generalize (sortReads s).queue.wSlice.foldl checkWrite (sortReads s, [], GoMap.empty) = acc
    at hfold hbuckets hfiled hframe
  obtain ⟨t₁, tmpWQueue, tmpWQueue2⟩ := acc
  obtain ⟨-, hkeys, -⟩ := hbuckets
  dsimp only at hfold hkeys hfiled hframe ⊢
  have hwS : (sortReads s).queue.wSlice = s.queue.wSlice := hf₁.wSlice
  rw [hwS, ← hfold.1] at hfiled
  have hB₁ : Bounded B t₁ := by
    refine ⟨fun n => ?_, ?_, ?_⟩
    · rw [hfold.1]
      exact h₁.sequence_le n
    · rw [hfold.2]
      exact h₁.maxRead_le
    · rw [hfold.2]
      exact h₁.maxWrite_le
  have hN₁ : Nonneg t₁ := ⟨fun n => hfold.1 ▸ hn₁.sequence n, hfold.2 ▸ hn₁.maxRead, hfold.2 ▸ hn₁.maxWrite⟩
  -- the kept numbers are numbers of writes, so within `B`
  have hkeysB : ∀ k ∈ sortInts tmpWQueue2.keys, k ≤ (B : Int) := by
    intro k hk
    rcases hkeys k ((sortInts_perm _).subset hk) with h | ⟨w, -, hwk, -⟩
    · exact absurd h List.not_mem_nil
    · rw [← hwk]
      exact h₁.sequence_le w
  -- `maxWrite` starts at `maxRead`, or just below `initialSequence`
  set t₂ := t₁.setMaxWrite (if t₁.queue.maxRead = 0 then initialSequence - 1 else t₁.queue.maxRead)
  have hB₂ : Bounded B t₂ := by
    refine hB₁.setMaxWrite ?_
    split
    · omega
    · exact hB₁.maxRead_le
  have hN₂ : Nonneg t₂ := hN₁.setMaxWrite (by split <;> simp [initialSequence, hN₁.maxRead])
  have hB₃ := bounded_numberSameKeyWriters hB₂ tmpWQueue
  have hN₃ := nonneg_numberSameKeyWriters hN₂ tmpWQueue
  have hk₃ : Keeps t₁ (Unbounded.numberSameKeyWriters t₂ tmpWQueue) :=
    (show Keeps t₁ t₂ from fun _ hn => hn).trans (keeps_numberSameKeyWriters hN₂ tmpWQueue)
  have hw₃ : (Unbounded.numberSameKeyWriters t₂ tmpWQueue).queue.wSlice = s.queue.wSlice :=
    ((((hf₁.trans hframe).trans (frame_setMaxWrite _ _)).trans (frame_numberSameKeyWriters _ tmpWQueue))).wSlice
  -- the unnumbered writes cost one each, the kept ones one each
  obtain ⟨hB₄, hk₄, hnum₄⟩ := bounded_foldl_numberFreshWriter hkeysB t₁ s.queue.wSlice _ (B + tmpWQueue.length)
    (by omega) hB₃ hN₃ hk₃
  have hN₄ := nonneg_numberFreshWriters hN₃ (sortInts tmpWQueue2.keys)
  rw [Unbounded.numberFreshWriters_eq, hw₃] at hN₄
  rw [Unbounded.numberFreshWriters_eq, hw₃]
  have hB₅ := hB₄.raiseMaxWrite fun k hk => (hkeysB k hk).trans (by omega)
  have hN₅ := nonneg_raiseMaxWrite hN₄ (sortInts tmpWQueue2.keys)
  have hB₆ := hB₅.renumberKeptWriters (sortInts tmpWQueue2.keys) tmpWQueue2
  have hkept : ((sortInts tmpWQueue2.keys).map fun n => (tmpWQueue2.findD n []).length).sum =
      WriteBuckets.size tmpWQueue2 := ((sortInts_perm _).map _).sum_eq
  have hsum := t₁.heap.sum_unnumbered_add s.queue.wSlice
  have hempty : WriteBuckets.size (GoMap.empty : WriteBuckets) = 0 := rfl
  rw [hempty] at hfiled
  simp only [List.length_nil, Nat.zero_add] at hfiled
  refine ⟨hB₆.mono (by omega), fun hroom n hn => ?_⟩
  refine keeps_renumberKeptWriters hN₅ _ _ n (keeps_raiseMaxWrite _ _ n ?_)
  rcases List.mem_append.mp hn with hr | hw'
  · -- a read: numbered by `sortReads`, and kept from there on
    have hr₁ : (t₁.heap n).sequence ≠ 0 := by
      rw [hfold.1]
      exact sortReads_numbered hs n hr
    exact hk₄ n hr₁
  · -- a write: numbered by the loop over the unnumbered writes at the latest
    exact hnum₄ (by omega) n hw'

end SortState

/-! ## The loop of `DeSS` -/

/-- A state of the loop of `DeSS`: every number, and every queue's `maxRead`
and `maxWrite`, between zero and `B`. -/
structure LoopBounded (B : Nat) (hc : Heap × QueueGraph) : Prop where
  sequence_le : ∀ n, (hc.1 n).sequence ≤ B
  maxRead_le : ∀ name, (hc.2.queues.findD name Queue.zero).maxRead ≤ B
  maxWrite_le : ∀ name, (hc.2.queues.findD name Queue.zero).maxWrite ≤ B
  nonneg : LoopNonneg hc

namespace LoopBounded

variable {B : Nat} {hc : Heap × QueueGraph}

theorem mono (hI : LoopBounded B hc) {B' : Nat} (hB : B ≤ B') : LoopBounded B' hc :=
  have hB' : (B : Int) ≤ B' := Int.ofNat_le.mpr hB
  ⟨fun n => (hI.sequence_le n).trans hB', fun name => (hI.maxRead_le name).trans hB',
    fun name => (hI.maxWrite_le name).trans hB', hI.nonneg⟩

/-- The state the loop hands to the sort of the queue `name`. -/
theorem sortState (hI : LoopBounded B hc) (name : Bytes) :
    SortState.Bounded B ⟨hc.1, hc.2.edges, hc.2.queues.findD name Queue.zero⟩ :=
  ⟨hI.sequence_le, hI.maxRead_le name, hI.maxWrite_le name⟩

/-- Sorting the queue `name` raises the bound by its number of writes, and with
room below `math.MaxInt32` numbers every node of the queue. -/
theorem step (hI : LoopBounded B hc) (hB : initialSequence ≤ (B : Int)) (name : Bytes) :
    LoopBounded (B + (hc.2.queues.findD name Queue.zero).wSlice.length) (Unbounded.sortQueueNamed hc name) ∧
      (((B + (hc.2.queues.findD name Queue.zero).wSlice.length : Nat) : Int) < maxInt32 →
        ∀ n ∈ (hc.2.queues.findD name Queue.zero).rSlice ++ (hc.2.queues.findD name Queue.zero).wSlice,
          ((Unbounded.sortQueueNamed hc name).1 n).sequence ≠ 0) := by
  obtain ⟨h, cq⟩ := hc
  obtain ⟨hb, hnum⟩ := SortState.sortInQueue_bounded (hI.sortState name) (hI.nonneg name) hB
  have hle : (B : Int) ≤ ((B + (cq.queues.findD name Queue.zero).wSlice.length : Nat) : Int) := by
    omega
  refine ⟨⟨hb.sequence_le, fun name' => ?_, fun name' => ?_, hI.nonneg.step name⟩, hnum⟩
  all_goals
    -- the written-back queue, or one left as it was
    rcases Unbounded.findD_sortQueueNamed (h, cq) name name' with ⟨hq, rfl⟩ | hq
  · rw [hq]
    exact hb.maxRead_le
  · rw [hq]
    exact (hI.maxRead_le name').trans hle
  · rw [hq]
    exact hb.maxWrite_le
  · rw [hq]
    exact (hI.maxWrite_le name').trans hle

end LoopBounded

/-- A pass of the loop of `DeSS` keeps the slices of every queue. -/
theorem slices_sortQueueNamed (hc : Heap × QueueGraph) (name name' : Bytes) :
    ((Unbounded.sortQueueNamed hc name).2.queues.findD name' Queue.zero).rSlice =
        (hc.2.queues.findD name' Queue.zero).rSlice ∧
      ((Unbounded.sortQueueNamed hc name).2.queues.findD name' Queue.zero).wSlice =
        (hc.2.queues.findD name' Queue.zero).wSlice := by
  obtain ⟨h, cq⟩ := hc
  have hf := SortState.frame_sortInQueue ⟨h, cq.edges, cq.queues.findD name Queue.zero⟩
  rcases Unbounded.findD_sortQueueNamed (h, cq) name name' with ⟨hq, rfl⟩ | hq
  · rw [hq]
    exact ⟨hf.rSlice, hf.wSlice⟩
  · rw [hq]
    exact ⟨rfl, rfl⟩

/-- The loop of `DeSS` keeps the writes of every queue. -/
theorem wSlice_foldl_sortQueueNamed (names : List Bytes) (hc : Heap × QueueGraph) (name' : Bytes) :
    ((names.foldl Unbounded.sortQueueNamed hc).2.queues.findD name' Queue.zero).wSlice =
      (hc.2.queues.findD name' Queue.zero).wSlice :=
  foldl_rel (R := fun a b : Heap × QueueGraph =>
      (b.2.queues.findD name' Queue.zero).wSlice = (a.2.queues.findD name' Queue.zero).wSlice)
    (fun _ => rfl) (fun h₁₂ h₂₃ => h₂₃.trans h₁₂) (fun a x => (slices_sortQueueNamed a x name').2) names hc

/-- A pass of the loop of `DeSS` keeps the number of writes of every queue, so
the later passes see the costs of the start. -/
theorem costs_sortQueueNamed (hc : Heap × QueueGraph) (name : Bytes) (names : List Bytes) :
    (names.map fun name' => ((Unbounded.sortQueueNamed hc name).2.queues.findD name' Queue.zero).wSlice.length) =
      names.map fun name' => (hc.2.queues.findD name' Queue.zero).wSlice.length :=
  List.map_congr_left fun name' _ => by rw [(slices_sortQueueNamed hc name name').2]

/-- The loop of `DeSS` over any list of queue names raises the bound by the
writes of the queues it sorts, and with room below `math.MaxInt32` leaves
every node of every queue it sorts numbered. -/
theorem loopBounded_foldl :
    ∀ (sequence : List Bytes) (hc : Heap × QueueGraph) (B : Nat), LoopBounded B hc →
      initialSequence ≤ (B : Int) →
      LoopBounded (B + (sequence.map fun name => (hc.2.queues.findD name Queue.zero).wSlice.length).sum)
          (sequence.foldl Unbounded.sortQueueNamed hc) ∧
        (((B + (sequence.map fun name => (hc.2.queues.findD name Queue.zero).wSlice.length).sum : Nat) : Int) <
            maxInt32 →
          ∀ name ∈ sequence, ∀ n ∈ (hc.2.queues.findD name Queue.zero).rSlice ++
            (hc.2.queues.findD name Queue.zero).wSlice,
            ((sequence.foldl Unbounded.sortQueueNamed hc).1 n).sequence ≠ 0)
  | [], hc, B, hI, _ => ⟨by simpa using hI, fun _ _ h => absurd h List.not_mem_nil⟩
  | name :: rest, hc, B, hI, hB => by
    obtain ⟨hI₁, hnum₁⟩ := hI.step hB name
    obtain ⟨hI₂, hnum₂⟩ := loopBounded_foldl rest (Unbounded.sortQueueNamed hc name) _ hI₁ (by omega)
    rw [costs_sortQueueNamed] at hI₂ hnum₂
    simp only [List.map_cons, List.sum_cons, List.foldl_cons]
    refine ⟨by simpa only [Nat.add_assoc] using hI₂, fun hroom name' hname' n hn => ?_⟩
    rcases List.mem_cons.mp hname' with rfl | hname'
    · exact sequence_foldl_sortQueueNamed_ne_zero rest hI₁.nonneg n (hnum₁ (by omega) n hn)
    · have hn' : n ∈ ((Unbounded.sortQueueNamed hc name).2.queues.findD name' Queue.zero).rSlice ++
          ((Unbounded.sortQueueNamed hc name).2.queues.findD name' Queue.zero).wSlice := by
        rwa [(slices_sortQueueNamed hc name name').1, (slices_sortQueueNamed hc name name').2]
      exact hnum₂ (by omega) name' hname' n hn'

/-! ## A batch -/

section Batch

variable {batch : List (List RWNode)}

/-- The graph `CreateGraph` returns, whenever it returns, is the graph of the batch. -/
theorem eq_ofBatch_of_createGraph {cq : QueueGraph}
    (hcq : createGraph (Heap.ofBatch batch) (batchRefs batch) = .ok cq) : cq = QueueGraph.ofBatch batch := by
  have hne : ∀ rw ∈ batchRefs batch, rw ≠ [] := by
    rintro rw hrw rfl
    rw [createGraph_error_of_nil_mem _ hrw] at hcq
    simp at hcq
  rw [createGraph_eq _ hne] at hcq
  exact (Except.ok.inj hcq).symm

/-- A batch has as many pointers as nodes. -/
theorem length_flatten_batchRefs (batch : List (List RWNode)) :
    (batchRefs batch).flatten.length = (batch.map List.length).sum := by
  rw [List.length_flatten]
  conv_rhs => rw [← map_getD_range batch]
  simp [batchRefs, Function.comp_def]

/-- The queues of a batch hold at most its nodes among their writes, over any
list of distinct queue names. -/
theorem sum_wSlice_ofBatch_le {names : List Bytes} (hnd : names.Nodup) :
    (names.map fun name => ((QueueGraph.ofBatch batch).queues.findD name Queue.zero).wSlice.length).sum ≤
      (batch.map List.length).sum := by
  calc (names.map fun name => ((QueueGraph.ofBatch batch).queues.findD name Queue.zero).wSlice.length).sum
      ≤ (names.map fun name =>
          ((batchRefs batch).flatten.filter fun n => queueName (Heap.ofBatch batch) n = name).length).sum :=
        List.sum_le_sum fun name _ => by
          rw [findD_queues_ofBatch]
          exact List.length_filter_le _ _
    _ ≤ (batchRefs batch).flatten.length := sum_length_filter_le _ hnd _
    _ = (batch.map List.length).sum := length_flatten_batchRefs batch

/-- `CreateRWNode` leaves every number and the graph every `maxRead` and `maxWrite` at zero. -/
theorem loopBounded_ofBatch (hfresh : ∀ tx ∈ batch, ∀ n ∈ tx, n.sequence = 0) :
    LoopBounded initialSequence.toNat (Heap.ofBatch batch, QueueGraph.ofBatch batch) := by
  have hzero : ∀ n, (Heap.ofBatch batch n).sequence = 0 := by
    intro n
    show (((batch[n.tx]?).bind (·[n.pos]?)).getD defaultNode).sequence = 0
    cases htx : batch[n.tx]? with
    | none => rfl
    | some tx =>
      show ((tx[n.pos]?).getD defaultNode).sequence = 0
      cases hn : tx[n.pos]? with
      | none => rfl
      | some m => exact hfresh tx (List.mem_of_getElem? htx) m (List.mem_of_getElem? hn)
  have hq : ∀ name, ((QueueGraph.ofBatch batch).queues.findD name Queue.zero).maxRead = 0 ∧
      ((QueueGraph.ofBatch batch).queues.findD name Queue.zero).maxWrite = 0 := fun name => by
    rw [findD_queues_ofBatch]
    exact ⟨rfl, rfl⟩
  refine ⟨fun n => ?_, fun name => ?_, fun name => ?_, loopNonneg_of_zero (fun n => (hzero n).symm.le) hq⟩
  · rw [hzero]
    decide
  · rw [(hq name).1]
    decide
  · rw [(hq name).2]
    decide

end Batch

/-- Over the unbounded loops, on every batch whose nodes start unnumbered, as
`CreateRWNode` builds them, with `N` nodes in all, the loop of `DeSS` over any
list of distinct queue names (`QueuesSort` returns each name once) keeps every
number, and every queue's `maxRead` and `maxWrite`, between zero and
`initialSequence + N` after each of its passes; with `initialSequence + N`
below `math.MaxInt32`, every node of every queue sorted leaves its sort
numbered: the free-slot search always finds a number. -/
theorem Unbounded.deSS_in_range {batch : List (List RWNode)}
    (hfresh : ∀ tx ∈ batch, ∀ n ∈ tx, n.sequence = 0) {cq : QueueGraph}
    (hcq : createGraph (Heap.ofBatch batch) (batchRefs batch) = .ok cq) {sequence : List Bytes}
    (hnd : sequence.Nodup) :
    (∀ k, LoopBounded (initialSequence.toNat + (batch.map List.length).sum)
      ((sequence.take k).foldl Unbounded.sortQueueNamed (Heap.ofBatch batch, cq))) ∧
    (initialSequence + (batch.map List.length).sum < maxInt32 →
      ∀ name ∈ sequence, ∀ n ∈ (cq.queues.findD name Queue.zero).rSlice ++ (cq.queues.findD name Queue.zero).wSlice,
        ((sequence.foldl Unbounded.sortQueueNamed (Heap.ofBatch batch, cq)).1 n).sequence ≠ 0) := by
  obtain rfl := eq_ofBatch_of_createGraph hcq
  have hstart := loopBounded_ofBatch hfresh
  have h10 : initialSequence ≤ ((initialSequence.toNat : Nat) : Int) := by decide
  refine ⟨fun k => ?_, fun hroom => ?_⟩
  · have hcount : ((sequence.take k).map fun name =>
        ((QueueGraph.ofBatch batch).queues.findD name Queue.zero).wSlice.length).sum ≤ (batch.map List.length).sum :=
      sum_wSlice_ofBatch_le (hnd.sublist (List.take_sublist k sequence))
    exact ((loopBounded_foldl (sequence.take k) _ _ hstart h10).1).mono (Nat.add_le_add_left hcount _)
  · have hcount : (sequence.map fun name =>
        ((QueueGraph.ofBatch batch).queues.findD name Queue.zero).wSlice.length).sum ≤ (batch.map List.length).sum :=
      sum_wSlice_ofBatch_le hnd
    refine (loopBounded_foldl sequence _ _ hstart h10).2 ?_
    have h10' : ((initialSequence.toNat : Nat) : Int) = initialSequence := by decide
    have := Int.ofNat_le.mpr hcount
    rw [Nat.cast_add, h10']
    dsimp only
    omega

end Nezha
