import Nezha.Models.ConflictQueue.DeSS
import Nezha.Models.ConflictQueue.Batch

/-!
# What the commit order promises

`TestConflictQueue` commits the write sets rank by rank, all write sets of
one rank concurrently. Three properties would make that a correct execution
of the batch: a transaction that read a key is ranked strictly before every
surviving writer of that key; no two surviving writers of a key share a rank;
and every replica computes the same ranks whatever order its Go runtime ranges
over maps in. This module states the three over the model of the whole
pipeline, and records for each a batch on which the code breaks it.
-/

namespace Nezha

/-- The rank `DeSS` files transaction `i` under: the `Sequence` of its first node. -/
def seqOf (h : Heap) (i : Nat) : Int := (h ⟨i, 0⟩).sequence

/-- Whether transaction `i` of the batch was aborted. -/
def abortedIn (batch : List (List RWNode)) (cq : QueueGraph) (i : Nat) : Bool :=
  (cq.edges.findD (txId (batch.getD i [])) Edge.zero).isAborted

/-- Read-before-write order: a surviving reader of a key is ranked strictly
before every other surviving writer of it. -/
def Serializable (batch : List (List RWNode)) (h : Heap) (cq : QueueGraph) : Prop :=
  ∀ i j k, i < batch.length → j < batch.length → i ≠ j →
    abortedIn batch cq i = false → abortedIn batch cq j = false →
    k ∈ readKeys (batch.getD i []) → k ∈ writeKeys (batch.getD j []) → seqOf h i < seqOf h j

/-- Two surviving writers of one key never share a rank. -/
def WriteRanksDistinct (batch : List (List RWNode)) (h : Heap) (cq : QueueGraph) : Prop :=
  ∀ i j k, i < batch.length → j < batch.length → i ≠ j →
    abortedIn batch cq i = false → abortedIn batch cq j = false →
    k ∈ writeKeys (batch.getD i []) → k ∈ writeKeys (batch.getD j []) → seqOf h i ≠ seqOf h j

/-- Two runs under any two schedules give every node the same `Sequence` and
every transaction the same abort flag. -/
def ScheduleIndependent (batch : List (List RWNode)) (fuel : Nat) : Prop :=
  ∀ (σ σ' : Schedule) h cq co h' cq' co',
    runNezha batch σ fuel = .ok (h, cq, co) → runNezha batch σ' fuel = .ok (h', cq', co') →
      (∀ rw ∈ batchRefs batch, ∀ n ∈ rw, (h n).sequence = (h' n).sequence) ∧
        ∀ i < batch.length, abortedIn batch cq i = abortedIn batch cq' i

/-- The ranks and abort flags of the transactions of a batch after a run. -/
def runSummary (batch : List (List RWNode)) (σ : Schedule) (fuel : Nat) :
    Except Fault (List Int × List Bool) := do
  let (h, cq, _) ← runNezha batch σ fuel
  pure ((List.range batch.length).map (seqOf h), (List.range batch.length).map (abortedIn batch cq))

theorem runSummary_of_run {batch : List (List RWNode)} {σ : Schedule} {fuel : Nat}
    {seqs : List Int} {flags : List Bool} (hs : runSummary batch σ fuel = .ok (seqs, flags)) :
    ∃ h cq co, runNezha batch σ fuel = .ok (h, cq, co) ∧
      (List.range batch.length).map (seqOf h) = seqs ∧
      (List.range batch.length).map (abortedIn batch cq) = flags := by
  unfold runSummary at hs
  cases hr : runNezha batch σ fuel with
  | error e => simp [hr] at hs
  | ok res =>
    obtain ⟨h, cq, co⟩ := res
    simp only [hr, except_ok_bind, pure, Except.pure, Except.ok.injEq, Prod.mk.injEq] at hs
    exact ⟨h, cq, co, rfl, hs.1, hs.2⟩

/-- `T` reads `q` and `k` and writes `k`; `U` reads `k` and writes `q`, as
SmallBank's `almagate(a, b)` against `almagate(b, a)`. -/
def crossedReads : List (List RWNode) :=
  [[rwNode [48] .r [0], rwNode [48] .r [1], rwNode [48] .w [1]],
   [rwNode [49] .r [1], rwNode [49] .w [0]]]

theorem crossedReads_wellformed : Wellformed crossedReads where
  built := by
    simp only [crossedReads, List.mem_cons, List.not_mem_nil, or_false]
    rintro tx (rfl | rfl)
    · exact ⟨[48], 0, [some [0], some [1]], [some [49], some [49]], [some [1]], [some [49]], rfl⟩
    · exact ⟨[49], 0, [some [1]], [some [49]], [some [0]], [some [49]], rfl⟩
  nonempty := by decide
  ids_nodup := by decide
  reads_nodup := by decide
  writes_nodup := by decide
  keys_apart := by decide

/-- On `crossedReads`, `T` ends at rank 12 and `U` at 11, neither aborted:
`U` commits its write of `q` before `T`, which read `q` from the snapshot. -/
theorem crossedReads_not_serializable :
    Wellformed crossedReads ∧ ∃ h cq co,
      runNezha crossedReads Schedule.insertion 2 = .ok (h, cq, co) ∧ ¬ Serializable crossedReads h cq := by
  refine ⟨crossedReads_wellformed, ?_⟩
  have hs : runSummary crossedReads Schedule.insertion 2 = .ok ([12, 11], [false, false]) := by
    decide
  obtain ⟨h, cq, co, hrun, hseq, hab⟩ := runSummary_of_run hs
  refine ⟨h, cq, co, hrun, fun hser => ?_⟩
  have hT : seqOf h 0 = 12 := congrArg (·.getD 0 0) hseq
  have hU : seqOf h 1 = 11 := congrArg (·.getD 1 0) hseq
  have hT' : abortedIn crossedReads cq 0 = false := congrArg (·.getD 0 true) hab
  have hU' : abortedIn crossedReads cq 1 = false := congrArg (·.getD 1 true) hab
  have hlt := hser 0 1 (some [0]) (by decide) (by decide) (by decide) hT' hU' (by decide) (by decide)
  omega

/-- `T` reads and writes `a` and writes `b`; `V` writes only `b`. -/
def sharedWrite : List (List RWNode) :=
  [[rwNode [48] .r [0], rwNode [48] .w [0], rwNode [48] .w [1]], [rwNode [49] .w [1]]]

theorem sharedWrite_wellformed : Wellformed sharedWrite where
  built := by
    simp only [sharedWrite, List.mem_cons, List.not_mem_nil, or_false]
    rintro tx (rfl | rfl)
    · exact ⟨[48], 0, [some [0]], [some [49]], [some [0], some [1]], [some [49], some [49]], rfl⟩
    · exact ⟨[49], 0, [], [], [some [1]], [some [49]], rfl⟩
  nonempty := by decide
  ids_nodup := by decide
  reads_nodup := by decide
  writes_nodup := by decide
  keys_apart := by decide

/-- On `sharedWrite` both writers of `b` end at rank 11 and survive, so their
writes of `b` are committed concurrently. -/
theorem sharedWrite_same_rank :
    Wellformed sharedWrite ∧ ∃ h cq co,
      runNezha sharedWrite Schedule.insertion 2 = .ok (h, cq, co) ∧
        ¬ WriteRanksDistinct sharedWrite h cq := by
  refine ⟨sharedWrite_wellformed, ?_⟩
  have hs : runSummary sharedWrite Schedule.insertion 2 = .ok ([11, 11], [false, false]) := by
    decide
  obtain ⟨h, cq, co, hrun, hseq, hab⟩ := runSummary_of_run hs
  refine ⟨h, cq, co, hrun, fun hd => ?_⟩
  have hT : seqOf h 0 = 11 := congrArg (·.getD 0 0) hseq
  have hV : seqOf h 1 = 11 := congrArg (·.getD 1 0) hseq
  have hT' : abortedIn sharedWrite cq 0 = false := congrArg (·.getD 0 true) hab
  have hV' : abortedIn sharedWrite cq 1 = false := congrArg (·.getD 1 true) hab
  exact hd 0 1 (some [1]) (by decide) (by decide) (by decide) hT' hV' (by decide) (by decide) (hT.trans hV.symm)

/-- The runtime ranges over every dependency set in reverse insertion order. -/
def Schedule.reversedTemp : Schedule where
  temp := fun _ l => l.reverse
  temp_perm := fun _ l => List.reverse_perm l
  edges := fun l => l
  edges_perm := fun l => List.Perm.refl l

/-- `T0` reads `b` and `c` and writes `a`; `T1` writes `c`; `T2` writes `b` and `c`. -/
def twoDependencies : List (List RWNode) :=
  [[rwNode [48] .r [0], rwNode [48] .r [2], rwNode [48] .w [1]], [rwNode [49] .w [2]],
   [rwNode [50] .w [0], rwNode [50] .w [2]]]

theorem twoDependencies_wellformed : Wellformed twoDependencies where
  built := by
    simp only [twoDependencies, List.mem_cons, List.not_mem_nil, or_false]
    rintro tx (rfl | rfl | rfl)
    · exact ⟨[48], 0, [some [0], some [2]], [some [49], some [49]], [some [1]], [some [49]], rfl⟩
    · exact ⟨[49], 0, [], [], [some [2]], [some [49]], rfl⟩
    · exact ⟨[50], 0, [], [], [some [0], some [2]], [some [49], some [49]], rfl⟩
  nonempty := by decide
  ids_nodup := by decide
  reads_nodup := by decide
  writes_nodup := by decide
  keys_apart := by decide

/-- The order in which `range temp` visits the two queues `T0` depends on decides
which of them is sorted first, and with it whether `T1` or `T2` gets rank 11. -/
theorem twoDependencies_schedule_dependent :
    Wellformed twoDependencies ∧ ¬ ScheduleIndependent twoDependencies 3 := by
  refine ⟨twoDependencies_wellformed, fun hind => ?_⟩
  have hs : runSummary twoDependencies Schedule.insertion 3 = .ok ([10, 12, 11], [false, false, false]) := by
    decide
  have hs' : runSummary twoDependencies Schedule.reversedTemp 3 =
      .ok ([10, 11, 12], [false, false, false]) := by
    decide
  obtain ⟨h, cq, co, hrun, hseq, -⟩ := runSummary_of_run hs
  obtain ⟨h', cq', co', hrun', hseq', -⟩ := runSummary_of_run hs'
  have h1 : seqOf h 1 = 12 := congrArg (·.getD 1 0) hseq
  have h1' : seqOf h' 1 = 11 := congrArg (·.getD 1 0) hseq'
  have he := (hind _ _ _ _ _ _ _ _ hrun hrun').1 [⟨1, 0⟩] (by decide) ⟨1, 0⟩ (by decide)
  have : seqOf h 1 = seqOf h' 1 := he
  omega

end Nezha
