import Nezha.Models.ConflictQueue.Graph
import Nezha.Core.Bytes

/-!
# Sorting one queue (`core/conflict_queue.go`, `sortInQueue`)

`sortInQueue` numbers the nodes of one queue. Reads go first: if none of them
was numbered through an earlier queue, all get `initialSequence`; otherwise
the unnumbered ones get the least number already present. Writes then go above
`maxRead`: a numbered write at or below it is kept if its transaction read the
same key (only the first such transaction survives), aborted if its
transaction read only other keys, and otherwise moved up; unnumbered writes
take the next free numbers. Every write of a number goes through
`Heap.renumber`, which copies the number to the whole transaction, including
its nodes in queues sorted earlier. `maxWrite + 1` is an `int32` sum in Go:
the three sites that compute it wrap it with `wrap32`.

Each loop of the source is one definition below, in source order.
-/

namespace Nezha

/-- What `sortInQueue` reads and writes: the heap, the transaction edges and
the queue being sorted. -/
structure SortState where
  heap : Heap
  edges : GoMap Bytes Edge
  queue : Queue

namespace SortState

/-- `cq.Edges[id]` for the transaction of node `n`. -/
def edgeOf (s : SortState) (n : NodeRef) : Edge :=
  s.edges.findD (s.heap n).transInfo.id Edge.zero

/-- `cq.Edges[id].isAborted = true` for the transaction of node `n`. -/
def abort (s : SortState) (n : NodeRef) : SortState :=
  { s with edges := s.edges.modify (s.heap n).transInfo.id fun e => { e with isAborted := true } }

/-- A numbering site: `n.Sequence = v`, `n.isAssigned = true`, `n.assignSequence(edge)`. -/
def renumber (s : SortState) (n : NodeRef) (v : Int) : SortState :=
  { s with heap := s.heap.renumber n v (s.edgeOf n).set }

/-- `queue.maxRead = v`. -/
def setMaxRead (s : SortState) (v : Int) : SortState :=
  { s with queue := { s.queue with maxRead := v } }

/-- `queue.maxWrite = v`. -/
def setMaxWrite (s : SortState) (v : Int) : SortState :=
  { s with queue := { s.queue with maxWrite := v } }

end SortState

/-- `isExist`. -/
def isExist (slice : List Int) (n : Int) : Bool := slice.contains n

/-! ## Reads -/

/-- `tmpRQueue`: the reads numbered through an earlier queue whose
transactions are not aborted. -/
def tmpRQueue (s : SortState) : List NodeRef :=
  s.queue.rSlice.filter fun r => (s.heap r).sequence ≠ 0 && !(s.edgeOf r).isAborted

/-- The first branch: every read of the queue gets `initialSequence`. -/
def numberFreshReads (s : SortState) : SortState :=
  s.queue.rSlice.foldl (fun s r =>
    let s := s.renumber r initialSequence
    s.setMaxRead (s.heap r).sequence) s

/-- The first loop of the second branch: mark the numbered reads assigned,
and take their least number and the largest one into `maxRead`. -/
def scanNumberedReads (s : SortState) (tmp : List NodeRef) : SortState × Int :=
  tmp.foldl (fun acc tr =>
    let s : SortState := { acc.1 with heap := acc.1.heap.setAssigned tr }
    let seq := (s.heap tr).sequence
    let min := if seq < acc.2 then seq else acc.2
    (if seq > s.queue.maxRead then s.setMaxRead seq else s, min)) (s, maxInt32)

/-- The second loop of the second branch: unnumbered reads take `min`. -/
def numberWaitingReads (s : SortState) (min : Int) : SortState :=
  s.queue.rSlice.foldl (fun s r => if (s.heap r).sequence ≠ 0 then s else s.renumber r min) s

/-- The read half of `sortInQueue`. -/
def sortReads (s : SortState) : SortState :=
  if tmpRQueue s = [] then numberFreshReads s
  else
    let (s, min) := scanNumberedReads s (tmpRQueue s)
    numberWaitingReads s min

/-! ## Writes -/

/-- The scan over the writer's transaction: `isSame` when an assigned read has
the writer's key (the scan stops there), `isBefore` when one has another key. -/
def readScan (h : Heap) (w : NodeRef) : List NodeRef → Bool → Bool × Bool
  | [], isBefore => (false, isBefore)
  | rw :: rest, isBefore =>
    if (h rw).label = .r ∧ (h rw).isAssigned = true then
      if (h w).rwSet.key = (h rw).rwSet.key then (true, isBefore)
      else readScan h w rest true
    else readScan h w rest isBefore

/-- The writes kept for renumbering, by their number (`tmpWQueue2`). -/
abbrev WriteBuckets := GoMap Int (List NodeRef)

/-- `tmpWQueue2[seq] = append(tmpWQueue2[seq], w)`. -/
def WriteBuckets.push (b : WriteBuckets) (seq : Int) (w : NodeRef) : WriteBuckets :=
  b.insert seq (b.findD seq [] ++ [w])

/-- One pass of the loop over the numbered writes. -/
def checkWrite (acc : SortState × List NodeRef × WriteBuckets) (w : NodeRef) :
    SortState × List NodeRef × WriteBuckets :=
  let (s, tmpWQueue, tmpWQueue2) := acc
  let seq := (s.heap w).sequence
  if seq = 0 then acc
  else if (s.edgeOf w).isAborted then acc
  else if seq ≤ s.queue.maxRead then
    let (isSame, isBefore) := readScan s.heap w (s.edgeOf w).set false
    if isSame then (s, tmpWQueue ++ [w], tmpWQueue2)
    else if isBefore then (s.abort w, tmpWQueue, tmpWQueue2)
    else (s, tmpWQueue, tmpWQueue2.push seq w)
  else (s, tmpWQueue, tmpWQueue2.push seq w)

/-- The loop over `tmpWQueue`: the first writer moves above `maxWrite` and
raises `maxRead` with it; every later one is aborted. -/
def numberSameKeyWriters (s : SortState) : List NodeRef → SortState
  | [] => s
  | w :: rest =>
    let v := wrap32 (s.queue.maxWrite + 1)
    let s := ((s.renumber w v).setMaxWrite v).setMaxRead v
    rest.foldl (fun s w => s.abort w) s

/-- `for i := start; i < math.MaxInt32; i++ { if !isExist(keys, i) { ... break } }`,
with `fuel` the iterations the bound leaves; `i` stays below the bound, so
`i++` never wraps. -/
def freeSlot (keys : List Int) (i : Int) : Nat → Option Int
  | 0 => none
  | fuel + 1 => if isExist keys i then freeSlot keys (i + 1) fuel else some i

section FreeSlot

variable {keys : List Int}

/-- The free-slot search starts at its first argument. -/
theorem freeSlot_ge : ∀ {fuel : Nat} {i j : Int}, freeSlot keys i fuel = some j → i ≤ j
  | 0, _, _, h => by simp [freeSlot] at h
  | fuel + 1, i, j, h => by
    unfold freeSlot at h
    split at h
    · have := freeSlot_ge h
      omega
    · exact le_of_eq (Option.some.inj h)

/-- The free-slot search stops before the end of its range. -/
theorem freeSlot_lt : ∀ {fuel : Nat} {i j : Int}, freeSlot keys i fuel = some j → j < i + fuel
  | 0, _, _, h => by simp [freeSlot] at h
  | fuel + 1, i, j, h => by
    unfold freeSlot at h
    split at h
    · have := freeSlot_lt h
      omega
    · obtain rfl := Option.some.inj h
      omega

/-- The free-slot search returns a number no kept write holds. -/
theorem freeSlot_not_mem : ∀ {fuel : Nat} {i j : Int}, freeSlot keys i fuel = some j → j ∉ keys
  | 0, _, _, h => by simp [freeSlot] at h
  | fuel + 1, i, j, h => by
    unfold freeSlot at h
    split at h
    · exact freeSlot_not_mem h
    · rename_i hi
      obtain rfl := Option.some.inj h
      simpa [isExist] using hi

/-- The free-slot search stops at most one above its start and above every kept number. -/
theorem freeSlot_le {K : Int} (hK : ∀ k ∈ keys, k ≤ K) :
    ∀ {fuel : Nat} {i j : Int}, freeSlot keys i fuel = some j → j ≤ max i (K + 1)
  | 0, _, _, h => by simp [freeSlot] at h
  | fuel + 1, i, j, h => by
    unfold freeSlot at h
    split at h
    · -- `i` is kept, so it is at most `K`, and the search goes on above it
      rename_i hi
      have hiK : i ≤ K := hK i (by simpa [isExist] using hi)
      have := freeSlot_le hK h
      omega
    · obtain rfl := Option.some.inj h
      exact le_max_left _ _

/-- With the kept numbers at most `K` and room below the end of the search,
the free-slot search finds a number. -/
theorem freeSlot_isSome {K : Int} (hK : ∀ k ∈ keys, k ≤ K) :
    ∀ (fuel : Nat) (i : Int), max i (K + 1) < i + fuel → ∃ j, freeSlot keys i fuel = some j
  | 0, i, h => by omega
  | fuel + 1, i, h => by
    unfold freeSlot
    split
    · -- `i` is kept, so it is at most `K` and the search goes on above it
      rename_i hi
      have hiK : i ≤ K := hK i (by simpa [isExist] using hi)
      exact freeSlot_isSome hK fuel (i + 1) (by omega)
    · exact ⟨i, rfl⟩

/-- Kept numbers below the start do not delay the free-slot search. -/
theorem freeSlot_of_lt {i : Int} (hK : ∀ k ∈ keys, k < i) (fuel : Nat) :
    freeSlot keys i fuel = freeSlot [] i fuel := by
  cases fuel with
  | zero => rfl
  | succ fuel =>
    have hi : ¬ isExist keys i = true := fun h => lt_irrefl i (hK i (by simpa [isExist] using h))
    rw [freeSlot, freeSlot, if_neg hi, if_neg (by simp [isExist])]

/-- With no kept numbers the free-slot search takes its start while it has fuel. -/
theorem freeSlot_nil (i : Int) (fuel : Nat) : freeSlot [] i fuel = if fuel = 0 then none else some i := by
  cases fuel with
  | zero => rfl
  | succ fuel => simp [freeSlot, isExist]

end FreeSlot

/-- The loop giving every unnumbered write the next number no kept write holds. -/
def numberFreshWriters (s : SortState) (keys : List Int) : SortState :=
  s.queue.wSlice.foldl (fun s w =>
    if (s.heap w).sequence ≠ 0 then s
    else
      let start := wrap32 (s.queue.maxWrite + 1)
      match freeSlot keys start (maxInt32 - start).toNat with
      | none => s
      | some i => (s.renumber w i).setMaxWrite i) s

/-- One pass of the loop of `numberFreshWriters`. -/
def numberFreshWriter (keys : List Int) (s : SortState) (w : NodeRef) : SortState :=
  if (s.heap w).sequence ≠ 0 then s
  else
    let start := wrap32 (s.queue.maxWrite + 1)
    match freeSlot keys start (maxInt32 - start).toNat with
    | none => s
    | some i => (s.renumber w i).setMaxWrite i

theorem numberFreshWriters_eq (s : SortState) (keys : List Int) :
    numberFreshWriters s keys = s.queue.wSlice.foldl (numberFreshWriter keys) s := rfl

/-- `maxWrite` is raised to the largest kept number. -/
def raiseMaxWrite (s : SortState) (keys : List Int) : SortState :=
  match keys.getLast? with
  | some maxSeq => if s.queue.maxWrite < maxSeq then s.setMaxWrite maxSeq else s
  | none => s

/-- The loop over the kept writes by increasing number: the first of a
bucket above `maxRead` keeps its number, all others move above `maxWrite`. -/
def renumberKeptWriters (s : SortState) (keys : List Int) (tmpWQueue2 : WriteBuckets) :
    SortState :=
  keys.foldl (fun s n =>
    ((tmpWQueue2.findD n []).zipIdx).foldl (fun s wi =>
      if n > s.queue.maxRead ∧ wi.2 = 0 then s
      else
        let v := wrap32 (s.queue.maxWrite + 1)
        (s.renumber wi.1 v).setMaxWrite v) s) s

/-- One pass of the inner loop of `renumberKeptWriters`, over the bucket of `n`. -/
def renumberKeptWriter (n : Int) (s : SortState) (wi : NodeRef × Nat) : SortState :=
  if n > s.queue.maxRead ∧ wi.2 = 0 then s
  else
    let v := wrap32 (s.queue.maxWrite + 1)
    (s.renumber wi.1 v).setMaxWrite v

theorem renumberKeptWriters_eq (s : SortState) (keys : List Int) (tmpWQueue2 : WriteBuckets) :
    renumberKeptWriters s keys tmpWQueue2 =
      keys.foldl (fun s n => ((tmpWQueue2.findD n []).zipIdx).foldl (renumberKeptWriter n) s) s := rfl

/-- `sortInQueue`. -/
def sortInQueue (s : SortState) : SortState :=
  let s := sortReads s
  let (s, tmpWQueue, tmpWQueue2) := s.queue.wSlice.foldl checkWrite (s, [], GoMap.empty)
  let keys := sortInts tmpWQueue2.keys
  let s := s.setMaxWrite (if s.queue.maxRead = 0 then initialSequence - 1 else s.queue.maxRead)
  let s := numberSameKeyWriters s tmpWQueue
  let s := numberFreshWriters s keys
  let s := raiseMaxWrite s keys
  renumberKeptWriters s keys tmpWQueue2

end Nezha
