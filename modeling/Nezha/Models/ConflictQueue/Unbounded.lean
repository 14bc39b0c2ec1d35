import Nezha.Models.ConflictQueue.DeSS

/-!
# The numbering loops over unbounded integers

Three loops of `sortInQueue` compute `maxWrite + 1`, which Go evaluates in
`int32`. Below are the same three loops with the sum taken in the integers, and
`sortInQueue`, the loop of `DeSS` and the pipeline built on them; everything
else is the model of the code itself. The results on how `sortInQueue`
numbers, orders and aborts are proved over these definitions, and
`ConflictQueue.Int32` shows that the code computes the same as long as no
number reaches `math.MaxInt32`.
-/

namespace Nezha.Unbounded

/-- `numberSameKeyWriters` with `maxWrite + 1` in the integers. -/
def numberSameKeyWriters (s : SortState) : List NodeRef → SortState
  | [] => s
  | w :: rest =>
    let v := s.queue.maxWrite + 1
    let s := ((s.renumber w v).setMaxWrite v).setMaxRead v
    rest.foldl (fun s w => s.abort w) s

/-- `numberFreshWriter` with the search started at `maxWrite + 1` in the integers. -/
def numberFreshWriter (keys : List Int) (s : SortState) (w : NodeRef) : SortState :=
  if (s.heap w).sequence ≠ 0 then s
  else
    match freeSlot keys (s.queue.maxWrite + 1) (maxInt32 - (s.queue.maxWrite + 1)).toNat with
    | none => s
    | some i => (s.renumber w i).setMaxWrite i

/-- `numberFreshWriters` over `numberFreshWriter`. -/
def numberFreshWriters (s : SortState) (keys : List Int) : SortState :=
  s.queue.wSlice.foldl (numberFreshWriter keys) s

theorem numberFreshWriters_eq (s : SortState) (keys : List Int) :
    numberFreshWriters s keys = s.queue.wSlice.foldl (numberFreshWriter keys) s := rfl

/-- `renumberKeptWriter` with `maxWrite + 1` in the integers. -/
def renumberKeptWriter (n : Int) (s : SortState) (wi : NodeRef × Nat) : SortState :=
  if n > s.queue.maxRead ∧ wi.2 = 0 then s
  else
    let v := s.queue.maxWrite + 1
    (s.renumber wi.1 v).setMaxWrite v

/-- `renumberKeptWriters` over `renumberKeptWriter`. -/
def renumberKeptWriters (s : SortState) (keys : List Int) (tmpWQueue2 : WriteBuckets) : SortState :=
  keys.foldl (fun s n => ((tmpWQueue2.findD n []).zipIdx).foldl (renumberKeptWriter n) s) s

theorem renumberKeptWriters_eq (s : SortState) (keys : List Int) (tmpWQueue2 : WriteBuckets) :
    renumberKeptWriters s keys tmpWQueue2 =
      keys.foldl (fun s n => ((tmpWQueue2.findD n []).zipIdx).foldl (renumberKeptWriter n) s) s := rfl

/-- `sortInQueue` over the three loops above. -/
def sortInQueue (s : SortState) : SortState :=
  let s := sortReads s
  let (s, tmpWQueue, tmpWQueue2) := s.queue.wSlice.foldl checkWrite (s, [], GoMap.empty)
  let keys := sortInts tmpWQueue2.keys
  let s := s.setMaxWrite (if s.queue.maxRead = 0 then initialSequence - 1 else s.queue.maxRead)
  let s := numberSameKeyWriters s tmpWQueue
  let s := numberFreshWriters s keys
  let s := raiseMaxWrite s keys
  renumberKeptWriters s keys tmpWQueue2

/-- A pass of the loop of `DeSS` over `sortInQueue` above. -/
def sortQueueNamed (hc : Heap × QueueGraph) (name : Bytes) : Heap × QueueGraph :=
  let s := sortInQueue ⟨hc.1, hc.2.edges, hc.2.queues.findD name Queue.zero⟩
  (s.heap, ⟨hc.2.queues.modify name fun _ => s.queue, s.edges⟩)

theorem findD_sortQueueNamed (hc : Heap × QueueGraph) (name name' : Bytes) :
    ((sortQueueNamed hc name).2.queues.findD name' Queue.zero =
        (sortInQueue ⟨hc.1, hc.2.edges, hc.2.queues.findD name Queue.zero⟩).queue ∧ name' = name) ∨
      (sortQueueNamed hc name).2.queues.findD name' Queue.zero = hc.2.queues.findD name' Queue.zero :=
  GoMap.findD_modify_const hc.2.queues name name' _ Queue.zero

/-- `DeSS` over the loop above. -/
def deSS (h : Heap) (cq : QueueGraph) (σ : Schedule) (sequence : List Bytes) :
    Except Fault (Heap × QueueGraph × CommitOrder) := do
  let (h, cq) := sequence.foldl sortQueueNamed (h, cq)
  let commitOrder ← (σ.edges cq.edges.keys).foldlM (fileTransaction h cq) GoMap.empty
  pure (h, cq, commitOrder)

/-- The pipeline over `DeSS` above. -/
def runNezha (batch : List (List RWNode)) (σ : Schedule) (fuel : Nat) :
    Except Fault (Heap × QueueGraph × CommitOrder) := do
  let h := Heap.ofBatch batch
  let cq ← createGraph h (batchRefs batch)
  let sequence ← queuesSort h cq σ fuel
  deSS h cq σ sequence

end Nezha.Unbounded
