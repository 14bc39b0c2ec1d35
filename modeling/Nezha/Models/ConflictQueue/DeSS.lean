import Nezha.Models.ConflictQueue.QueuesSort
import Nezha.Models.ConflictQueue.SortInQueue

/-!
# Hierarchical sorting and the commit order (`core/conflict_queue.go`, `DeSS`)

`DeSS` sorts the queues in the order rank division returned, then files every
transaction that was not aborted under the `Sequence` of its first node, as
the list of its write nodes. `TestConflictQueue` commits these lists rank by
rank. `runNezha` is the whole pipeline of `TestConflictQueue` up to that point.
-/

namespace Nezha

/-- The commit order: each rank with the write sets filed under it. -/
abbrev CommitOrder := GoMap Int (List (List NodeRef))

/-- `cq.sortInQueue(cq.Queues[name])`, the queue written back in place. -/
def sortQueueNamed (hc : Heap × QueueGraph) (name : Bytes) : Heap × QueueGraph :=
  let s := sortInQueue ⟨hc.1, hc.2.edges, hc.2.queues.findD name Queue.zero⟩
  (s.heap, ⟨hc.2.queues.modify name fun _ => s.queue, s.edges⟩)

/-- After a pass of the loop, a queue is the one `sortInQueue` wrote back, or
is left as it was. -/
theorem findD_sortQueueNamed (hc : Heap × QueueGraph) (name name' : Bytes) :
    ((sortQueueNamed hc name).2.queues.findD name' Queue.zero =
        (sortInQueue ⟨hc.1, hc.2.edges, hc.2.queues.findD name Queue.zero⟩).queue ∧ name' = name) ∨
      (sortQueueNamed hc name).2.queues.findD name' Queue.zero = hc.2.queues.findD name' Queue.zero :=
  GoMap.findD_modify_const hc.2.queues name name' _ Queue.zero

/-- The write nodes of a transaction. -/
def writeNodes (h : Heap) (set : List NodeRef) : List NodeRef :=
  set.filter fun e => (h e).label = .w

/-- One pass of the loop over `cq.Edges`. -/
def fileTransaction (h : Heap) (cq : QueueGraph) (commitOrder : CommitOrder) (t : Bytes) :
    Except Fault CommitOrder :=
  let edge := cq.edges.findD t Edge.zero
  if edge.isAborted then pure commitOrder
  else do
    let first ← sliceIndex edge.set 0
    let seq := (h first).sequence
    pure (commitOrder.insert seq (commitOrder.findD seq [] ++ [writeNodes h edge.set]))

/-- `DeSS`: the heap and graph after sorting, and the commit order. -/
def deSS (h : Heap) (cq : QueueGraph) (σ : Schedule) (sequence : List Bytes) :
    Except Fault (Heap × QueueGraph × CommitOrder) := do
  let (h, cq) := sequence.foldl sortQueueNamed (h, cq)
  let commitOrder ← (σ.edges cq.edges.keys).foldlM (fileTransaction h cq) GoMap.empty
  pure (h, cq, commitOrder)

/-- `CreateGraph`, `QueuesSort` and `DeSS` on a batch, as `TestConflictQueue`
runs them, with rank division's sort given `fuel` iterations. -/
def runNezha (batch : List (List RWNode)) (σ : Schedule) (fuel : Nat) :
    Except Fault (Heap × QueueGraph × CommitOrder) := do
  let h := Heap.ofBatch batch
  let cq ← createGraph h (batchRefs batch)
  let sequence ← queuesSort h cq σ fuel
  deSS h cq σ sequence

end Nezha
