import Nezha.Models.ConflictQueue.Graph
import Nezha.Models.ClassicalGraph.AlGraph

/-!
# Rank division (`core/conflict_queue.go`, `QueuesSort`)

Queues are numbered by the sorted order of their names. Queue `X` depends on
queue `Y` when a transaction writing in `X` reads another key, filed in `Y`.
These dependencies become the adjacency lists of an `AlGraph`, and the queue
order is the order `AdvancedTopologicalSort` returns.

Two loops of the pipeline range over a map whose order shows in the result:
the dependency set `temp` of each queue, whose order becomes the order of an
adjacency list, and `cq.Edges` in `DeSS`. A `Schedule` fixes both; each is a
permutation of the map's keys, which is all Go promises. The other loops over
maps either fill a map or are followed by a sort, so their order is not
observable and they run in insertion order.

A missing `cq.Edges[id]` would be a nil dereference in Go; the well-formed
batches of the later theorems never reach one, so the read takes the zero edge.
-/

namespace Nezha

/-- The runtime's choice of iteration order for the maps whose order matters. -/
structure Schedule where
  /-- The order of `range temp` in the queue with a given name. -/
  temp : Bytes → List Bytes → List Bytes
  temp_perm : ∀ key l, (temp key l).Perm l
  /-- The order of `range cq.Edges` in `DeSS`. -/
  edges : List Bytes → List Bytes
  edges_perm : ∀ l, (edges l).Perm l

/-- Every map is ranged over in insertion order. -/
def Schedule.insertion : Schedule where
  temp := fun _ l => l
  temp_perm := fun _ l => List.Perm.refl l
  edges := fun l => l
  edges_perm := fun l => List.Perm.refl l

/-- `cq.Edges[id].set`. -/
def QueueGraph.edgeSet (cq : QueueGraph) (id : Bytes) : List NodeRef :=
  (cq.edges.findD id Edge.zero).set

/-- `sortedQueues`: each queue name mapped to its rank among the sorted names. -/
def indexNames (sortedStrings : List Bytes) : GoMap Bytes Nat :=
  (List.range sortedStrings.length).foldl (fun m i => m.insert (sortedStrings.getD i []) i) GoMap.empty

/-- Add to `temp` the names of the other keys read by the transaction of `w`. -/
def collectReads (h : Heap) (cq : QueueGraph) (temp : GoMap Bytes Unit) (w : NodeRef) :
    GoMap Bytes Unit :=
  (cq.edgeSet (h w).transInfo.id).foldl (fun temp n =>
    if (h n).label = .r ∧ (h w).rwSet.key ≠ (h n).rwSet.key then
      temp.insert (convertByte2String (h n).rwSet.key) ()
    else temp) temp

/-- The set `temp` of the queues a queue depends on. -/
def dependencySet (h : Heap) (cq : QueueGraph) (q : Queue) : GoMap Bytes Unit :=
  q.wSlice.foldl (collectReads h cq) GoMap.empty

/-- `depQueue[qIndex]` for the queue `key`, its dependencies in the runtime's order. -/
def depEntry (σ : Schedule) (sortedQueues : GoMap Bytes Nat) (key : Bytes)
    (temp : GoMap Bytes Unit) : List Nat :=
  if temp.keys.length > 0 then (σ.temp key temp.keys).map fun kk => sortedQueues.findD kk 0
  else []

/-- The loop building `depQueue`. -/
def buildDepQueue (h : Heap) (cq : QueueGraph) (σ : Schedule) (sortedQueues : GoMap Bytes Nat) :
    GoMap Nat (List Nat) :=
  cq.queues.keys.foldl (fun depQueue key =>
    depQueue.insert (sortedQueues.findD key 0)
      (depEntry σ sortedQueues key (dependencySet h cq (cq.queues.findD key Queue.zero))))
    GoMap.empty

/-- `deps`: the adjacency lists, in rank order. -/
def depLists (depQueue : GoMap Nat (List Nat)) : List (List Nat) :=
  (List.range depQueue.keys.length).map fun i => depQueue.findD i []

/-- The queue names in the order of the ranks `AdvancedTopologicalSort` returns. -/
def namesOf (sortedStrings : List Bytes) (order : List Nat) : Except Fault (List Bytes) :=
  order.foldlM (fun sequence o =>
    if sortedStrings.length > 0 then do
      let str ← sliceIndex sortedStrings o
      pure (sequence ++ [str])
    else pure sequence) []

/-- `QueuesSort`, its topological sort run for at most `fuel` iterations. -/
def queuesSort (h : Heap) (cq : QueueGraph) (σ : Schedule) (fuel : Nat) :
    Except Fault (List Bytes) := do
  let sortedStrings := sortStrings cq.queues.keys
  let sortedQueues := indexNames sortedStrings
  let deps := depLists (buildDepQueue h cq σ sortedQueues)
  let order ← (AlGraph.init deps).advancedTopologicalSort fuel
  namesOf sortedStrings order

end Nezha
