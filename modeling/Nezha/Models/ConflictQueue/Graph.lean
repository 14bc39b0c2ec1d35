import Nezha.Core.GoMap
import Nezha.Models.RWSet

/-!
# The address-based conflict graph (`core/conflict_queue.go`, `CreateGraph`)

`CreateGraph` files every node of a batch under its transaction, in `Edges`,
and under its key, in `Queues`, where reads are put before writes. The queue
names are the hexadecimal forms of the keys. The loop over `queueArray` only
fills another map, so its order cannot be observed; it runs in insertion order
here. Transactions with an empty node list make `rw[0]` panic.
-/

namespace Nezha

/-- `Queue`: the nodes of one key and the largest numbers handed out in it. -/
structure Queue where
  rSlice : List NodeRef
  wSlice : List NodeRef
  maxRead : Int
  maxWrite : Int
  deriving DecidableEq, Repr

/-- `Edge`: the nodes of one transaction and whether it was aborted. -/
structure Edge where
  set : List NodeRef
  isAborted : Bool
  deriving DecidableEq, Repr

/-- `QueueGraph`. -/
structure QueueGraph where
  queues : GoMap Bytes Queue
  edges : GoMap Bytes Edge

/-- The zero `Queue`, read for a missing key. -/
def Queue.zero : Queue := ⟨[], [], 0, 0⟩

/-- The zero `Edge`, read for a missing transaction. -/
def Edge.zero : Edge := ⟨[], false⟩

/-- `initialSorting`: the read nodes of a queue, then all the others. -/
def initialSorting (h : Heap) (queue : List NodeRef) : List NodeRef × List NodeRef :=
  (queue.filter fun n => (h n).label = .r, queue.filter fun n => (h n).label ≠ .r)

/-- The queue name `CreateGraph` files a node under. -/
def queueName (h : Heap) (n : NodeRef) : Bytes := convertByte2String (h n).rwSet.key

/-- `queueArray[newKey] = append(queueArray[newKey], n)` for each node of `rw`. -/
def fileNodes (h : Heap) (queueArray : GoMap Bytes (List NodeRef)) (rw : List NodeRef) :
    GoMap Bytes (List NodeRef) :=
  rw.foldl (fun qa n => qa.insert (queueName h n) (qa.findD (queueName h n) [] ++ [n])) queueArray

/-- One pass of the first loop of `CreateGraph`: the edge of `rw`, then its nodes. -/
def createGraphStep (h : Heap) (acc : GoMap Bytes Edge × GoMap Bytes (List NodeRef))
    (rw : List NodeRef) : Except Fault (GoMap Bytes Edge × GoMap Bytes (List NodeRef)) := do
  let first ← sliceIndex rw 0
  pure (acc.1.insert (h first).transInfo.id ⟨rw, false⟩, fileNodes h acc.2 rw)

/-- The second loop of `CreateGraph`: a fresh queue for every key. -/
def buildQueues (h : Heap) (queueArray : GoMap Bytes (List NodeRef)) : GoMap Bytes Queue :=
  queueArray.keys.foldl (fun queues key =>
    let (rSlice, wSlice) := initialSorting h (queueArray.findD key [])
    queues.insert key ⟨rSlice, wSlice, 0, 0⟩) GoMap.empty

/-- `CreateGraph`. -/
def createGraph (h : Heap) (rwNodes : List (List NodeRef)) : Except Fault QueueGraph := do
  let (edges, queueArray) ← rwNodes.foldlM (createGraphStep h) (GoMap.empty, GoMap.empty)
  pure ⟨buildQueues h queueArray, edges⟩

end Nezha
