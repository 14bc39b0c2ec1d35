import Nezha.Core.Loop
import Mathlib.Data.List.Count
import Mathlib.Data.List.GetD

/-!
# Adjacency-list graphs and their topological sorts (`core/classical_graph.go`)

`AlGraph` keeps, for every vertex, its linked list of arcs, a sorted flag, and
the in- and out-degree tables. `Init` fills them from `[][]int` adjacency
lists; it is always called on a fresh `AlGraph`. `BasicTopologicalSort` is
Kahn's algorithm with aborted arcs skipped; `AdvancedTopologicalSort` is Kahn's
algorithm where, whenever no vertex of in-degree zero is left, `findMaxNode`
picks an unsorted vertex of least in-degree and most out-degree.

Reads through an arc (`vertices[farc.adj]`, `inDegree[farc.adj]`) and the read
`vertices[top]` are index checked: they panic in Go when out of range. The
degree tables always have one entry per vertex (`init_lengths` and the step
lemmas keep this), so the scans over them read with a default that is never used.
-/

namespace Nezha

/-- `ArcNode`, one cell of a vertex's arc list. -/
structure ArcNode where
  adj : Nat
  isAborted : Bool
  deriving DecidableEq, Repr

/-- `VNode`. -/
structure VNode where
  data : Nat
  first : List ArcNode
  isSorted : Bool
  deriving DecidableEq, Repr

/-- `AlGraph`. -/
structure AlGraph where
  vertices : List VNode
  vexNum : Nat
  arcNum : Nat
  outDegree : List Nat
  inDegree : List Int
  deriving DecidableEq, Repr

/-- `math.MaxInt64`, the start of every minimum search over `int`s. -/
def maxInt64 : Int := 9223372036854775807

/-- `isExistForInt`. -/
def isExistForInt (slice : List Nat) (n : Nat) : Bool := slice.contains n

namespace AlGraph

/-- `Init` on a fresh graph: vertex `i` gets the arcs of `gSlice[i]` in order,
and its in-degree counts the arcs of every list that point at `i`. -/
def init (gSlice : List (List Nat)) : AlGraph where
  vertices := (List.range gSlice.length).map fun i =>
    ⟨i, (gSlice.getD i []).map fun vv => ⟨vv, false⟩, false⟩
  vexNum := gSlice.length
  arcNum := (gSlice.map List.length).sum
  outDegree := gSlice.map List.length
  inDegree := (List.range gSlice.length).map fun i => ((gSlice.map (List.count i)).sum : Int)

/-- `al.vertices[i].isSorted` at an index the degree tables share with `vertices`. -/
def sortedAt (al : AlGraph) (i : Nat) : Bool := (al.vertices.getD i ⟨i, [], false⟩).isSorted

/-- `al.vertices[top].isSorted = true`. -/
def markSorted (al : AlGraph) (top : Nat) : AlGraph :=
  { al with vertices := al.vertices.modify top fun v => { v with isSorted := true } }

/-- `al.inDegree[i]--`, with Go's index check. -/
def decInDegree (al : AlGraph) (i : Nat) : Except Fault AlGraph := do
  let d ← sliceIndex al.inDegree i
  pure { al with inDegree := al.inDegree.set i (d - 1) }

/-- Writing one entry of a degree table. -/
theorem getD_set_int (l : List Int) {i : Nat} (hi : i < l.length) (x : Int) (v : Nat) :
    (l.set i x).getD v 0 = if v = i then x else l.getD v 0 := by
  simp only [List.getD_eq_getElem?_getD, List.getElem?_set]
  by_cases hv : v = i
  · subst hv
    simp [hi]
  · simp [Ne.symm hv, hv]

@[simp] theorem decInDegree_eq {al : AlGraph} {i : Nat} (hi : i < al.inDegree.length) :
    al.decInDegree i = .ok { al with inDegree := al.inDegree.set i (al.inDegree.getD i 0 - 1) } := by
  simp [decInDegree, sliceIndex_of_lt hi, List.getElem?_eq_getElem hi, pure, Except.pure]

@[simp] theorem init_vertices_length (g : List (List Nat)) : (init g).vertices.length = g.length := by
  simp [init]

@[simp] theorem init_inDegree_length (g : List (List Nat)) : (init g).inDegree.length = g.length := by
  simp [init]

@[simp] theorem init_outDegree (g : List (List Nat)) : (init g).outDegree = g.map List.length := rfl

/-- `Init` counts, for every vertex, the arcs of all lists that point at it. -/
theorem init_inDegree_getD (g : List (List Nat)) {v : Nat} (hv : v < g.length) :
    (init g).inDegree.getD v 0 = ((g.map (List.count v)).sum : Int) := by
  simp [init, List.getD_eq_getElem?_getD, List.getElem?_range hv]

/-! ## `RebuildGraph` -/

/-- Decrement the in-degree of every target of an aborted vertex's arcs. -/
def dropTargets (al : AlGraph) : List ArcNode → Except Fault AlGraph
  | [] => pure al
  | farc :: rest => do
    let al ← al.decInDegree farc.adj
    dropTargets al rest

/-- Mark every arc into an aborted vertex. -/
def markAbortedArcs (abortedTx : List Nat) (arcs : List ArcNode) : List ArcNode :=
  arcs.map fun farc => if isExistForInt abortedTx farc.adj then { farc with isAborted := true } else farc

/-- The body of `RebuildGraph` for the vertex at index `i`. -/
def rebuildVertex (abortedTx : List Nat) (al : AlGraph) (i : Nat) : Except Fault AlGraph :=
  match al.vertices[i]? with
  | none => pure al
  | some v =>
    if isExistForInt abortedTx v.data then al.dropTargets v.first
    else pure { al with vertices := al.vertices.set i { v with first := markAbortedArcs abortedTx v.first } }

/-- `RebuildGraph`. -/
def rebuildGraph (al : AlGraph) (abortedTx : List Nat) : Except Fault AlGraph :=
  (List.range al.vertices.length).foldlM (rebuildVertex abortedTx) al

/-! ## `BasicTopologicalSort` -/

/-- The first loop of both sorts: the vertices of in-degree zero, in index order. -/
def emptyInDegreeVex (al : AlGraph) : List Nat :=
  (List.range al.inDegree.length).filter fun i => al.inDegree.getD i 0 = 0

theorem mem_emptyInDegreeVex (al : AlGraph) (v : Nat) :
    v ∈ al.emptyInDegreeVex ↔ v < al.inDegree.length ∧ al.inDegree.getD v 0 = 0 := by
  simp [emptyInDegreeVex]

theorem nodup_emptyInDegreeVex (al : AlGraph) : al.emptyInDegreeVex.Nodup :=
  List.nodup_range.filter _

/-- The loop state of both topological sorts. -/
structure TopoState where
  al : AlGraph
  queue : List Nat
  topologicalOrder : List Nat
  min : Int
  deriving DecidableEq, Repr

/-- The arc loop of `BasicTopologicalSort`: skip aborted arcs, decrement the
rest, and enqueue a target whose in-degree reaches zero. -/
def basicArcs (al : AlGraph) : List ArcNode → List Nat → Except Fault (AlGraph × List Nat)
  | [], queue => pure (al, queue)
  | farc :: rest, queue =>
    if farc.isAborted then basicArcs al rest queue
    else do
      let al ← al.decInDegree farc.adj
      let queue := if al.inDegree.getD farc.adj 0 = 0 then queue ++ [farc.adj] else queue
      basicArcs al rest queue

/-- One iteration of the loop of `BasicTopologicalSort`. -/
def basicStep (s : TopoState) : Except Fault TopoState := do
  let top ← sliceIndex s.queue 0
  let v ← sliceIndex s.al.vertices top
  let (al, queue) ← basicArcs s.al v.first s.queue
  pure { s with al, queue := queue.tail, topologicalOrder := s.topologicalOrder ++ [top] }

/-- `BasicTopologicalSort`, for at most `fuel` iterations. -/
def basicTopologicalSort (al : AlGraph) (fuel : Nat) : Except Fault (List Nat) := do
  let start : TopoState := ⟨al, al.emptyInDegreeVex, [], 0⟩
  let s ← whileM (fun s => !s.queue.isEmpty) basicStep fuel start
  pure s.topologicalOrder

/-! ## `AdvancedTopologicalSort` and `findMaxNode` -/

/-- The least in-degree of an unsorted vertex, `math.MaxInt64` if none is left. -/
def unsortedMin (al : AlGraph) : Int :=
  (List.range al.inDegree.length).foldl (fun m i =>
    if al.sortedAt i then m else if al.inDegree.getD i 0 < m then al.inDegree.getD i 0 else m) maxInt64

/-- `findMaxNode`: among unsorted vertices of in-degree `min`, the first of
largest out-degree; `0` when there is none. -/
def findMaxNode (al : AlGraph) (min : Int) : Nat :=
  let inDegreeVex := (List.range al.inDegree.length).filter fun i =>
    !al.sortedAt i && al.inDegree.getD i 0 = min
  let max := inDegreeVex.foldl (fun m v => if al.outDegree.getD v 0 > m then al.outDegree.getD v 0 else m) 0
  (inDegreeVex.find? fun v => al.outDegree.getD v 0 = max).getD 0

/-- The arc loop of `AdvancedTopologicalSort`: skip sorted targets, decrement
the rest, and enqueue a target whose in-degree reaches zero. -/
def advancedArcs (al : AlGraph) : List ArcNode → List Nat → Except Fault (AlGraph × List Nat)
  | [], queue => pure (al, queue)
  | farc :: rest, queue => do
    let w ← sliceIndex al.vertices farc.adj
    if w.isSorted then advancedArcs al rest queue
    else
      let al ← al.decInDegree farc.adj
      let queue := if al.inDegree.getD farc.adj 0 = 0 then queue ++ [farc.adj] else queue
      advancedArcs al rest queue

/-- One iteration of the loop of `AdvancedTopologicalSort`. The minimum is
recomputed only while some vertex is unsorted; a positive minimum makes
`findMaxNode` supply the next vertex. -/
def advancedStep (s : TopoState) : Except Fault TopoState := do
  let top ← sliceIndex s.queue 0
  let order := s.topologicalOrder ++ [top]
  let v ← sliceIndex s.al.vertices top
  let (al, queue) ← advancedArcs (s.al.markSorted top) v.first s.queue
  let queue := queue.tail
  let min := if order.length < al.vertices.length then al.unsortedMin else s.min
  let queue := if min > 0 then queue ++ [al.findMaxNode min] else queue
  pure ⟨al, queue, order, min⟩

/-- The state `AdvancedTopologicalSort` enters its loop with. -/
def advancedStart (al : AlGraph) : TopoState :=
  let zeroDegreeVex := al.emptyInDegreeVex
  let min := al.inDegree.foldl (fun m v => if v < m then v else m) maxInt64
  let queue := if zeroDegreeVex.isEmpty then [al.findMaxNode min] else zeroDegreeVex
  ⟨al, queue, [], min⟩

/-- `AdvancedTopologicalSort`, for at most `fuel` iterations. -/
def advancedTopologicalSort (al : AlGraph) (fuel : Nat) : Except Fault (List Nat) := do
  let s ← whileM (fun s => !s.queue.isEmpty) advancedStep fuel (advancedStart al)
  pure s.topologicalOrder

end AlGraph

end Nezha
