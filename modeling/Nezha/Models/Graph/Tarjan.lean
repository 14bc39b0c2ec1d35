import Nezha.Core.Loop
import Nezha.Core.GoMap

/-!
# Tarjan's components over a map (`graph/tarjan.go`)

`Connections` runs Tarjan's search over a graph given as a Go map from a
vertex to its successors, from every key not yet visited, in the map's
`range` order. `strongConnect(v)` gives `v` the next index (`len(data.nodes)`),
pushes it, and lowers its node's `lowLink` to the `lowLink` of each tree child
and the index of each successor still stacked. A node whose `lowLink` stays its
own index pops the stack down to its vertex and outputs the popped vertices,
top first.

The node of a call is the pointer `node := &data.nodes[index]`: its `lowLink` is
written by that call only and read by the caller through the returned pointer,
so here it is the value the call returns, and `data.nodes` keeps the `stacked`
flags, which every call reads and the pops clear. The `range` order of the map
is a parameter, a permutation of its keys. The recursion goes at most as deep
as there are vertices, which are keys or successors of keys, and
`Connections` runs it with that much fuel.
-/

namespace Nezha

namespace Tarjan

/-- `data`, the fields the search writes: the `stacked` flags of `nodes` by
index, the stack with its top at the end, the index of every visited vertex,
and the components output so far. -/
structure Data where
  stacked : List Bool
  stack : List Nat
  index : GoMap Nat Nat
  output : List (List Nat)

/-- The pop loop `for { w := data.stack[i]; …; if stackIndex == index { break }; i-- }`,
over the stack with its top first: the vertices popped, the rest of the stack,
and the flags with every popped vertex unstacked. Running below the bottom of
the stack is the index panic of `data.stack[i]`. -/
def popStack (index : Nat) (idx : GoMap Nat Nat) : List Nat → List Bool →
    Except Fault (List Nat × List Nat × List Bool)
  | [], _ => .error .indexOutOfRange
  | w :: rest, stacked => do
    let stackIndex := idx.findD w 0
    let stacked ← sliceSet stacked stackIndex false
    if stackIndex = index then pure ([w], rest, stacked)
    else do
      let (vertices, rest, stacked) ← popStack index idx rest stacked
      pure (w :: vertices, rest, stacked)

/-- One pass of the loop of `strongConnect(v)` over the successors of `v`, with
the call's node `lowLink` beside `data`; `visit` is the recursive call. -/
def connectArc (visit : Data → Nat → Except Fault (Data × Nat)) (acc : Data × Nat) (w : Nat) :
    Except Fault (Data × Nat) :=
  match acc.1.index.get? w with
  | none => do
    let (data, n) ← visit acc.1 w
    pure (data, if n < acc.2 then n else acc.2)
  | some i => do
    let stacked ← sliceIndex acc.1.stacked i
    pure (acc.1, if stacked && decide (i < acc.2) then i else acc.2)

/-- `strongConnect(v)`, with `fuel` bounding the depth of its recursion: the
data after the call and its node's `lowLink`. -/
def strongConnect (graph : GoMap Nat (List Nat)) : Nat → Data → Nat → Except Fault (Data × Nat)
  | 0, _, _ => .error .outOfFuel
  | fuel + 1, data, v => do
    let index := data.stacked.length
    let data : Data := { data with
      index := data.index.insert v index
      stack := data.stack ++ [v]
      stacked := data.stacked ++ [true] }
    let (data, lowLink) ← (graph.findD v []).foldlM (connectArc (strongConnect graph fuel)) (data, index)
    -- finish backtracking
    if lowLink = index then do
      let (vertices, rest, stacked) ← popStack index data.index data.stack.reverse data.stacked
      pure ({ data with stack := rest.reverse, stacked := stacked, output := data.output ++ [vertices] },
        lowLink)
    else pure (data, lowLink)

/-- The first lines of `strongConnect(v)`: `v` indexed, pushed and stacked. -/
def enter (data : Data) (v : Nat) : Data := { data with
  index := data.index.insert v data.stacked.length
  stack := data.stack ++ [v]
  stacked := data.stacked ++ [true] }

/-- The end of `strongConnect(v)`: when the node's `lowLink` is still its
index, the stack popped down to `v` and the popped vertices output. -/
def finishBacktracking (index : Nat) (acc : Data × Nat) : Except Fault (Data × Nat) :=
  if acc.2 = index then do
    let (vertices, rest, stacked) ← popStack index acc.1.index acc.1.stack.reverse acc.1.stacked
    pure ({ acc.1 with stack := rest.reverse, stacked := stacked, output := acc.1.output ++ [vertices] },
      acc.2)
  else pure acc

theorem strongConnect_succ (graph : GoMap Nat (List Nat)) (fuel : Nat) (data : Data) (v : Nat) :
    strongConnect graph (fuel + 1) data v =
      (graph.findD v []).foldlM (connectArc (strongConnect graph fuel)) (enter data v, data.stacked.length) >>=
        finishBacktracking data.stacked.length :=
  rfl

/-- `make([]node, 0, len(graph))`, `make(map[int]int, len(graph))`, an empty
stack and no output. -/
def Data.empty : Data := ⟨[], [], GoMap.empty, []⟩

/-- The recursion depth `Connections` allows: one level per key and per listed successor. -/
def depthBound (graph : GoMap Nat (List Nat)) : Nat :=
  graph.keys.length + (graph.keys.map fun k => (graph.findD k []).length).sum

/-- One pass of the loop of `Connections` over the map's keys. -/
def visitKey (graph : GoMap Nat (List Nat)) (data : Data) (v : Nat) : Except Fault Data :=
  match data.index.get? v with
  | some _ => pure data
  | none => do
    let (data, _) ← strongConnect graph (depthBound graph) data v
    pure data

/-- `Connections(graph)`, with `range g.graph` in the order `order`. -/
def connections (graph : GoMap Nat (List Nat)) (order : List Nat) : Except Fault (List (List Nat)) := do
  let data ← order.foldlM (visitKey graph) Data.empty
  pure data.output

example : connections (((GoMap.empty.insert 0 [1]).insert 1 [2]).insert 2 [0]) [0, 1, 2] =
    .ok [[2, 1, 0]] := by decide
example : connections (((GoMap.empty.insert 0 [1]).insert 1 []).insert 2 [1, 0]) [2, 0, 1] =
    .ok [[1], [0], [2]] := by decide

end Tarjan

end Nezha
