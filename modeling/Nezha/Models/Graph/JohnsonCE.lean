import Nezha.Models.Graph.TarjanSCC

/-!
# Johnson's cycle enumeration and cycle breaking (`graph/johnsonce.go`)

`Run` splits the graph into its strongly connected components and breaks the
cycles of each one. `FindCycles` lists the elementary cycles of a component:
none for a single vertex, the one cycle of a two-vertex component directly,
and otherwise Johnson's search from each vertex in turn, with the vertices
already used as a start left out. Each cycle is recorded as the list of its
vertices, as a row of a 0/1 matrix over all vertices (`cyclesMap`), and in
the column sums `sumArray` and their total `sum`. `BreakCycles` then picks a
vertex lying on the most remaining cycles, marks it invalid and clears every
row it lies on, until no row is left.

Johnson's search `FindCyclesRecur` keeps the current path on `stack`. A vertex
is `blocked` while it is on the stack, and after a search from it found no
cycle, until `Unblock` releases it: `blockedMap[v]` lists the vertices to
release together with `v`.

As in `TarjanSCC`, the slices indexed by vertices are functions on `Nat`, and
the stack keeps Go's order, its top at the end. The recursions of
`FindCyclesRecur` and `Unblock` and the loop of `BreakCycles` run with as much
fuel as there are vertices.
-/

namespace Nezha

namespace JohnsonCE

/-- The state the search shares with its caller: `blocked`, `stack`,
`blockedMap`, `cycles`, `cyclesMap`, `sumArray` and `sum`. -/
structure Search where
  blocked : Nat → Bool
  stack : List Nat
  blockedMap : Nat → List Nat
  cycles : List (List Nat)
  cyclesMap : List (Nat → Int)
  sumArray : Nat → Int
  sum : Int

/-- `Unblock(v)`, with `fuel` bounding the depth of its recursion. The loop
reads `blockedMap[v]` once: a nested call is only made for a blocked vertex,
and `v` is unblocked first, so no nested call writes `blockedMap[v]`. -/
def unblock : Nat → (Nat → Bool) → (Nat → List Nat) → Nat →
    Except Fault ((Nat → Bool) × (Nat → List Nat))
  | 0, _, _, _ => .error .outOfFuel
  | fuel + 1, blocked, blockedMap, v => do
    let blocked := Function.update blocked v false
    let (blocked, blockedMap) ← (blockedMap v).foldlM (fun (acc : (Nat → Bool) × (Nat → List Nat)) n =>
      if acc.1 n then unblock fuel acc.1 acc.2 n else pure acc) (blocked, blockedMap)
    pure (blocked, Function.update blockedMap v [])

/-- The loop over `*stack` when `currentV` has an arc back to `startV`: every
vertex of the stack counts once more, and the stack is recorded as a cycle. -/
def recordCycle (s : Search) : Search :=
  let (sum, cycleBool, sumArray) := s.stack.foldl (fun (acc : Int × (Nat → Int) × (Nat → Int)) iter =>
    (acc.1 + 1, Function.update acc.2.1 iter 1, Function.update acc.2.2 iter (acc.2.2 iter + 1)))
    (s.sum, fun _ => 0, s.sumArray)
  { s with
    sum := sum
    sumArray := sumArray
    cycles := s.cycles ++ [s.stack]
    cyclesMap := s.cyclesMap ++ [cycleBool] }

/-- `FindCyclesRecur(component, explore, startV, currentV, …)`, with `fuel`
bounding the depth of its recursion: the state after the call, and `foundCycle`.
`explore` has one entry per vertex, so reading it at an arc past the last
vertex panics; the second loop over the successors of `currentV` only runs
once the first has read them all. -/
def findCyclesRecur (g : List (List Nat)) (explore : Nat → Bool) (startV : Nat) :
    Nat → Search → Nat → Except Fault (Search × Bool)
  | 0, _, _ => .error .outOfFuel
  | fuel + 1, s, currentV => do
    let s : Search := { s with
      stack := s.stack ++ [currentV]
      blocked := Function.update s.blocked currentV true }
    let (s, foundCycle) ← (g.getD currentV []).foldlM (fun (acc : Search × Bool) n =>
      if g.length ≤ n then .error .indexOutOfRange
      else if explore n = false then pure acc
      else if n = startV then pure (recordCycle acc.1, true)
      else if acc.1.blocked n = false then do
        let (s, ret) ← findCyclesRecur g explore startV fuel acc.1 n
        pure (s, acc.2 || ret)
      else pure acc) (s, false)
    let s ← if foundCycle then do
        let (blocked, blockedMap) ← unblock g.length s.blocked s.blockedMap currentV
        pure { s with blocked := blocked, blockedMap := blockedMap }
      else
        pure { s with blockedMap := (g.getD currentV []).foldl (fun bm v =>
          if explore v then Function.update bm v (bm v ++ [currentV]) else bm) s.blockedMap }
    pure ({ s with stack := s.stack.dropLast }, foundCycle)

/-- What `FindCycles` returns: `cycles`, `cyclesMap`, `sumArray` and `sum`. -/
structure Cycles where
  cycles : List (List Nat)
  cyclesMap : List (Nat → Int)
  sumArray : Nat → Int
  sum : Int

/-- The search from `v`, with a fresh stack, `blocked` and `blockedMap`, and
`explore[v] = false` after it. -/
def searchFrom (g : List (List Nat)) (acc : (Nat → Bool) × Cycles) (v : Nat) :
    Except Fault ((Nat → Bool) × Cycles) := do
  let (s, _) ← findCyclesRecur g acc.1 v g.length
    ⟨fun _ => false, [], fun _ => [], acc.2.cycles, acc.2.cyclesMap, acc.2.sumArray, acc.2.sum⟩ v
  pure (Function.update acc.1 v false, ⟨s.cycles, s.cyclesMap, s.sumArray, s.sum⟩)

/-- `FindCycles(component)`. -/
def findCycles (g : List (List Nat)) (component : SCC) : Except Fault Cycles :=
  match component.vertices with
  | [_] => pure ⟨[], [], fun _ => 0, 0⟩
  | [v₀, v₁] =>
    -- two vertices: the one cycle through both
    pure ⟨[[v₀, v₁]], [Function.update (Function.update (fun _ => 0) v₀ 1) v₁ 1],
      Function.update (Function.update (fun _ => 0) v₀ 1) v₁ 1, 2⟩
  | vertices => do
    let (_, c) ← vertices.foldlM (searchFrom g) (component.member, ⟨[], [], fun _ => 0, 0⟩)
    pure c

/-- The rows of `boolMap`, `sumArray`, `sum` and the marks of `BreakCycles`,
with `removeSetSize` of the enclosing `johnsonce`. -/
structure Breaking where
  boolMap : List (Nat → Int)
  sumArray : Nat → Int
  sum : Int
  invalidVertices : Nat → Bool
  removeSetSize : Nat

/-- The first vertex below `n` with the most cycles left (`max`). -/
def argMax (n : Nat) (sumArray : Nat → Int) : Nat :=
  (List.range n).foldl (fun max i => if sumArray i > sumArray max then i else max) 0

/-- The loop over `k` clearing one row: `sum -= row[k]`, `sumArray[k] -= row[k]`,
`row[k] = 0`. -/
def clearRow (n : Nat) (acc : Int × (Nat → Int)) (row : Nat → Int) : Int × (Nat → Int) × (Nat → Int) :=
  (List.range n).foldl (fun (a : Int × (Nat → Int) × (Nat → Int)) k =>
    (a.1 - a.2.2 k, Function.update a.2.1 k (a.2.1 k - a.2.2 k), Function.update a.2.2 k 0))
    (acc.1, acc.2, row)

/-- One pass of the loop of `BreakCycles`: clear every row through `max`,
count one more removed vertex, and mark `max` invalid. -/
def breakStep (n : Nat) (b : Breaking) : Breaking :=
  let max := argMax n b.sumArray
  let (rows, sumArray, sum) := b.boolMap.foldl (fun (acc : List (Nat → Int) × (Nat → Int) × Int) row =>
    if row max = 1 then
      let (sum, sumArray, row) := clearRow n (acc.2.2, acc.2.1) row
      (acc.1 ++ [row], sumArray, sum)
    else (acc.1 ++ [row], acc.2.1, acc.2.2)) ([], b.sumArray, b.sum)
  { b with
    boolMap := rows
    sumArray := sumArray
    sum := sum
    removeSetSize := b.removeSetSize + 1
    invalidVertices := Function.update b.invalidVertices max true }

/-- `BreakCycles(component)`: the marks and the new `removeSetSize`. -/
def breakCycles (g : List (List Nat)) (removeSetSize : Nat) (component : SCC) :
    Except Fault ((Nat → Bool) × Nat) := do
  let c ← findCycles g component
  let b ← whileM (fun b : Breaking => b.sum != 0) (fun b => pure (breakStep g.length b)) g.length
    ⟨c.cyclesMap, c.sumArray, c.sum, fun _ => false, removeSetSize⟩
  pure (b.invalidVertices, b.removeSetSize)

/-- `NewJohnsonCE(&g).Run()`: the number of vertices removed and the marks. -/
def run (g : List (List Nat)) : Except Fault (Nat × List Bool) := do
  let sccs ← TarjanSCC.getSCCs g
  let (removeSetSize, invalidVertices) ← sccs.foldlM (fun (acc : Nat × (Nat → Bool)) scc => do
    let (inv, removeSetSize) ← breakCycles g acc.1 scc
    pure (removeSetSize, scc.vertices.foldl (fun iv vertex => Function.update iv vertex (inv vertex)) acc.2))
    (0, fun _ => false)
  pure (removeSetSize, (List.range g.length).map invalidVertices)

example : run [[1], [2], [0]] = .ok (1, [true, false, false]) := by decide
example : run [[1], [0, 2], [1]] = .ok (1, [false, true, false]) := by decide
example : run [[1], [0]] = .ok (1, [true, false]) := by decide
example : run [[1], [2, 0], [0, 1]] = .ok (1, [false, true, false]) := by decide
example : run [[1, 3], [2], [0, 3], [1]] = .ok (1, [false, true, false, false]) := by decide

end JohnsonCE

end Nezha
