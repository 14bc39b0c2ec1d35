import Nezha.Core.Loop
import Nezha.Core.Bytes
import Mathlib.Logic.Function.Basic

/-!
# Tarjan's strongly connected components (`graph/tarjanscc.go`)

`SCCUtil` is Tarjan's depth-first search. It numbers each vertex on discovery
(`disc`, with `-1` for a vertex not yet discovered), pushes it on `st`, and
lowers `low[u]` to the `low` of each tree child and the `disc` of each arc
into the stack. A vertex whose `low` stays its own `disc` is the root of a
component: the vertices above it on the stack, and itself, are popped and
emitted, sorted, as one `SCC`.

The slices indexed by vertices (`low`, `disc`, `stackMember`, `Member`) are
functions on `Nat`. Every index the code reads is a vertex when every arc ends
at one, so the entries past the last vertex are never read. The stack `st`
keeps Go's order, its top at the end. `SCCUtil` recurses once per vertex it
discovers, so its recursion is at most as deep as there are vertices, and
`SCC` runs it with that much fuel.
-/

namespace Nezha

/-- `SCC`: the vertices of a component, sorted, and its membership table. -/
structure SCC where
  vertices : List Nat
  member : Nat → Bool

/-- `tarjanscc`, the fields the search writes. -/
structure TarjanSCC where
  nscc : Nat
  time : Nat
  st : List Nat
  sccList : List SCC
  low : Nat → Int
  disc : Nat → Int
  stackMember : Nat → Bool

namespace TarjanSCC

/-- `NewTarjanSCC`: zeroed tables and an empty stack. -/
def newTarjanSCC : TarjanSCC := ⟨0, 0, [], [], fun _ => 0, fun _ => 0, fun _ => false⟩

/-- The pop loop `for w := -1; w != u; { w, st = st[len(st)-1], st[:len(st)-1]; … }`,
over the stack with its top first: the vertices popped, `u` last, and the rest.
Popping an empty stack is the index panic of `st[len(st)-1]`. -/
def popComponent (u : Nat) : List Nat → Except Fault (List Nat × List Nat)
  | [] => .error .indexOutOfRange
  | w :: rest =>
    if w = u then .ok ([w], rest)
    else do
      let (popped, rest) ← popComponent u rest
      pure (w :: popped, rest)

/-- `SCCUtil(u)`, with `fuel` bounding the depth of its recursion. -/
def sccUtil (g : List (List Nat)) : Nat → TarjanSCC → Nat → Except Fault TarjanSCC
  | 0, _, _ => .error .outOfFuel
  | fuel + 1, t, u => do
    let t : TarjanSCC := { t with
      low := Function.update t.low u t.time
      disc := Function.update t.disc u t.time
      time := t.time + 1
      stackMember := Function.update t.stackMember u true
      st := t.st ++ [u] }
    -- the depth-first traversal of the arcs of `u`
    let t ← (g.getD u []).foldlM (fun t v =>
      if t.disc v = -1 then do
        let t ← sccUtil g fuel t v
        pure { t with low := Function.update t.low u (min (t.low u) (t.low v)) }
      else if t.stackMember v then
        pure { t with low := Function.update t.low u (min (t.low u) (t.disc v)) }
      else pure t) t
    let (t, vertices, member) ← if t.low u = t.disc u then do
        let (vertices, rest) ← popComponent u t.st.reverse
        pure ({ t with
            st := rest.reverse
            stackMember := vertices.foldl (fun sm w => Function.update sm w false) t.stackMember },
          vertices, vertices.foldl (fun m w => Function.update m w true) fun _ => false)
      else pure (t, [], fun _ => false)
    if 0 < vertices.length then
      pure { t with sccList := t.sccList ++ [⟨sortInts vertices, member⟩], nscc := t.nscc + 1 }
    else pure t

/-- The first lines of `SCCUtil(u)`: `u` numbered and pushed. -/
def discover (t : TarjanSCC) (u : Nat) : TarjanSCC := { t with
  low := Function.update t.low u t.time
  disc := Function.update t.disc u t.time
  time := t.time + 1
  stackMember := Function.update t.stackMember u true
  st := t.st ++ [u] }

/-- One pass of the loop of `SCCUtil(u)` over the arcs of `u`. -/
def scanArc (g : List (List Nat)) (fuel u : Nat) (t : TarjanSCC) (v : Nat) : Except Fault TarjanSCC :=
  if t.disc v = -1 then do
    let t ← sccUtil g fuel t v
    pure { t with low := Function.update t.low u (min (t.low u) (t.low v)) }
  else if t.stackMember v then
    pure { t with low := Function.update t.low u (min (t.low u) (t.disc v)) }
  else pure t

/-- The end of `SCCUtil(u)`: the component rooted at `u` popped and appended,
if `u` is a root. -/
def emitComponent (u : Nat) (t : TarjanSCC) : Except Fault TarjanSCC := do
  let (t, vertices, member) ← if t.low u = t.disc u then do
      let (vertices, rest) ← popComponent u t.st.reverse
      pure ({ t with
          st := rest.reverse
          stackMember := vertices.foldl (fun sm w => Function.update sm w false) t.stackMember },
        vertices, vertices.foldl (fun m w => Function.update m w true) fun _ => false)
    else pure (t, [], fun _ => false)
  if 0 < vertices.length then
    pure { t with sccList := t.sccList ++ [⟨sortInts vertices, member⟩], nscc := t.nscc + 1 }
  else pure t

theorem sccUtil_succ (g : List (List Nat)) (fuel : Nat) (t : TarjanSCC) (u : Nat) :
    sccUtil g (fuel + 1) t u = (g.getD u []).foldlM (scanArc g fuel u) (discover t u) >>= emitComponent u :=
  rfl

/-- `SCC()`: every vertex undiscovered, then a search from each vertex still
undiscovered, in order. -/
def scc (g : List (List Nat)) (t : TarjanSCC) : Except Fault TarjanSCC :=
  let t := (List.range g.length).foldl (fun t i =>
    { t with low := Function.update t.low i (-1), disc := Function.update t.disc i (-1) }) t
  (List.range g.length).foldlM (fun t i =>
    if t.disc i = -1 then sccUtil g g.length t i else pure t) t

/-- The first loop of `SCC()`: `low` and `disc` at `-1` for every vertex. -/
def resetTables (n : Nat) (t : TarjanSCC) : TarjanSCC :=
  (List.range n).foldl (fun t i =>
    { t with low := Function.update t.low i (-1), disc := Function.update t.disc i (-1) }) t

/-- One pass of the second loop of `SCC()`. -/
def visitRoot (g : List (List Nat)) (t : TarjanSCC) (i : Nat) : Except Fault TarjanSCC :=
  if t.disc i = -1 then sccUtil g g.length t i else pure t

theorem scc_eq (g : List (List Nat)) (t : TarjanSCC) :
    scc g t = (List.range g.length).foldlM (visitRoot g) (resetTables g.length t) :=
  rfl

/-- `NewTarjanSCC(&g)`, `SCC()` and `GetSCCs()`. -/
def getSCCs (g : List (List Nat)) : Except Fault (List SCC) := do
  let t ← scc g newTarjanSCC
  pure t.sccList

/-- The vertex lists of the components, for evaluation. -/
def sccVertices (g : List (List Nat)) : Except Fault (List (List Nat)) := do
  let sccs ← getSCCs g
  pure (sccs.map SCC.vertices)

example : sccVertices [[1], [2], [0]] = .ok [[0, 1, 2]] := by decide
example : sccVertices [[], []] = .ok [[0], [1]] := by decide
example : sccVertices [[1, 3], [2], [0, 3], [1]] = .ok [[0, 1, 2, 3]] := by decide
example : sccVertices [[1], [], [1, 0]] = .ok [[1], [0], [2]] := by decide

end TarjanSCC

end Nezha
