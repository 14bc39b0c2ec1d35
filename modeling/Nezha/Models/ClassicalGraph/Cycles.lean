import Nezha.Models.ClassicalGraph.AlGraph
import Nezha.Core.Digraph
import Nezha.Core.GoMap

/-!
# Cycle removal and cycle listing (`core/classical_graph.go`)

`RemoveCycles` asks gonum for the elementary cycles of a graph
(`graph.FindAllCycles`, closed vertex paths), records in `appears[v]` the
cycles through each vertex, and aborts a vertex on the most cycles. Its second
loop is meant to cover the cycles that vertex misses, but it adds
`cycles[i][0]` only when that vertex is already in `abortedTx`: it never adds
anything, so `RemoveCycles` returns at most one vertex.

`GetAllCycles` is a depth-first search over the vertices of `conn` that
records a cycle each time it meets a vertex on the current path, unless
`existCycle` reports it recorded already. `existCycle` answers true only for a
cycle among those recorded, so nothing is ever recorded.

gonum's `topo.DirectedCyclesIn` is not part of the repository: `removeCycles`
takes what `FindAllCycles` returns as a function of the graph. The two loops
`range appears` visit the keys in an order the runtime picks, a function of
the key list each. The map `visit` is never ranged over and is a function on
`Nat`, read as Go reads a missing key, as `0`. The recursion of
`findAllCycles` runs on fuel, one level per vertex of `conn`.
-/

namespace Nezha

namespace AlGraph

open Digraph

/-! ## `RemoveCycles` -/

/-- One pass of the inner loop filling `appears`: cycle `i` once under `v`. -/
def noteAppearance (i : Nat) (appears : GoMap Nat (List Nat)) (v : Nat) : GoMap Nat (List Nat) :=
  if !isExistForInt (appears.findD v []) i then appears.insert v (appears.findD v [] ++ [i]) else appears

/-- The loop filling `appears`: each cycle once under each of its vertices. -/
def appearsIn (cycles : List (List Nat)) : GoMap Nat (List Nat) :=
  (List.range cycles.length).foldl (fun appears i => (cycles.getD i []).foldl (noteAppearance i) appears)
    GoMap.empty

/-- One pass of the loop over the cycles `maxVertex` does not lie on (`hit`
lists those it lies on): `cycles[i][0]` is read, and appended when it is in
`abortedTx` already. -/
def coverStep (cycles : List (List Nat)) (hit : List Nat) (abortedTx : List Nat) (i : Nat) :
    Except Fault (List Nat) :=
  if !isExistForInt hit i then do
    let c0 ← sliceIndex (cycles.getD i []) 0
    pure (if isExistForInt abortedTx c0 then abortedTx ++ [c0] else abortedTx)
  else pure abortedTx

/-- `RemoveCycles(gSlice)`, with `findAllCycles` for
`graph.FindAllCycles(graph.CreateJohnsonGraph(gSlice))` and `range₁`, `range₂`
for the orders of the two loops over `appears`. -/
def removeCycles (findAllCycles : List (List Nat) → List (List Nat)) (range₁ range₂ : List Nat → List Nat)
    (gSlice : List (List Nat)) : Except Fault (List Nat) :=
  let cycles := findAllCycles gSlice
  let appears := appearsIn cycles
  if 0 < cycles.length then
    let max := (range₁ appears.keys).foldl (fun max v =>
      if (appears.findD v []).length > max then (appears.findD v []).length else max) 0
    let maxVertex := ((range₂ appears.keys).find? fun k => (appears.findD k []).length = max).getD 0
    if (appears.findD maxVertex []).length < cycles.length then
      (List.range cycles.length).foldlM (coverStep cycles (appears.findD maxVertex [])) [maxVertex]
    else pure [maxVertex]
  else pure []

example : removeCycles (fun _ => [[0, 1, 0], [2, 3, 2]]) id id [[1], [0], [3], [2]] = .ok [0] := by decide

theorem mem_noteAppearance_of_mem {i j v w : Nat} {appears : GoMap Nat (List Nat)}
    (h : j ∈ appears.findD w []) : j ∈ (noteAppearance i appears v).findD w [] := by
  unfold noteAppearance
  split
  · rw [GoMap.findD_insert]
    split
    · subst w
      exact List.mem_append_left _ h
    · exact h
  · exact h

theorem mem_noteAppearance_self (i : Nat) (appears : GoMap Nat (List Nat)) (v : Nat) :
    i ∈ (noteAppearance i appears v).findD v [] := by
  unfold noteAppearance
  split
  · simp [GoMap.findD_insert]
  · rename_i h
    simpa [isExistForInt] using h

theorem mem_foldl_noteAppearance_of_mem {i j w : Nat} (c : List Nat) {a : GoMap Nat (List Nat)}
    (h : j ∈ a.findD w []) : j ∈ (c.foldl (noteAppearance i) a).findD w [] :=
  foldl_invariant (P := fun a => j ∈ a.findD w []) c (fun _ _ _ h => mem_noteAppearance_of_mem h) a h

theorem mem_foldl_noteAppearance_self (i : Nat) {c : List Nat} (a : GoMap Nat (List Nat)) {v : Nat}
    (hv : v ∈ c) : i ∈ (c.foldl (noteAppearance i) a).findD v [] :=
  foldl_establishes (P := fun v a => i ∈ a.findD v []) (fun a v => mem_noteAppearance_self i a v)
    (fun _ _ _ h => mem_noteAppearance_of_mem h) c a v hv

/-- Every cycle is listed under each of its vertices: the pass over cycle `j`
lists it under its vertices, and every later pass keeps what is listed. -/
theorem mem_appearsIn {cycles : List (List Nat)} {i v : Nat} (hi : i < cycles.length)
    (hv : v ∈ cycles.getD i []) : i ∈ (appearsIn cycles).findD v [] := by
  unfold appearsIn
  exact foldl_establishes (P := fun j a => ∀ v ∈ cycles.getD j [], j ∈ a.findD v [])
    (fun a j v hv => mem_foldl_noteAppearance_self j a hv)
    (fun a x j h v hv => mem_foldl_noteAppearance_of_mem _ (h v hv))
    (List.range cycles.length) GoMap.empty i (List.mem_range.mpr hi) v hv

/-- A cycle `hit` misses never starts at `maxVertex`, when `hit` lists every cycle
through `maxVertex`: the loop leaves `[maxVertex]` as it is. -/
theorem coverStep_keeps {cycles : List (List Nat)} {hit : List Nat} {maxVertex : Nat}
    (hhit : ∀ i < cycles.length, maxVertex ∈ cycles.getD i [] → i ∈ hit) {i : Nat} (hi : i < cycles.length)
    {b : List Nat} (h : coverStep cycles hit [maxVertex] i = .ok b) : b = [maxVertex] := by
  unfold coverStep at h
  split at h
  · rename_i hmiss
    cases hc : sliceIndex (cycles.getD i []) 0 with
    | error e =>
      rw [hc] at h
      cases h
    | ok c0 =>
      rw [hc, except_ok_bind] at h
      cases h
      have hc0 : c0 ∈ cycles.getD i [] := by
        unfold sliceIndex at hc
        split at hc
        · cases hc
          exact List.mem_of_getElem? ‹_›
        · cases hc
      have hne : c0 ≠ maxVertex := by
        rintro rfl
        simp [isExistForInt, hhit i hi hc0] at hmiss
      simp [isExistForInt, hne]
  · cases h
    rfl

theorem coverStep_ok {cycles : List (List Nat)} (hne : ∀ c ∈ cycles, c ≠ []) (hit abortedTx : List Nat)
    {i : Nat} (hi : i < cycles.length) : ∃ b, coverStep cycles hit abortedTx i = .ok b := by
  have hmem : cycles.getD i [] ∈ cycles := by
    rw [List.getD_eq_getElem _ _ hi]
    exact List.getElem_mem hi
  obtain ⟨c0, rest, hc⟩ := List.exists_cons_of_ne_nil (hne _ hmem)
  unfold coverStep
  rw [hc]
  split
  · exact ⟨_, rfl⟩
  · exact ⟨_, rfl⟩

/-- The loop over the cycles missed leaves `abortedTx = [maxVertex]` as it is. -/
theorem foldlM_coverStep {cycles : List (List Nat)} {maxVertex : Nat} {abortedTx : List Nat}
    (h : (List.range cycles.length).foldlM (coverStep cycles ((appearsIn cycles).findD maxVertex []))
      [maxVertex] = .ok abortedTx) : abortedTx = [maxVertex] :=
  foldlM_invariant (P := fun a => a = [maxVertex]) _
    (fun _ _ hi _ ha hb => coverStep_keeps (fun _ hj hv => mem_appearsIn hj hv) (List.mem_range.mp hi) (ha ▸ hb))
    _ _ rfl h

/-- `RemoveCycles` aborts at most one vertex. -/
theorem length_removeCycles_le {findAllCycles : List (List Nat) → List (List Nat)}
    {range₁ range₂ : List Nat → List Nat} {gSlice : List (List Nat)} {abortedTx : List Nat}
    (h : removeCycles findAllCycles range₁ range₂ gSlice = .ok abortedTx) : abortedTx.length ≤ 1 := by
  unfold removeCycles at h
  dsimp only at h
  split at h
  · split at h
    · rw [foldlM_coverStep h]
      simp
    · cases h
      simp
  · cases h
    simp

/-- `RemoveCycles` returns when every path gonum returns is non-empty. -/
theorem removeCycles_ok {findAllCycles : List (List Nat) → List (List Nat)} {gSlice : List (List Nat)}
    (hne : ∀ c ∈ findAllCycles gSlice, c ≠ []) (range₁ range₂ : List Nat → List Nat) :
    ∃ abortedTx, removeCycles findAllCycles range₁ range₂ gSlice = .ok abortedTx := by
  unfold removeCycles
  dsimp only
  split
  · split
    · exact foldlM_ok _ (fun a i hi => coverStep_ok hne _ a (List.mem_range.mp hi)) _
    · exact ⟨_, rfl⟩
  · exact ⟨_, rfl⟩

/-- Two vertex-disjoint two-cycles, `0 ⇄ 1` and `2 ⇄ 3`. -/
def twoCycles : List (List Nat) := [[1], [0], [3], [2]]

/-- One vertex removed from `twoCycles` leaves one of its two cycles. -/
theorem not_acyclic_twoCycles {abortedTx : List Nat} (h : abortedTx.length ≤ 1) :
    ¬ Acyclic (Outside (Arc twoCycles) {v | v ∈ abortedTx}) := by
  have h01 : Arc twoCycles 0 1 ∧ Arc twoCycles 1 0 := ⟨⟨by decide, by decide⟩, ⟨by decide, by decide⟩⟩
  have h23 : Arc twoCycles 2 3 ∧ Arc twoCycles 3 2 := ⟨⟨by decide, by decide⟩, ⟨by decide, by decide⟩⟩
  match abortedTx, h with
  | [], _ => exact not_acyclic_outside h01.1 h01.2 (by simp) (by simp)
  | [v], _ =>
    -- the vertex removed lies on one cycle at most
    by_cases hv : v = 0 ∨ v = 1
    · exact not_acyclic_outside h23.1 h23.2 (by simp; omega) (by simp; omega)
    · exact not_acyclic_outside h01.1 h01.2 (by simp; omega) (by simp; omega)
  | _ :: _ :: _, h => exact absurd h (by simp)

/-- `RemoveCycles` returns at most one vertex, whatever gonum returns and in
whatever order the runtime ranges over `appears`. On two vertex-disjoint
two-cycles, a graph without self-loops, it returns whenever gonum's paths are
non-empty, as closed paths are, and one cycle survives the removal of what it
returns. -/
theorem removeCycles_misses_cycles :
    (∀ (findAllCycles : List (List Nat) → List (List Nat)) (range₁ range₂ : List Nat → List Nat)
        (gSlice : List (List Nat)) (abortedTx : List Nat),
      removeCycles findAllCycles range₁ range₂ gSlice = .ok abortedTx → abortedTx.length ≤ 1) ∧
    Loopless twoCycles ∧ InRange twoCycles ∧
    ∀ (findAllCycles : List (List Nat) → List (List Nat)) (range₁ range₂ : List Nat → List Nat),
      (∀ c ∈ findAllCycles twoCycles, c ≠ []) →
      ∃ abortedTx, removeCycles findAllCycles range₁ range₂ twoCycles = .ok abortedTx ∧
        ¬ Acyclic (Outside (Arc twoCycles) {v | v ∈ abortedTx}) := by
  have hloop : ∀ u < twoCycles.length, u ∉ twoCycles.getD u [] := by decide
  refine ⟨fun _ _ _ _ _ h => length_removeCycles_le h, fun u hu => hloop u hu.1 hu.2, by decide,
    fun findAllCycles range₁ range₂ hne => ?_⟩
  obtain ⟨abortedTx, h⟩ := removeCycles_ok hne range₁ range₂
  exact ⟨abortedTx, h, not_acyclic_twoCycles (length_removeCycles_le h)⟩

/-! ## `GetAllCycles` -/

/-- The variables `GetAllCycles` shares with its closures. -/
structure CycleSearch where
  cycles : GoMap Nat (List Nat)
  path : List Nat
  visit : Nat → Nat
  pathNum : Nat

/-- `existCycle(start, end)`: whether a recorded cycle of the length of
`path[start:end]` holds, counted with multiplicity, as many of its vertices. -/
def existCycle (s : CycleSearch) (start «end» : Nat) : Except Fault Bool :=
  let length := «end» - start
  (List.range s.pathNum).anyM fun i => do
    let c := s.cycles.findD i []
    if c.length = length then
      let flag ← (List.range' start length).foldlM (fun flag j => do
        let e ← sliceIndex s.path j
        pure (flag + c.count e)) 0
      pure (flag == length)
    else pure false

/-- The loop `for i := start; i <= k; i++` appending `path[i]` to `cycles[pathNum]`. -/
def recordPath (s : CycleSearch) (start k : Nat) : Except Fault (GoMap Nat (List Nat)) :=
  (List.range' start (k + 1 - start)).foldlM (fun cycles i => do
    let p ← sliceIndex s.path i
    pure (cycles.insert s.pathNum (cycles.findD s.pathNum [] ++ [p]))) s.cycles

/-- One pass of the loop over the arcs of `path[k]`, on the search state and
`start`, which the loop never resets. `recur` is the nested `findAllCycles`. -/
def visitArc (conn : List Nat) (recur : CycleSearch → Nat → Nat → Except Fault CycleSearch) (k : Nat)
    (acc : CycleSearch × Nat) (ver : ArcNode) : Except Fault (CycleSearch × Nat) :=
  let s := acc.1
  if !isExistForInt conn ver.adj then pure acc
  else if s.visit ver.adj = 1 then do
    -- an arc back into the path: the last position of its target
    let start ← (List.range k).foldlM (fun start i => do
      let p ← sliceIndex s.path i
      pure (if p = ver.adj then i else start)) acc.2
    if ← existCycle s start (k + 1) then do
      let cycles ← recordPath s start k
      pure ({ s with cycles := cycles, pathNum := s.pathNum + 1 }, start)
    else pure (s, start)
  else do
    let s ← recur s ver.adj (k + 1)
    pure (s, acc.2)

/-- `findAllCycles(v, k)`, with `fuel` bounding the depth of its recursion. -/
def findAllCycles (al : AlGraph) (conn : List Nat) : Nat → CycleSearch → Nat → Nat → Except Fault CycleSearch
  | 0, _, _, _ => .error .outOfFuel
  | fuel + 1, s, v, k => do
    let s := { s with visit := Function.update s.visit v 1 }
    let path ← sliceSet s.path k v
    let node ← sliceIndex al.vertices v
    let (s, _) ← node.first.foldlM (visitArc conn (findAllCycles al conn fuel) k) ({ s with path := path }, 0)
    let s := { s with visit := Function.update s.visit v 0 }
    let path ← sliceSet s.path k 0
    pure { s with path := path }

/-- `GetAllCycles(conn)`. A search from a vertex of `conn` only descends to
vertices of `conn` off the current path, so it is at most as deep as `conn` is long. -/
def getAllCycles (al : AlGraph) (conn : List Nat) : Except Fault (GoMap Nat (List Nat)) := do
  let s : CycleSearch := ⟨GoMap.empty, List.replicate (conn.length + 1) 0, fun _ => 0, 0⟩
  let s := { s with visit := conn.foldl (fun visit n => Function.update visit n 0) s.visit }
  let s ← conn.foldlM (fun s n =>
    if s.visit n = 0 then findAllCycles al conn (conn.length + 1) s n 0 else pure s) s
  pure s.cycles

/-- Nothing recorded yet. -/
def NoCycles (s : CycleSearch) : Prop := s.pathNum = 0 ∧ s.cycles = GoMap.empty

/-- With nothing recorded, `existCycle` has nothing to compare with. -/
theorem existCycle_of_noCycles {s : CycleSearch} (hs : NoCycles s) (start «end» : Nat) :
    existCycle s start «end» = .ok false := by
  simp [existCycle, hs.1, pure, Except.pure]

theorem visitArc_noCycles {conn : List Nat} {recur : CycleSearch → Nat → Nat → Except Fault CycleSearch}
    (hrec : ∀ s v k s', NoCycles s → recur s v k = .ok s' → NoCycles s') {k : Nat} {acc acc' : CycleSearch × Nat}
    (ver : ArcNode) (hacc : NoCycles acc.1) (h : visitArc conn recur k acc ver = .ok acc') : NoCycles acc'.1 := by
  unfold visitArc at h
  dsimp only at h
  split at h
  · cases h
    exact hacc
  split at h
  · -- an arc back into the path: `existCycle` finds nothing, so nothing is recorded
    obtain ⟨start, -, h⟩ := except_bind_eq_ok h
    rw [existCycle_of_noCycles hacc, except_ok_bind] at h
    cases h
    exact hacc
  · obtain ⟨s', hs', h⟩ := except_bind_eq_ok h
    cases h
    exact hrec _ _ _ _ hacc hs'

/-- The search records nothing: it only records a cycle `existCycle` finds among
those recorded. By induction on the fuel, through the loop over the arcs. -/
theorem findAllCycles_noCycles (al : AlGraph) (conn : List Nat) :
    ∀ fuel s v k s', NoCycles s → findAllCycles al conn fuel s v k = .ok s' → NoCycles s'
  | 0, _, _, _, _, _, h => by cases h
  | fuel + 1, s, v, k, s', hs, h => by
    unfold findAllCycles at h
    dsimp only at h
    obtain ⟨path, -, h⟩ := except_bind_eq_ok h
    obtain ⟨node, -, h⟩ := except_bind_eq_ok h
    obtain ⟨⟨r, start⟩, hloop, h⟩ := except_bind_eq_ok h
    have hr : NoCycles r := foldlM_invariant (P := fun acc => NoCycles acc.1) _
      (fun acc ver _ acc' hacc hstep => visitArc_noCycles (findAllCycles_noCycles al conn fuel) ver hacc hstep)
      _ (r, start) hs hloop
    obtain ⟨path', -, h⟩ := except_bind_eq_ok h
    cases h
    exact hr

/-- Whenever `GetAllCycles` returns, it returns the empty map. -/
theorem getAllCycles_eq_empty {al : AlGraph} {conn : List Nat} {cycles : GoMap Nat (List Nat)}
    (h : al.getAllCycles conn = .ok cycles) : cycles = GoMap.empty := by
  unfold getAllCycles at h
  dsimp only at h
  obtain ⟨s, hloop, h⟩ := except_bind_eq_ok h
  cases h
  refine (foldlM_invariant (P := NoCycles) conn (fun s n _ s' hs hstep => ?_) _ _ ⟨rfl, rfl⟩ hloop).2
  split at hstep
  · exact findAllCycles_noCycles al conn _ s n 0 s' hs hstep
  · cases hstep
    exact hs

/-- One two-cycle, `0 ⇄ 1`. -/
def oneCycle : List (List Nat) := [[1], [0]]

/-- Whenever `GetAllCycles` returns, on any graph and any `conn`, it returns
no cycle. On `Init` of the two-cycle `0 ⇄ 1`, with both vertices in `conn`, it
returns, and the cycle `0 → 1 → 0` of the subgraph `conn` induces is missing. -/
theorem getAllCycles_records_nothing :
    (∀ (al : AlGraph) (conn : List Nat) (cycles : GoMap Nat (List Nat)),
      al.getAllCycles conn = .ok cycles → cycles = GoMap.empty) ∧
    [0, 1].Nodup ∧ (∀ v ∈ [0, 1], v < oneCycle.length) ∧
    (init oneCycle).getAllCycles [0, 1] = .ok GoMap.empty ∧ Arc oneCycle 0 1 ∧ Arc oneCycle 1 0 :=
  ⟨fun _ _ _ h => getAllCycles_eq_empty h, by decide, by decide, by rfl, ⟨by decide, by decide⟩,
    ⟨by decide, by decide⟩⟩

end AlGraph

end Nezha
