import Nezha.Models.Graph.JohnsonSearch
import Nezha.Models.Graph.JohnsonBreak
import Nezha.Core.Cycle

/-!
# `FindCycles` lists every elementary cycle of a component once (`graph/johnsonce.go`)

`FindCycles` runs the search from each vertex of the component in turn, with
the vertices already used as a start no longer explored. The search from `m`
records exactly the elementary cycles that start at `m` and avoid the earlier
starts (`searchFrom_spec`), so after the loop every elementary cycle inside the
component is listed, as its rotation that starts at its first vertex in the
order of the component. Two listed cycles are never rotations of each other:
within one search they start at the same vertex and are distinct lists, and a
cycle of a later search avoids the start of every earlier one. The records of
`recordCycle` add up to the 0/1 matrix of the cycles and its column sums.

A component of two vertices is a two-cycle, by the arcs both ways that its
strong connection forces in a graph without self-loops. From the matrix of
either case `BreakCycles` runs its loop to the end.
-/

namespace Nezha

namespace JohnsonCE

open Relation Digraph

/-- The state each search starts from: nothing blocked, an empty stack and
empty lists, with the cycles recorded so far. -/
def freshSearch (c : Cycles) : Search :=
  ⟨fun _ => false, [], fun _ => [], c.cycles, c.cyclesMap, c.sumArray, c.sum⟩

section Search

variable {g : List (List Nat)} {explore : Nat → Bool} {startV m : Nat} {c : List Nat}

theorem blocking_fresh : Blocking g explore startV (fun _ => false) [] (fun _ => []) where
  head := by simp
  chain := List.isChain_nil
  nodup := List.nodup_nil
  blocked_explore := by simp
  stack_blocked := by simp
  map_arc := by simp
  map_nil := fun _ _ => rfl
  map_above := by simp
  escape := fun h => absurd rfl h
  succ := by simp
  stale := fun h => absurd rfl h

/-- The search from `v` records, after the cycles so far, exactly the cycles
through `v` among the explored vertices that start at `v`. -/
theorem searchFrom_spec (hR : InRange g) (hloop : Loopless g) (hE : ∀ x, explore x = true → x < g.length) {v : Nat}
    (hv : explore v = true) (acc : Cycles) :
    ∃ c' N, searchFrom g (explore, acc) v = .ok (Function.update explore v false, c') ∧
      Appended (freshSearch acc) (freshSearch c') N ∧ (∀ d, d ∈ N ↔ Extends g explore v [v] d) ∧
      (NoParallel g → N.Nodup) := by
  have hp : Pushable g explore v (freshSearch acc) v :=
    ⟨blocking_fresh, rfl, hv, by simp [freshSearch], fun _ => ⟨rfl, fun _ => rfl⟩⟩
  obtain ⟨r, hr, hS⟩ := findCyclesRecur_spec hR hloop hE g.length (freshSearch acc) v hp (by simp [freshSearch])
  obtain ⟨N, happ, hiff, hnd, -⟩ := hS.cycles
  refine ⟨⟨r.1.cycles, r.1.cyclesMap, r.1.sumArray, r.1.sum⟩, N, ?_, happ.frame rfl rfl rfl rfl,
    by simpa [freshSearch] using hiff, hnd⟩
  simp only [searchFrom, freshSearch] at hr ⊢
  rw [hr]
  rfl

/-- Every vertex after the first of a path is the end of an arc. -/
theorem explored_of_chain : ∀ {l : List Nat} {a : Nat}, (a :: l).IsChain (Step g explore) →
    ∀ x ∈ l, explore x = true
  | [], _, _, x, hx => absurd hx List.not_mem_nil
  | b :: l, a, h, x, hx => by
    rw [List.isChain_cons_cons] at h
    rcases List.mem_cons.mp hx with rfl | hx
    · exact h.1.2
    · exact explored_of_chain h.2 x hx

/-- A cycle of the search from `m` is an elementary cycle through explored
vertices that starts at `m`. -/
theorem Extends.isElementaryCycle {S : Set Nat} (h : Extends g explore m [m] c) (hm : explore m = true)
    (hS : ∀ x, explore x = true → x ∈ S) :
    IsElementaryCycle (Arc g) S c ∧ c.head? = some m ∧ ∀ x ∈ c, explore x = true := by
  obtain ⟨⟨rest, rfl⟩, hnd, hchain, hclose⟩ := h
  have hex : ∀ x ∈ [m] ++ rest, explore x = true := fun x hx => by
    rcases List.mem_cons.mp hx with rfl | hx
    · exact hm
    · exact explored_of_chain hchain x hx
  refine ⟨⟨by simp, hnd, fun x hx => hS x (hex x hx), hchain.imp fun _ _ h => h.1, ?_⟩, rfl, hex⟩
  intro a ha b hb
  obtain rfl : b = m := by simpa using hb.symm
  exact (hclose a ha).1

/-- An elementary cycle through explored vertices that starts at `m` is a cycle
of the search from `m`. -/
theorem extends_of_isElementaryCycle {S : Set Nat} (h : IsElementaryCycle (Arc g) S c)
    (hex : ∀ x ∈ c, explore x = true) (hhead : c.head? = some m) : Extends g explore m [m] c := by
  cases c with
  | nil => simp at hhead
  | cons a rest =>
    obtain rfl : a = m := by simpa using hhead
    refine ⟨⟨rest, rfl⟩, h.nodup, h.chain.imp_of_mem_imp fun x y _ hy hxy => ⟨hxy, hex y hy⟩,
      fun x hx => ⟨h.closing x hx a rfl, hex a List.mem_cons_self⟩⟩

end Search

/-- What `FindCycles` returns for the vertex list `V`: every listed cycle an
elementary cycle inside `V`, every such cycle listed up to rotation, and none
twice without parallel arcs, with the 0/1 rows and the column sums of the cycles. -/
structure Enumerates (g : List (List Nat)) (V : List Nat) (r : Cycles) : Prop where
  sound : ∀ c ∈ r.cycles, IsElementaryCycle (Arc g) {x | x ∈ V} c
  complete : ∀ c, IsElementaryCycle (Arc g) {x | x ∈ V} c → ∃ d ∈ r.cycles, d ~r c
  unique : NoParallel g → r.cycles.Pairwise fun c d => ¬ c ~r d
  rows : r.cyclesMap = r.cycles.map indicator
  column : ∀ x, r.sumArray x = (r.cycles.map fun c => (c.count x : Int)).sum
  total : r.sum = (r.cycles.map fun c => (c.length : Int)).sum

/-- Where the loop of `FindCycles` over the vertices `V` stands, with the
starts `done` passed: the cycles through a start so far, as `Enumerates` says
of all of them at the end. -/
structure Enumerated (g : List (List Nat)) (V done : List Nat) (acc : (Nat → Bool) × Cycles) : Prop where
  explore_iff : ∀ x, acc.1 x = true ↔ x ∈ V ∧ x ∉ done
  sound : ∀ c ∈ acc.2.cycles, IsElementaryCycle (Arc g) {x | x ∈ V} c
  used : ∀ c ∈ acc.2.cycles, ∃ x ∈ c, x ∈ done
  complete : ∀ c, IsElementaryCycle (Arc g) {x | x ∈ V} c → (∃ x ∈ c, x ∈ done) →
    ∃ d ∈ acc.2.cycles, d ~r c
  unique : NoParallel g → acc.2.cycles.Pairwise fun c d => ¬ c ~r d
  rows : acc.2.cyclesMap = acc.2.cycles.map indicator
  column : ∀ x, acc.2.sumArray x = (acc.2.cycles.map fun c => (c.count x : Int)).sum
  total : acc.2.sum = (acc.2.cycles.map fun c => (c.length : Int)).sum

section Enumerated

variable {g : List (List Nat)} {V : List Nat}

theorem Enumerated.init {member : Nat → Bool} (hmem : ∀ x, member x = true ↔ x ∈ V) :
    Enumerated g V [] (member, ⟨[], [], fun _ => 0, 0⟩) where
  explore_iff := fun x => by simp [hmem]
  sound := by simp
  used := by simp
  complete := fun _ _ ⟨_, _, hx⟩ => absurd hx List.not_mem_nil
  unique := fun _ => List.Pairwise.nil
  rows := rfl
  column := fun _ => rfl
  total := rfl

/-- The search from the next vertex `m` of `V`. -/
theorem Enumerated.step (hR : InRange g) (hloop : Loopless g) (hV : ∀ x ∈ V, x < g.length) (hnd : V.Nodup)
    {pre suf : List Nat} {m : Nat} {acc : (Nat → Bool) × Cycles} (hsplit : V = pre ++ m :: suf)
    (h : Enumerated g V pre acc) :
    ∃ acc', searchFrom g acc m = .ok acc' ∧ Enumerated g V (pre ++ [m]) acc' := by
  have hmV : m ∈ V := by rw [hsplit]; simp
  have hmpre : m ∉ pre := fun hm => by
    rw [hsplit] at hnd
    exact (List.nodup_append.mp hnd).2.2 m hm m List.mem_cons_self rfl
  have hE : ∀ x, acc.1 x = true → x < g.length := fun x hx => hV x ((h.explore_iff x).mp hx).1
  have hS : ∀ x, acc.1 x = true → x ∈ {x | x ∈ V} := fun x hx => ((h.explore_iff x).mp hx).1
  obtain ⟨c', N, hsf, happ, hiff, hNnd⟩ :=
    searchFrom_spec hR hloop hE ((h.explore_iff m).mpr ⟨hmV, hmpre⟩) acc.2
  have hN : ∀ d ∈ N, IsElementaryCycle (Arc g) {x | x ∈ V} d ∧ d.head? = some m ∧ ∀ x ∈ d, acc.1 x = true :=
    fun d hd => ((hiff d).mp hd).isElementaryCycle ((h.explore_iff m).mpr ⟨hmV, hmpre⟩) hS
  have hcyc : c'.cycles = acc.2.cycles ++ N := happ.cycles
  have hmap : c'.cyclesMap = acc.2.cyclesMap ++ N.map indicator := happ.cyclesMap
  have hcol : ∀ x, c'.sumArray x = acc.2.sumArray x + (N.map fun c => (c.count x : Int)).sum :=
    happ.sumArray
  have htot : c'.sum = acc.2.sum + (N.map fun c => (c.length : Int)).sum := happ.sum
  refine ⟨_, hsf, fun x => ?_, fun d hd => ?_, fun d hd => ?_, fun d hd hx => ?_, fun hnp => ?_, ?_,
    fun x => ?_, ?_⟩
  · by_cases hxm : x = m
    · subst hxm
      simp
    · show Function.update acc.1 m false x = true ↔ _
      rw [Function.update_of_ne hxm, h.explore_iff]
      simp [hxm]
  · rw [hcyc] at hd
    rcases List.mem_append.mp hd with hd | hd
    · exact h.sound d hd
    · exact (hN d hd).1
  · rw [hcyc] at hd
    rcases List.mem_append.mp hd with hd | hd
    · obtain ⟨x, hxd, hx⟩ := h.used d hd
      exact ⟨x, hxd, List.mem_append_left _ hx⟩
    · exact ⟨m, List.mem_of_mem_head? (hN d hd).2.1, List.mem_append_right _ (List.mem_singleton_self m)⟩
  · rw [hcyc]
    by_cases hold : ∃ x ∈ d, x ∈ pre
    · obtain ⟨e, he, hed⟩ := h.complete d hd hold
      exact ⟨e, List.mem_append_left _ he, hed⟩
    · -- a cycle through `m` and no earlier start: its rotation starting at `m` is searched from `m`
      simp only [not_exists, not_and] at hold
      obtain ⟨x, hxd, hx⟩ := hx
      have hxm : x = m := by
        rcases List.mem_append.mp hx with hx | hx
        · exact absurd hx (hold x hxd)
        · exact List.mem_singleton.mp hx
      subst hxm
      obtain ⟨k, hk⟩ := exists_rotate_head hxd
      have hex : ∀ y ∈ d.rotate k, acc.1 y = true := fun y hy => by
        have hy' := List.mem_rotate.mp hy
        exact (h.explore_iff y).mpr ⟨hd.subset y hy', hold y hy'⟩
      refine ⟨d.rotate k, List.mem_append_right _ ((hiff _).mpr ?_), List.IsRotated.symm ⟨k, rfl⟩⟩
      exact extends_of_isElementaryCycle (hd.rotate k) hex hk
  · rw [hcyc, List.pairwise_append]
    refine ⟨h.unique hnp, ?_, fun a ha b hb hab => ?_⟩
    · -- two cycles of the search from `m` both start at `m`
      refine (hNnd hnp).imp_of_mem fun {a b} ha hb hne hab => hne ?_
      exact eq_of_isRotated_of_head (hN a ha).1.nodup hab ((hN a ha).2.1.trans (hN b hb).2.1.symm)
    · -- an earlier cycle holds an earlier start, which the search from `m` does not explore
      obtain ⟨x, hxa, hx⟩ := h.used a ha
      have := ((h.explore_iff x).mp ((hN b hb).2.2 x (hab.mem_iff.mp hxa))).2
      exact this hx
  · show c'.cyclesMap = c'.cycles.map indicator
    rw [hmap, h.rows, hcyc, List.map_append]
  · show c'.sumArray x = (c'.cycles.map fun c => (c.count x : Int)).sum
    rw [hcol, h.column, hcyc, List.map_append, List.sum_append]
  · show c'.sum = (c'.cycles.map fun c => (c.length : Int)).sum
    rw [htot, h.total, hcyc, List.map_append, List.sum_append]

/-- The loop of `FindCycles` over a component of three vertices or more. -/
theorem enumerates_of_foldlM (hR : InRange g) (hloop : Loopless g) (hV : ∀ x ∈ V, x < g.length) (hnd : V.Nodup)
    {member : Nat → Bool} (hmem : ∀ x, member x = true ↔ x ∈ V) :
    ∃ acc, V.foldlM (searchFrom g) (member, ⟨[], [], fun _ => 0, 0⟩) = .ok acc ∧ Enumerates g V acc.2 := by
  obtain ⟨acc, hacc, h⟩ := foldlM_ok_of_step (P := Enumerated g V) V
    (fun _ _ _ _ hsplit h => h.step hR hloop hV hnd hsplit) _ (Enumerated.init hmem)
  refine ⟨acc, hacc, h.sound, fun c hc => h.complete c hc ?_, h.unique, h.rows, h.column, h.total⟩
  obtain ⟨x, hx⟩ := List.exists_mem_of_ne_nil c hc.ne_nil
  exact ⟨x, hx, hc.subset x hx⟩

end Enumerated

section Component

variable {g : List (List Nat)} {V : List Nat}

/-- Each vertex of a strongly connected component of two vertices or more has
an arc to another one, so it is a vertex of the graph. -/
theorem lt_length_of_component (hnd : V.Nodup)
    (hcomp : ∀ a ∈ V, ∀ b, b ∈ V ↔ SameComponent (Arc g) a b) (htwo : 2 ≤ V.length) :
    ∀ a ∈ V, a < g.length := by
  intro a ha
  obtain ⟨b, hb, hba⟩ : ∃ b ∈ V, b ≠ a := by
    by_contra hall
    simp only [not_exists, not_and, not_not] at hall
    have hlen := (hnd.subperm fun x hx => List.mem_singleton.mpr (hall x hx)).length_le
    simp only [List.length_singleton] at hlen
    omega
  rcases ReflTransGen.cases_head ((hcomp a ha b).mp hb).1 with hab | ⟨c, hac, -⟩
  · exact absurd hab.symm hba
  · exact hac.1

/-- In a graph without self-loops, a strongly connected component of two
vertices has the arcs both ways: the first arc of a path from one to the other
stays in the component and is no self-loop. -/
theorem arc_of_pair (hloop : Loopless g) (hcomp : ∀ x ∈ V, ∀ y, y ∈ V ↔ SameComponent (Arc g) x y)
    {a b : Nat} (ha : a ∈ V) (hb : b ∈ V) (hab : a ≠ b) (hV : ∀ x ∈ V, x = a ∨ x = b) : Arc g a b := by
  have hsame := (hcomp a ha b).mp hb
  rcases ReflTransGen.cases_head hsame.1 with h | ⟨c, hac, hcb⟩
  · exact absurd h hab
  · have hc : c ∈ V := (hcomp a ha c).mpr ⟨.single hac, hcb.trans hsame.2⟩
    rcases hV c hc with rfl | rfl
    · exact absurd hac (hloop c)
    · exact hac

/-- Without self-loops, an elementary cycle inside two vertices is a rotation of
the two-cycle through them. -/
theorem isRotated_pair (hloop : Loopless g) {a b : Nat} {c : List Nat}
    (hc : IsElementaryCycle (Arc g) {x | x ∈ [a, b]} c) : [a, b] ~r c := by
  have hlen : c.length ≤ 2 := by
    simpa using (hc.nodup.subperm fun x hx => hc.subset x hx).length_le
  match c, hlen, hc with
  | [], _, hc => exact absurd rfl hc.ne_nil
  | [x], _, hc => exact absurd (hc.closing x rfl x rfl) (hloop x)
  | [x, y], _, hc =>
    have hxy : x ≠ y := by simpa using hc.nodup
    have hx : x = a ∨ x = b := by simpa using hc.subset x (by simp)
    have hy : y = a ∨ y = b := by simpa using hc.subset y (by simp)
    rcases hx with rfl | rfl
    · rcases hy with rfl | rfl
      · exact absurd rfl hxy
      · exact List.IsRotated.refl _
    · rcases hy with rfl | rfl
      · exact ⟨1, rfl⟩
      · exact absurd rfl hxy
  | _ :: _ :: _ :: _, hlen, _ => simp at hlen

/-- The row of the two-vertex case is the indicator of the two-cycle. -/
theorem update_update_eq_indicator (a b : Nat) :
    Function.update (Function.update (fun _ => (0 : Int)) a 1) b 1 = indicator [a, b] := by
  funext x
  by_cases hxb : x = b
  · subst hxb
    simp [indicator]
  · by_cases hxa : x = a
    · subst hxa
      simp [indicator, hxb]
    · simp [indicator, hxa, hxb]

theorem findCycles_pair {C : SCC} {a b : Nat} (h : C.vertices = [a, b]) :
    findCycles g C = .ok ⟨[[a, b]], [indicator [a, b]], indicator [a, b], 2⟩ := by
  simp only [findCycles, h, update_update_eq_indicator]
  rfl

theorem findCycles_of_three {C : SCC} {a b c : Nat} {rest : List Nat} (h : C.vertices = a :: b :: c :: rest) :
    findCycles g C =
      (do let (_, r) ← C.vertices.foldlM (searchFrom g) (C.member, ⟨[], [], fun _ => 0, 0⟩); pure r) := by
  simp only [findCycles, h]

theorem count_eq_indicator {c : List Nat} (hnd : c.Nodup) (x : Nat) : (c.count x : Int) = indicator c x := by
  unfold indicator
  split_ifs with hx
  · rw [List.count_eq_one_of_mem hnd hx, Nat.cast_one]
  · rw [List.count_eq_zero_of_not_mem hx, Nat.cast_zero]

/-- The special case of two vertices returns the two-cycle, which is all there is. -/
theorem enumerates_pair (hloop : Loopless g) {a b : Nat}
    (hcomp : ∀ x ∈ [a, b], ∀ y, y ∈ [a, b] ↔ SameComponent (Arc g) x y) (hab : a ≠ b) :
    Enumerates g [a, b] ⟨[[a, b]], [indicator [a, b]], indicator [a, b], 2⟩ where
  sound := by
    intro c hc
    obtain rfl := List.mem_singleton.mp hc
    have hV : ∀ x ∈ [a, b], x = a ∨ x = b := by simp
    have hab' : Arc g a b := arc_of_pair hloop hcomp (by simp) (by simp) hab hV
    have hba : Arc g b a := arc_of_pair hloop hcomp (by simp) (by simp) (Ne.symm hab)
      fun x hx => (hV x hx).symm
    refine ⟨by simp, by simp [hab], fun x hx => hx, by simp [hab'], ?_⟩
    simp only [List.getLast?_cons_cons, List.getLast?_singleton, Option.mem_def, Option.some.injEq,
      List.head?_cons]
    rintro x rfl y rfl
    exact hba
  complete := fun c hc => ⟨[a, b], List.mem_singleton_self _, isRotated_pair hloop hc⟩
  unique := fun _ => List.pairwise_singleton _ _
  rows := rfl
  column := fun x => by
    show indicator [a, b] x = _
    rw [List.map_singleton, List.sum_singleton, count_eq_indicator (by simp [hab])]
  total := rfl

/-- Each search of the loop, or the special case of two vertices, gives what
`Enumerates` says. -/
theorem findCycles_enumerates (hR : InRange g) (hloop : Loopless g) {C : SCC} (hnd : C.vertices.Nodup)
    (hcomp : ∀ a ∈ C.vertices, ∀ b, b ∈ C.vertices ↔ SameComponent (Arc g) a b)
    (hmem : ∀ v, C.member v = true ↔ v ∈ C.vertices) (htwo : 2 ≤ C.vertices.length) :
    ∃ r, findCycles g C = .ok r ∧ Enumerates g C.vertices r := by
  have hV := lt_length_of_component hnd hcomp htwo
  rcases hshape : C.vertices with _ | ⟨a, _ | ⟨b, _ | ⟨c, rest⟩⟩⟩
  · rw [hshape] at htwo
    simp at htwo
  · rw [hshape] at htwo
    simp at htwo
  · rw [hshape] at hnd hcomp
    exact ⟨_, findCycles_pair hshape, enumerates_pair hloop hcomp (by simpa using hnd)⟩
  · obtain ⟨acc, hacc, hE⟩ := enumerates_of_foldlM hR hloop hV hnd hmem
    refine ⟨acc.2, ?_, hshape ▸ hE⟩
    rw [findCycles_of_three hshape, hacc]
    rfl

end Component

section Tally

variable {g : List (List Nat)} {V : List Nat} {n : Nat} {r : Cycles}

/-- The row of a cycle without repeats through vertices below `n` sums to its length. -/
theorem sum_indicator {c : List Nat} (hnd : c.Nodup) (hc : ∀ x ∈ c, x < n) :
    ∑ x ∈ Finset.range n, indicator c x = c.length := by
  have hset : (Finset.range n).filter (· ∈ c) = c.toFinset := by
    ext x
    simp only [Finset.mem_filter, Finset.mem_range, List.mem_toFinset]
    exact ⟨fun h => h.2, fun h => ⟨hc x h, h⟩⟩
  simp only [indicator]
  rw [Finset.sum_boole, hset, List.toFinset_card_of_nodup hnd]

/-- Over cycles without repeats, the counts of a vertex add up to the number of
rows that hold it. -/
theorem sum_count_eq_countP : ∀ {L : List (List Nat)}, (∀ c ∈ L, c.Nodup) → ∀ x,
    (L.map fun c => (c.count x : Int)).sum = ((L.map indicator).countP fun row => row x = 1 : Nat)
  | [], _, _ => rfl
  | c :: L, hL, x => by
    rw [List.map_cons, List.sum_cons, List.map_cons, List.countP_cons, Nat.cast_add,
      count_eq_indicator (hL c List.mem_cons_self) x,
      sum_count_eq_countP (fun d hd => hL d (List.mem_cons_of_mem c hd)) x]
    by_cases hx : x ∈ c <;> simp [indicator, hx, add_comm]

theorem Enumerates.column_rows (h : Enumerates g V r) (x : Nat) :
    r.sumArray x = (r.cyclesMap.map fun row => row x).sum := by
  rw [h.column, h.rows, List.map_map]
  exact congrArg List.sum (List.map_congr_left fun c hc => count_eq_indicator (h.sound c hc).nodup x)

theorem Enumerates.sumArray_eq (h : Enumerates g V r) (x : Nat) :
    r.sumArray x = (r.cyclesMap.countP fun row => row x = 1 : Nat) := by
  rw [h.column, h.rows]
  exact sum_count_eq_countP (fun c hc => (h.sound c hc).nodup) x

theorem Enumerates.sum_eq (h : Enumerates g V r) (hV : ∀ x ∈ V, x < n) :
    r.sum = (r.cyclesMap.map fun row => ∑ x ∈ Finset.range n, row x).sum := by
  rw [h.total, h.rows, List.map_map]
  refine congrArg List.sum (List.map_congr_left fun c hc => ?_)
  have hcyc := h.sound c hc
  exact (sum_indicator hcyc.nodup fun x hx => hV x (hcyc.subset x hx)).symm

/-- The matrix `FindCycles` returns is what `BreakCycles` needs: 0/1 rows,
column sums, and their total. -/
theorem Enumerates.tallied (h : Enumerates g V r) (hV : ∀ x ∈ V, x < n) (inv : Nat → Bool) (k : Nat) :
    Tallied n ⟨r.cyclesMap, r.sumArray, r.sum, inv, k⟩ where
  rows := fun row hrow x => by
    obtain ⟨c, hc, rfl⟩ := List.mem_map.mp (h.rows ▸ hrow : row ∈ r.cycles.map indicator)
    unfold indicator
    split_ifs with hx
    · exact Or.inr ⟨rfl, hV x ((h.sound c hc).subset x hx)⟩
    · exact Or.inl rfl
  column := h.column_rows
  total := calc
    r.sum = (r.cyclesMap.map fun row => ∑ x ∈ Finset.range n, row x).sum := h.sum_eq hV
    _ = ∑ x ∈ Finset.range n, (r.cyclesMap.map fun row => row x).sum :=
      (sum_range_list_sum (fun (row : Nat → Int) x => row x) r.cyclesMap).symm
    _ = ∑ x ∈ Finset.range n, r.sumArray x := Finset.sum_congr rfl fun x _ => (h.column_rows x).symm

theorem breakCycles_of_enumerates {C : SCC} (hr : findCycles g C = .ok r) (h : Enumerates g V r)
    (hV : ∀ x ∈ V, x < g.length) (k : Nat) : ∃ res, breakCycles g k C = .ok res := by
  obtain ⟨b, hb⟩ := breakLoop_ok (h.tallied hV (fun _ => false) k)
  refine ⟨(b.invalidVertices, b.removeSetSize), ?_⟩
  simp only [breakCycles, hr, bind, Except.bind, hb]
  rfl

end Tally

/-- Johnson's enumeration is sound and complete. On a graph without self-loops
whose arcs stay among its vertices (Go reads `explore[n]` for every arc `n`, and
`explore` has one entry per vertex), for a strongly connected component of two
vertices or more, `FindCycles`
returns elementary cycles inside the component, every elementary cycle inside it
up to rotation, each exactly once without parallel arcs, the 0/1 rows of the
cycles, the number of rows through each vertex, and the total of the rows; from
these `BreakCycles` runs its loop to the end. -/
theorem findCycles_sound_complete (g : List (List Nat)) (hR : InRange g) (hloop : Loopless g) (C : SCC)
    (hnd : C.vertices.Nodup) (hcomp : ∀ a ∈ C.vertices, ∀ b, b ∈ C.vertices ↔ SameComponent (Arc g) a b)
    (hmem : ∀ v, C.member v = true ↔ v ∈ C.vertices) (htwo : 2 ≤ C.vertices.length) :
    ∃ r, findCycles g C = .ok r ∧
      (∀ c ∈ r.cycles, IsElementaryCycle (Arc g) {v | v ∈ C.vertices} c) ∧
      (∀ c, IsElementaryCycle (Arc g) {v | v ∈ C.vertices} c →
        (∃ d ∈ r.cycles, d ~r c) ∧ (NoParallel g → r.cycles.countP (fun d => d ~r c) = 1)) ∧
      r.cyclesMap = r.cycles.map indicator ∧
      (∀ v, r.sumArray v = (r.cyclesMap.countP fun row => row v = 1 : Nat)) ∧
      r.sum = (r.cyclesMap.map fun row => ∑ v ∈ Finset.range g.length, row v).sum ∧
      ∀ removeSetSize, ∃ res, breakCycles g removeSetSize C = .ok res := by
  have hV := lt_length_of_component hnd hcomp htwo
  obtain ⟨r, hr, h⟩ := findCycles_enumerates hR hloop hnd hcomp hmem htwo
  refine ⟨r, hr, h.sound, fun c hc => ⟨h.complete c hc, fun hnp => ?_⟩, h.rows, h.sumArray_eq,
    h.sum_eq hV, breakCycles_of_enumerates hr h hV⟩
  exact countP_isRotated_eq_one (h.unique hnp) (h.complete c hc)

/-- The three-cycle 0 → 1 → 2 → 0 is one component, and its one elementary
cycle is the one `FindCycles` lists. -/
theorem threeCycle_only_cycle :
    InRange [[1], [2], [0]] ∧ Loopless [[1], [2], [0]] ∧
      (∀ a ∈ [0, 1, 2], ∀ b, b ∈ [0, 1, 2] ↔ SameComponent (Arc [[1], [2], [0]]) a b) ∧
      ∀ c, IsElementaryCycle (Arc [[1], [2], [0]]) {v | v ∈ [0, 1, 2]} c → [0, 1, 2] ~r c := by
  have hloop : Loopless [[1], [2], [0]] := by decide
  have hR : InRange [[1], [2], [0]] := by decide
  have h01 : ReflTransGen (Arc [[1], [2], [0]]) 0 1 := .single ⟨by decide, by decide⟩
  have h12 : ReflTransGen (Arc [[1], [2], [0]]) 1 2 := .single ⟨by decide, by decide⟩
  have h20 : ReflTransGen (Arc [[1], [2], [0]]) 2 0 := .single ⟨by decide, by decide⟩
  have hreach : ∀ a ∈ [0, 1, 2], ∀ b ∈ [0, 1, 2], ReflTransGen (Arc [[1], [2], [0]]) a b := by
    simp only [List.mem_cons, List.not_mem_nil, or_false]
    rintro a (rfl | rfl | rfl) b (rfl | rfl | rfl)
    exacts [.refl, h01, h01.trans h12, h12.trans h20, .refl, h12, h20, h20.trans h01, .refl]
  have hcomp : ∀ a ∈ [0, 1, 2], ∀ b, b ∈ [0, 1, 2] ↔ SameComponent (Arc [[1], [2], [0]]) a b := by
    intro a ha b
    refine ⟨fun hb => ⟨hreach a ha b hb, hreach b hb a ha⟩, fun hab => ?_⟩
    have ha3 : a ∈ {x | x < 3} := by simp at ha; simp; omega
    have hb3 : b ∈ {x | x < 3} := mem_of_reflTransGen (fun _ _ _ huv => hR.lt huv) ha3 hab.1
    simp at hb3 ⊢
    omega
  obtain ⟨r, hr, -, hcompl, -⟩ := findCycles_sound_complete [[1], [2], [0]] hR hloop
    ⟨[0, 1, 2], fun v => decide (v < 3)⟩ (by decide) hcomp (fun v => by simp; omega) (by decide)
  have hcycles : (findCycles [[1], [2], [0]] ⟨[0, 1, 2], fun v => decide (v < 3)⟩ >>= fun r => pure r.cycles) =
      (.ok [[0, 1, 2]] : Except Fault (List (List Nat))) := by
    decide
  rw [hr] at hcycles
  refine ⟨hR, hloop, hcomp, fun c hc => ?_⟩
  obtain ⟨d, hd, hdc⟩ := (hcompl c hc).1
  rw [show r.cycles = [[0, 1, 2]] from Except.ok.inj hcycles, List.mem_singleton] at hd
  exact hd ▸ hdc

end JohnsonCE

end Nezha
