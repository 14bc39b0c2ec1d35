import Nezha.Models.Graph.Tarjan
import Nezha.Models.Graph.TarjanCorrect

/-!
# `Connections` simulates `SCCUtil`

`graph.Connections` and `tarjanscc.SCCUtil` are two codings of one search. On a
map that holds the adjacency lists of `g`, every call `strongConnect(v)` does
what `SCCUtil(v)` does from the corresponding state (`Sim`): the index map holds
`disc` of the discovered vertices, `nodes[disc[v]].stacked` is
`stackMember[v]`, the stacks are equal, the outputs agree once each list is
sorted, and the returned `lowLink` is `low[v]`. The simulation is proved by
induction on the fuel, one pass of the arc loop at a time, with the facts about
the Tarjan side taken from its specification (`sccUtil_spec`). The outer loop
of `Connections`, in any `range` order, then runs the Tarjan search from its
keys in that order, so its output lists the components.
-/

namespace Nezha

namespace Tarjan

open Digraph Relation TarjanSCC

/-- The index `Connections` keeps for a vertex of `g`: its `disc` once discovered. -/
def indexOf (g : List (List Nat)) (t : TarjanSCC) (v : Nat) : Option Nat :=
  if v < g.length ∧ t.disc v ≠ -1 then some (t.disc v).toNat else none

/-- `data` of `Connections` stands for the state `t` of the Tarjan search on the
same graph. -/
structure Sim (g : List (List Nat)) (t : TarjanSCC) (data : Data) : Prop where
  stacked_length : data.stacked.length = t.time
  index_get : ∀ v, data.index.get? v = indexOf g t v
  stacked_get : ∀ v < g.length, t.disc v ≠ -1 → data.stacked[(t.disc v).toNat]? = some (t.stackMember v)
  disc_inj : ∀ v < g.length, ∀ w < g.length, t.disc v ≠ -1 → t.disc v = t.disc w → v = w
  stack_eq : data.stack = t.st
  output_eq : data.output.map sortInts = t.sccList.map SCC.vertices

/-! ## Lists written along a list of indices -/

section SetLoop

variable {β : Type} (f : Nat → Nat) (b : β)

theorem getElem?_foldl_set_of_forall_ne {i : Nat} :
    ∀ (l : List Nat) (s : List β), (∀ w ∈ l, f w ≠ i) →
      (l.foldl (fun s w => s.set (f w) b) s)[i]? = s[i]?
  | [], _, _ => rfl
  | w :: l, s, h => by
    rw [List.foldl_cons, getElem?_foldl_set_of_forall_ne l _ fun x hx => h x (List.mem_cons_of_mem w hx),
      List.getElem?_set_ne (h w List.mem_cons_self)]

theorem getElem?_foldl_set_of_mem :
    ∀ (l : List Nat) (s : List β) {w : Nat}, w ∈ l → f w < s.length →
      (l.foldl (fun s w => s.set (f w) b) s)[f w]? = some b
  | [], _, _, hw, _ => absurd hw List.not_mem_nil
  | x :: l, s, w, hw, hlt => by
    rw [List.foldl_cons]
    by_cases hl : ∃ y ∈ l, f y = f w
    · obtain ⟨y, hy, hyw⟩ := hl
      rw [← hyw]
      exact getElem?_foldl_set_of_mem l _ hy (by rw [List.length_set, hyw]; exact hlt)
    · push Not at hl
      rw [getElem?_foldl_set_of_forall_ne f b l _ hl]
      rcases List.mem_cons.mp hw with rfl | hw
      · exact List.getElem?_set_self hlt
      · exact absurd rfl (hl w hw)

theorem length_foldl_set : ∀ (l : List Nat) (s : List β),
    (l.foldl (fun s w => s.set (f w) b) s).length = s.length
  | [], _ => rfl
  | w :: l, s => by rw [List.foldl_cons, length_foldl_set l, List.length_set]

end SetLoop

/-- The pop loop unstacks every vertex from the top down to the first one
indexed `index`. -/
theorem popStack_append (index : Nat) (idx : GoMap Nat Nat) {v : Nat} (hv : idx.findD v 0 = index)
    (l₂ : List Nat) : ∀ (l₁ : List Nat) (stacked : List Bool), (∀ w ∈ l₁, idx.findD w 0 ≠ index) →
      (∀ w ∈ v :: l₁, idx.findD w 0 < stacked.length) →
      popStack index idx (l₁ ++ v :: l₂) stacked =
        .ok (l₁ ++ [v], l₂, (l₁ ++ [v]).foldl (fun s w => s.set (idx.findD w 0) false) stacked)
  | [], stacked, _, hlt => by
    have hvlt : index < stacked.length := hv ▸ hlt v List.mem_cons_self
    simp [popStack, sliceSet, hv, hvlt]
  | w :: l₁, stacked, hne, hlt => by
    have hw : idx.findD w 0 < stacked.length := hlt w (by simp)
    have hrest := popStack_append index idx hv l₂ l₁ (stacked.set (idx.findD w 0) false)
      (fun x hx => hne x (List.mem_cons_of_mem w hx))
      (fun x hx => by
        rw [List.length_set]
        rcases List.mem_cons.mp hx with rfl | hx
        · exact hlt x List.mem_cons_self
        · exact hlt x (by simp [hx]))
    simp [popStack, sliceSet, hw, hne w List.mem_cons_self, hrest]

/-! ## The relation between the two searches -/

section Relation

variable {g : List (List Nat)} {path : List Nat} {t : TarjanSCC} {data : Data}

/-- The relation says nothing of `low`. -/
theorem Sim.setLow (h : Sim g t data) (low : Nat → Int) : Sim g { t with low := low } data :=
  ⟨h.stacked_length, h.index_get, h.stacked_get, h.disc_inj, h.stack_eq, h.output_eq⟩

/-- `strongConnect(v)` indexes and pushes `v` as `SCCUtil(v)` numbers and pushes it. -/
theorem Sim.enter (h : Sim g t data) (hI : Inv g path t) {v : Nat} (hd : t.disc v = -1) :
    Sim g (discover t v) (Tarjan.enter data v) := by
  have hv : v < g.length := hI.undisc_lt v hd
  constructor
  case stacked_length => simp [TarjanSCC.discover, Tarjan.enter, h.stacked_length]
  case index_get =>
    intro w
    show (data.index.insert v data.stacked.length).get? w = _
    rw [GoMap.get?_insert, h.index_get w]
    by_cases hwv : w = v
    · subst hwv
      simp [indexOf, hv, h.stacked_length]
    · simp [indexOf, hwv]
  case stacked_get =>
    intro w hw hdw
    by_cases hwv : w = v
    · subst hwv
      simp [Tarjan.enter, h.stacked_length]
    · have hdw' : t.disc w ≠ -1 := by simpa [Function.update_of_ne hwv] using hdw
      have hlt := hI.disc_lt w hw hdw'
      have hi : (t.disc w).toNat < data.stacked.length := by rw [h.stacked_length]; omega
      simp only [discover_disc, discover_stackMember, Function.update_of_ne hwv]
      rw [show (Tarjan.enter data v).stacked = data.stacked ++ [true] from rfl,
        List.getElem?_append_left hi]
      exact h.stacked_get w hw hdw'
  case disc_inj =>
    intro w₁ hw₁ w₂ hw₂ hd₁ heq
    simp only [discover_disc, Function.update_apply] at hd₁ heq
    by_cases h₁ : w₁ = v <;> by_cases h₂ : w₂ = v
    · rw [h₁, h₂]
    · simp only [h₁, h₂, if_true, if_false] at heq
      have := hI.disc_lt w₂ hw₂ (by rw [← heq]; omega)
      omega
    · simp only [h₁, h₂, if_true, if_false] at hd₁ heq
      have := hI.disc_lt w₁ hw₁ hd₁
      omega
    · simp only [h₁, h₂, if_false] at hd₁ heq
      exact h.disc_inj w₁ hw₁ w₂ hw₂ hd₁ heq
  case stack_eq => simp [Tarjan.enter, h.stack_eq]
  case output_eq => exact h.output_eq

theorem Sim.get?_of_undisc (h : Sim g t data) {w : Nat} (hd : t.disc w = -1) :
    data.index.get? w = none := by
  simp [h.index_get w, indexOf, hd]

theorem Sim.findD_of_disc (h : Sim g t data) {w : Nat} (hw : w < g.length) (hd : t.disc w ≠ -1) :
    data.index.findD w 0 = (t.disc w).toNat := by
  simp [GoMap.findD, h.index_get w, indexOf, hw, hd]

/-- The loop of `strongConnect(v)` beside the loop of `SCCUtil(v)` with `fuel`:
related data, and the node's `lowLink` equal to `low[v]`. -/
structure LoopSim (g : List (List Nat)) (path : List Nat) (v fuel : Nat) (tk : TarjanSCC)
    (acc : Data × Nat) : Prop where
  inv : Inv g (path ++ [v]) tk
  sim : Sim g tk acc.1
  lowLink_eq : (acc.2 : Int) = tk.low v
  fuel_le : undiscovered g tk ≤ fuel
  disc_self : tk.disc v ≠ -1

/-- `strongConnect` with `fuel` matches every normal return of `SCCUtil` with `fuel`. -/
def ConnectSim (g : List (List Nat)) (graph : GoMap Nat (List Nat)) (fuel : Nat) : Prop :=
  ∀ path t data v t', Inv g path t → Sim g t data → t.disc v = -1 → undiscovered g t ≤ fuel →
    sccUtil g fuel t v = .ok t' →
      ∃ data', strongConnect graph fuel data v = .ok (data', (t'.low v).toNat) ∧ Sim g t' data'

variable {graph : GoMap Nat (List Nat)} {v fuel : Nat}

/-- One pass of the two arc loops. -/
theorem LoopSim.step (hR : InRange g) (ih : ConnectSim g graph fuel) {tk tk' : TarjanSCC}
    {acc : Data × Nat} {w : Nat} (hL : LoopSim g path v fuel tk acc) (hw : w ∈ g.getD v [])
    (h : scanArc g fuel v tk w = .ok tk') :
    ∃ acc', connectArc (strongConnect graph fuel) acc w = .ok acc' ∧ LoopSim g path v fuel tk' acc' := by
  have hv : v < g.length :=
    (hL.inv.st_disc v (hL.inv.path_st v (List.mem_append_right _ List.mem_cons_self))).1
  have hwn : w < g.length := hR.lt ⟨hv, hw⟩
  by_cases hd : tk.disc w = -1
  · -- a tree arc: both searches recurse
    rw [scanArc, if_pos hd] at h
    obtain ⟨t₁, h₁, h₂⟩ := except_bind_eq_ok h
    obtain ⟨t₁', h₁', hF⟩ := sccUtil_spec g fuel (path ++ [v]) tk w hL.inv hd hL.fuel_le
    obtain rfl : t₁' = t₁ := Except.ok.inj (h₁'.symm.trans h₁)
    obtain ⟨data₁, hc, hS₁⟩ := ih (path ++ [v]) tk acc.1 w t₁' hL.inv hL.sim hd hL.fuel_le h₁
    cases h₂
    have hlow : ((t₁'.low w).toNat : Int) = t₁'.low w := Int.toNat_of_nonneg (hF.low_nonneg hL.inv)
    have hu₁ : t₁'.low v = tk.low v := hF.low_keep v hL.disc_self
    refine ⟨(data₁, if (t₁'.low w).toNat < acc.2 then (t₁'.low w).toNat else acc.2), ?_, ?_⟩
    · simp [connectArc, hL.sim.get?_of_undisc hd, hc]
    · refine ⟨hF.inv.setLow _, hS₁.setLow _, ?_, ?_, ?_⟩
      · show _ = Function.update t₁'.low v (min (t₁'.low v) (t₁'.low w)) v
        rw [Function.update_self, hu₁, ← hL.lowLink_eq]
        split_ifs <;> omega
      · exact (undiscovered_le fun x _ hx => by rw [hF.disc_keep x hx]; exact hx).trans hL.fuel_le
      · show t₁'.disc v ≠ -1
        rw [hF.disc_keep v hL.disc_self]
        exact hL.disc_self
  · have hi : acc.1.index.get? w = some (tk.disc w).toNat := by
      simp [hL.sim.index_get w, indexOf, hwn, hd]
    have hsg := hL.sim.stacked_get w hwn hd
    have hnn : ((tk.disc w).toNat : Int) = tk.disc w := Int.toNat_of_nonneg (hL.inv.disc_lt w hwn hd).1
    cases hm : tk.stackMember w
    · -- an arc to an emitted vertex
      rw [scanArc, if_neg hd, if_neg (by simp [hm])] at h
      cases h
      exact ⟨acc, by simp [connectArc, hi, sliceIndex, hsg, hm], hL⟩
    · -- an arc to a stacked vertex
      rw [scanArc, if_neg hd, if_pos hm] at h
      cases h
      refine ⟨(acc.1, if (tk.disc w).toNat < acc.2 then (tk.disc w).toNat else acc.2),
        by simp [connectArc, hi, sliceIndex, hsg, hm], ?_⟩
      refine ⟨hL.inv.setLow _, hL.sim.setLow _, ?_, hL.fuel_le, hL.disc_self⟩
      show _ = Function.update tk.low v (min (tk.low v) (tk.disc w)) v
      rw [Function.update_self, ← hL.lowLink_eq]
      split_ifs <;> omega

/-- The two arc loops, over the same successors. -/
theorem LoopSim.loop (hR : InRange g) (hgraph : ∀ w, graph.findD w [] = g.getD w [])
    (ih : ConnectSim g graph fuel) {tk₀ tk : TarjanSCC} {acc₀ : Data × Nat}
    (hL : LoopSim g path v fuel tk₀ acc₀) (h : (g.getD v []).foldlM (scanArc g fuel v) tk₀ = .ok tk) :
    ∃ acc, (graph.findD v []).foldlM (connectArc (strongConnect graph fuel)) acc₀ = .ok acc ∧
      LoopSim g path v fuel tk acc := by
  rw [hgraph v]
  exact foldlM_sim (R := LoopSim g path v fuel) (g.getD v [])
    (fun _ _ _ _ hx hab hx' => hab.step hR ih hx hx') tk₀ acc₀ tk hL h

/-- The ends of the two calls: both pop the same vertices, or neither pops. -/
theorem LoopSim.finish {t tk t' : TarjanSCC} {acc : Data × Nat} (hS : Scanning g path t v (g.getD v []) tk)
    (hL : LoopSim g path v fuel tk acc) (hsim : Sim g t data) (h : emitComponent v tk = .ok t') :
    ∃ data', finishBacktracking data.stacked.length acc = .ok (data', (t'.low v).toNat) ∧ Sim g t' data' := by
  have hlen := hsim.stacked_length
  have hlow := hL.lowLink_eq
  have hself := hS.disc_self
  by_cases hroot : tk.low v = tk.disc v
  · obtain ⟨ext, hst, hext⟩ := hS.st_ext
    have hnd := hst ▸ hS.inv.st_nodup
    have hvext : v ∉ ext := (List.nodup_cons.mp (List.nodup_append.mp hnd).2.1).1
    rw [emitComponent_of_eq hroot hst hvext] at h
    cases h
    have hacc : acc.2 = data.stacked.length := by omega
    have hnat : acc.2 = (tk.low v).toNat := by omega
    -- the popped vertices are stack vertices, indexed by their `disc`
    have hC : ∀ w ∈ v :: ext, w < g.length ∧ tk.disc w ≠ -1 := fun w hw =>
      hS.inv.st_disc w (by simp [hst, List.mem_cons.mp hw])
    have hidx : ∀ w ∈ v :: ext, acc.1.index.findD w 0 = (tk.disc w).toNat := fun w hw =>
      hL.sim.findD_of_disc (hC w hw).1 (hC w hw).2
    have hnn : ∀ w ∈ v :: ext, 0 ≤ tk.disc w ∧ tk.disc w < tk.time := fun w hw =>
      hS.inv.disc_lt w (hC w hw).1 (hC w hw).2
    have hCm : ∀ w, w ∈ ext.reverse ++ [v] ↔ w ∈ v :: ext := by
      intro w
      simp [or_comm]
    have hpop : popStack data.stacked.length acc.1.index acc.1.stack.reverse acc.1.stacked =
        .ok (ext.reverse ++ [v], t.st.reverse,
          (ext.reverse ++ [v]).foldl (fun s w => s.set (acc.1.index.findD w 0) false) acc.1.stacked) := by
      rw [hL.sim.stack_eq, hst, List.reverse_append, List.reverse_cons, List.append_assoc,
        List.singleton_append]
      apply popStack_append
      · rw [hidx v List.mem_cons_self, hself, hlen]
        rfl
      · intro w hw hwi
        have hw' : w ∈ v :: ext := List.mem_cons_of_mem v (List.mem_reverse.mp hw)
        have hwv : w ≠ v := fun hwv => hvext (hwv ▸ List.mem_reverse.mp hw)
        have h₁ := hnn w hw'
        rw [hidx w hw', hlen] at hwi
        exact hwv (hL.sim.disc_inj w (hC w hw').1 v (hC v List.mem_cons_self).1 (hC w hw').2
          (by rw [hself]; omega))
      · intro w hw
        have hw' : w ∈ v :: ext := by
          rcases List.mem_cons.mp hw with rfl | hw
          · exact List.mem_cons_self
          · exact List.mem_cons_of_mem v (List.mem_reverse.mp hw)
        have h₁ := hnn w hw'
        rw [hidx w hw', hL.sim.stacked_length]
        omega
    refine ⟨_, by rw [finishBacktracking, if_pos hacc, hpop, except_ok_bind, hnat]; rfl, ?_⟩
    constructor
    case stacked_length =>
      show (List.foldl _ acc.1.stacked _).length = tk.time
      rw [length_foldl_set, hL.sim.stacked_length]
    case index_get => exact hL.sim.index_get
    case stacked_get =>
      intro x hx hdx
      show (List.foldl _ acc.1.stacked _)[(tk.disc x).toNat]? =
        some ((ext.reverse ++ [v]).foldl (fun sm w => Function.update sm w false) tk.stackMember x)
      rw [foldl_update_const]
      by_cases hxC : x ∈ ext.reverse ++ [v]
      · rw [if_pos hxC, ← hidx x ((hCm x).mp hxC)]
        apply getElem?_foldl_set_of_mem _ _ _ _ hxC
        have h₁ := hnn x ((hCm x).mp hxC)
        rw [hidx x ((hCm x).mp hxC), hL.sim.stacked_length]
        omega
      · rw [if_neg hxC, getElem?_foldl_set_of_forall_ne]
        · exact hL.sim.stacked_get x hx hdx
        · intro w hw hwx
          have hw' := (hCm w).mp hw
          have h₁ := hnn w hw'
          have h₂ := (hS.inv.disc_lt x hx hdx).1
          rw [hidx w hw'] at hwx
          exact hxC (hL.sim.disc_inj w (hC w hw').1 x hx (hC w hw').2 (by omega) ▸ hw)
    case disc_inj => exact hL.sim.disc_inj
    case stack_eq => exact List.reverse_reverse _
    case output_eq =>
      show (acc.1.output ++ [ext.reverse ++ [v]]).map sortInts = (tk.sccList ++ _).map SCC.vertices
      simp [hL.sim.output_eq]
  · rw [emitComponent_of_ne hroot] at h
    cases h
    have hacc : acc.2 ≠ data.stacked.length := by omega
    have hnat : acc.2 = (tk.low v).toNat := by omega
    refine ⟨acc.1, ?_, hL.sim⟩
    rw [finishBacktracking, if_neg hacc, ← hnat]
    rfl

/-- `strongConnect(v)` does what `SCCUtil(v)` does, with the same fuel. -/
theorem connectSim (hR : InRange g) (hgraph : ∀ w, graph.findD w [] = g.getD w []) :
    ∀ fuel, ConnectSim g graph fuel := by
  intro fuel
  induction fuel with
  | zero =>
    intro path t data v t' hI _ hd hfuel _
    have := undiscovered_pos (hI.undisc_lt v hd) hd
    omega
  | succ fuel ih =>
    intro path t data v t' hI hS hd hfuel h
    rw [sccUtil_succ] at h
    obtain ⟨tk, hk, he⟩ := except_bind_eq_ok h
    obtain ⟨tk', hk', hScan⟩ := Scanning.loop (sccUtil_spec g fuel) hfuel hI hd
    obtain rfl : tk' = tk := Except.ok.inj (hk'.symm.trans hk)
    have hL₀ : LoopSim g path v fuel (discover t v) (Tarjan.enter data v, data.stacked.length) := by
      refine ⟨hI.discover hd, hS.enter hI hd, by simp [hS.stacked_length], ?_, by simp⟩
      have : undiscovered g (discover t v) < undiscovered g t := undiscovered_lt
        (fun w _ hw => by
          by_cases hwv : w = v
          · subst hwv
            simp
          · simpa [Function.update_of_ne hwv] using hw)
        (hI.undisc_lt v hd) hd (by simp)
      omega
    obtain ⟨acc, hacc, hL⟩ := LoopSim.loop hR hgraph ih hL₀ hk
    obtain ⟨data', hf, hS'⟩ := LoopSim.finish hScan hL hS he
    exact ⟨data', by rw [strongConnect_succ, hacc, except_ok_bind, hf], hS'⟩

end Relation

/-! ## The outer loop of `Connections` -/

section Connections

variable {g : List (List Nat)} {graph : GoMap Nat (List Nat)}

theorem findD_of_get? (hgraph : ∀ v, graph.get? v = g[v]?) (v : Nat) : graph.findD v [] = g.getD v [] := by
  simp [GoMap.findD, hgraph v, List.getD_eq_getElem?_getD]

theorem mem_keys_of_get? (hgraph : ∀ v, graph.get? v = g[v]?) (v : Nat) :
    v ∈ graph.keys ↔ v < g.length := by
  rw [graph.mem_keys v, hgraph v]
  simp

theorem length_le_depthBound (hgraph : ∀ v, graph.get? v = g[v]?) : g.length ≤ depthBound graph := by
  have hperm : graph.keys.Perm (List.range g.length) :=
    (List.perm_ext_iff_of_nodup graph.nodup List.nodup_range).mpr fun v => by
      rw [mem_keys_of_get? hgraph, List.mem_range]
  rw [depthBound, hperm.length_eq, List.length_range]
  omega

/-- The data `Connections` starts from stands for the state in which `SCC()`
starts its second loop. -/
theorem sim_empty (g : List (List Nat)) : Sim g (resetTables g.length newTarjanSCC) Data.empty := by
  rw [resetTables_eq]
  constructor
  case stacked_length => rfl
  case index_get =>
    intro v
    by_cases hv : v < g.length <;> simp [Data.empty, indexOf, hv]
  case stacked_get =>
    intro v hv hd
    simp [hv] at hd
  case disc_inj =>
    intro v hv w _ hd
    simp [hv] at hd
  case stack_eq => rfl
  case output_eq => rfl

/-- A pass of the loop of `Connections` runs the Tarjan search from its key
when the key is unvisited. -/
theorem visitKey_sim (hR : InRange g) (hgraph : ∀ v, graph.get? v = g[v]?) {t : TarjanSCC} {data : Data}
    (hI : Inv g [] t) (hS : Sim g t data) {v : Nat} (hv : v < g.length) :
    ∃ t' data', visitKey graph data v = .ok data' ∧ Inv g [] t' ∧ Sim g t' data' ∧ t'.disc v ≠ -1 ∧
      ∀ w, t.disc w ≠ -1 → t'.disc w ≠ -1 := by
  by_cases hd : t.disc v = -1
  · have hfuel := (undiscovered_le_length g t).trans (length_le_depthBound hgraph)
    obtain ⟨t', h', hF⟩ := sccUtil_spec g (depthBound graph) [] t v hI hd hfuel
    obtain ⟨data', hc, hS'⟩ := connectSim hR (findD_of_get? hgraph) _ [] t data v t' hI hS hd hfuel h'
    refine ⟨t', data', by simp [visitKey, hS.get?_of_undisc hd, hc], hF.inv, hS',
      by rw [hF.disc_self]; omega, fun w hw => ?_⟩
    rw [hF.disc_keep w hw]
    exact hw
  · have hi : data.index.get? v = some (t.disc v).toNat := by simp [hS.index_get v, indexOf, hv, hd]
    exact ⟨t, data, by rw [visitKey, hi]; rfl, hI, hS, hd, fun w hw => hw⟩

/-- `Connections`, in any `range` order, runs the Tarjan search from the keys in
that order: its output lists, each sorted, are the lists that search emits. -/
theorem connections_sim (hR : InRange g) (hgraph : ∀ v, graph.get? v = g[v]?) {order : List Nat}
    (horder : order.Perm graph.keys) :
    ∃ out t, connections graph order = .ok out ∧ Inv g [] t ∧ (∀ v < g.length, t.disc v ≠ -1) ∧
      out.map sortInts = t.sccList.map SCC.vertices := by
  obtain ⟨data, hfold, t, hI, hS, hall⟩ := foldlM_ok_of_step
    (P := fun pre data => ∃ t, Inv g [] t ∧ Sim g t data ∧ ∀ r ∈ pre, t.disc r ≠ -1) order
    (by
      rintro pre v suf data hl ⟨t, hI, hS, hpre⟩
      have hv : v < g.length := (mem_keys_of_get? hgraph v).mp (horder.mem_iff.mp (by simp [hl]))
      obtain ⟨t', data', h', hI', hS', hv', hmono⟩ := visitKey_sim hR hgraph hI hS hv
      refine ⟨data', h', t', hI', hS', fun r hr => ?_⟩
      rcases List.mem_append.mp hr with hr | hr
      · exact hmono r (hpre r hr)
      · obtain rfl := List.mem_singleton.mp hr
        exact hv')
    Data.empty ⟨_, inv_resetTables g, sim_empty g, by simp⟩
  refine ⟨data.output, t, by rw [connections, hfold]; rfl, hI, fun v hv => ?_, hS.output_eq⟩
  exact hall v (horder.mem_iff.mpr ((mem_keys_of_get? hgraph v).mpr hv))

/-- Tarjan's components are correct. On every graph whose arcs end at vertices,
`SCC()` returns the number of strongly connected components; `GetSCCs()` lists
each component once, as disjoint lists covering the vertices; two vertices
share a list exactly when each reaches the other; `Member` holds exactly for
the listed vertices. `Connections`, over any map holding the same adjacency
lists and in any `range` order, returns the same lists up to their order and
the order within each. -/
theorem tarjanSCC_correct (g : List (List Nat)) (hR : InRange g) :
    ∃ t, scc g newTarjanSCC = .ok t ∧ getSCCs g = .ok t.sccList ∧
      t.nscc = (components (Arc g) {v | v < g.length}).ncard ∧
      IsComponentList (Arc g) {v | v < g.length} (t.sccList.map SCC.vertices) ∧
      (∀ u < g.length, ∀ v, (∃ c ∈ t.sccList, u ∈ c.vertices ∧ v ∈ c.vertices) ↔ SameComponent (Arc g) u v) ∧
      (∀ c ∈ t.sccList, ∀ v, c.member v = true ↔ v ∈ c.vertices) ∧
      ∀ (graph : GoMap Nat (List Nat)), (∀ v, graph.get? v = g[v]?) →
        ∀ order, order.Perm graph.keys →
          ∃ out, connections graph order = .ok out ∧
            IsComponentList (Arc g) {v | v < g.length} out ∧
            (out.map sortInts).Perm (t.sccList.map SCC.vertices) := by
  obtain ⟨t, hscc, hI, hall⟩ := scc_spec g
  have hL := hI.isComponentList hall
  refine ⟨t, hscc, by rw [getSCCs, hscc]; rfl, ?_, hL, ?_, hI.scc_member, ?_⟩
  · rw [hI.nscc_eq, hL.ncard_components, List.length_map]
  · intro u hu v
    rw [← hL.sameComponent_iff hu]
    simp
  · intro graph hgraph order horder
    obtain ⟨out, t', hc, hI', hall', heq⟩ := connections_sim hR hgraph horder
    have hsorted : IsComponentList (Arc g) {v | v < g.length} (out.map sortInts) :=
      heq ▸ hI'.isComponentList hall'
    refine ⟨out, hc, hsorted.of_map_perm sortInts_perm, hsorted.perm_of_pairwise hL ?_ ?_⟩
    · simp only [List.mem_map]
      rintro l ⟨l', -, rfl⟩
      exact sortInts_pairwise l'
    · simp only [List.mem_map]
      rintro l ⟨c, hc, rfl⟩
      exact hI.scc_sorted c hc

/-- The three-cycle `0 → 1 → 2 → 0` is one component. -/
theorem threeCycle_one_component :
    InRange [[1], [2], [0]] ∧ (components (Arc [[1], [2], [0]]) {v | v < 3}).ncard = 1 := by
  have hR : InRange [[1], [2], [0]] := by decide
  obtain ⟨t, hscc, -, hn, -⟩ := tarjanSCC_correct [[1], [2], [0]] hR
  have hcount : (scc [[1], [2], [0]] newTarjanSCC >>= fun t => pure t.nscc) = (.ok 1 : Except Fault Nat) := by
    decide
  rw [hscc] at hcount
  exact ⟨hR, hn.symm.trans (Except.ok.inj hcount)⟩

end Connections

end Tarjan

end Nezha
