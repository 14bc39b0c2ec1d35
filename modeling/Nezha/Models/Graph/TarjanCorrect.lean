import Nezha.Models.Graph.TarjanSCC
import Nezha.Core.Reach

/-!
# Tarjan's search emits the strongly connected components

On every graph whose arcs end at vertices, `SCC()` returns, and the lists of
`GetSCCs()` are the strongly connected components, each once, with their
`Member` tables; `nscc` is their number.

The proof follows one call of `SCCUtil(u)`. Between two steps of the search
the state satisfies `Inv` relative to the list `path` of the vertices whose
calls are active: every stack vertex reaches an active vertex numbered no
later, every vertex off the active path has all its successors discovered,
and the vertices already emitted (`Done`) only reach vertices emitted too.
`Finished` is what a call leaves behind: its own vertex numbered at the old
time, the stack of the caller extended by vertices discovered in the call, and
`low[u]` the number of a stack vertex below `u` that `u` reaches, or `u`'s own
number, bounded by every arc from the call into the caller's stack. When `low[u]`
is `u`'s own number, the vertices above `u` on the stack are exactly its
component: those that reach `u` by the first arc out of the call, and those
`u` reaches because no arc from the call goes below `u` and the emitted
vertices reach nothing on the stack.
-/

namespace Nezha

namespace TarjanSCC

open Digraph Relation

/-- A vertex discovered and off the stack: its component has been emitted. -/
def Done (t : TarjanSCC) (v : Nat) : Prop := t.disc v ≠ -1 ∧ v ∉ t.st

/-- The vertices of the emitted components, in emission order. -/
def emitted (t : TarjanSCC) : List Nat := (t.sccList.map SCC.vertices).flatten

/-- The vertices of `g` that `disc` marks undiscovered; they bound the depth of the search. -/
def undiscovered (g : List (List Nat)) (t : TarjanSCC) : Nat :=
  ((List.range g.length).filter fun v => t.disc v = -1).length

/-- The state of the search between two of its steps, with `path` the vertices
whose calls are active, outermost first. -/
structure Inv (g : List (List Nat)) (path : List Nat) (t : TarjanSCC) : Prop where
  undisc_lt : ∀ v, t.disc v = -1 → v < g.length
  disc_lt : ∀ v < g.length, t.disc v ≠ -1 → 0 ≤ t.disc v ∧ t.disc v < t.time
  stackMember_iff : ∀ v, t.stackMember v = true ↔ v ∈ t.st
  st_nodup : t.st.Nodup
  st_disc : ∀ v ∈ t.st, v < g.length ∧ t.disc v ≠ -1
  path_st : ∀ x ∈ path, x ∈ t.st
  st_reach : ∀ y ∈ t.st, ∃ x ∈ path, ReflTransGen (Arc g) y x
  succ_disc : ∀ v < g.length, t.disc v ≠ -1 → v ∉ path → ∀ w, Arc g v w → t.disc w ≠ -1
  done_closed : ∀ v, Done t v → ∀ w, Arc g v w → Done t w
  mem_emitted : ∀ v, v ∈ t.emitted ↔ v < g.length ∧ Done t v
  emitted_nodup : t.emitted.Nodup
  scc_ne : ∀ c ∈ t.sccList, c.vertices ≠ []
  scc_comp : ∀ c ∈ t.sccList, ∀ a ∈ c.vertices, ∀ b, b ∈ c.vertices ↔ SameComponent (Arc g) a b
  scc_member : ∀ c ∈ t.sccList, ∀ v, c.member v = true ↔ v ∈ c.vertices
  scc_sorted : ∀ c ∈ t.sccList, c.vertices.Pairwise (· ≤ ·)
  nscc_eq : t.nscc = t.sccList.length

/-! ## The pieces of `SCCUtil` -/

section Pieces

variable {t : TarjanSCC} {u : Nat}

@[simp] theorem discover_disc : (discover t u).disc = Function.update t.disc u t.time := rfl
@[simp] theorem discover_low : (discover t u).low = Function.update t.low u t.time := rfl
@[simp] theorem discover_time : (discover t u).time = t.time + 1 := rfl
@[simp] theorem discover_st : (discover t u).st = t.st ++ [u] := rfl
@[simp] theorem discover_stackMember :
    (discover t u).stackMember = Function.update t.stackMember u true := rfl
@[simp] theorem discover_sccList : (discover t u).sccList = t.sccList := rfl
@[simp] theorem discover_nscc : (discover t u).nscc = t.nscc := rfl

/-- A table written with one value along a list. -/
theorem foldl_update_const {β : Type} (b : β) :
    ∀ (l : List Nat) (f : Nat → β) (v : Nat),
      (l.foldl (fun f w => Function.update f w b) f) v = if v ∈ l then b else f v
  | [], f, v => by simp
  | w :: l, f, v => by
    rw [List.foldl_cons, foldl_update_const b l _ v]
    by_cases hv : v ∈ l
    · simp [hv]
    · by_cases hvw : v = w
      · subst hvw
        simp
      · simp [hv, hvw]

/-- The pop loop stops at the first `u` from the top. -/
theorem popComponent_append (l₂ : List Nat) :
    ∀ {l₁ : List Nat}, u ∉ l₁ → popComponent u (l₁ ++ u :: l₂) = .ok (l₁ ++ [u], l₂)
  | [], _ => by simp [popComponent]
  | w :: l₁, h => by
    have hw : w ≠ u := fun hwu => h (hwu ▸ List.mem_cons_self)
    have hrest : u ∉ l₁ := fun hu => h (List.mem_cons_of_mem w hu)
    simp [popComponent, hw, popComponent_append l₂ hrest]

/-- The end of `SCCUtil(u)` for a vertex that is not a root. -/
theorem emitComponent_of_ne (h : t.low u ≠ t.disc u) : emitComponent u t = .ok t := by
  simp [emitComponent, h]
  rfl

/-- The end of `SCCUtil(u)` for a root: the vertices above `u` and `u` popped
and emitted. -/
theorem emitComponent_of_eq {pre ext : List Nat} (h : t.low u = t.disc u) (hst : t.st = pre ++ u :: ext)
    (hu : u ∉ ext) :
    emitComponent u t = .ok { t with
      st := pre
      stackMember := (ext.reverse ++ [u]).foldl (fun sm w => Function.update sm w false) t.stackMember
      sccList := t.sccList ++ [⟨sortInts (ext.reverse ++ [u]),
        (ext.reverse ++ [u]).foldl (fun m w => Function.update m w true) fun _ => false⟩]
      nscc := t.nscc + 1 } := by
  have hpop : popComponent u t.st.reverse = .ok (ext.reverse ++ [u], pre.reverse) := by
    rw [hst, List.reverse_append, List.reverse_cons, List.append_assoc, List.singleton_append]
    exact popComponent_append pre.reverse (by simpa using hu)
  simp [emitComponent, h, hpop]
  rfl

end Pieces

/-! ## Counting the undiscovered vertices -/

section Count

variable {g : List (List Nat)} {t t' : TarjanSCC}

/-- Along a step that only discovers vertices, the vertices left undiscovered
are among those undiscovered before. -/
theorem undiscovered_filter (h : ∀ v < g.length, t.disc v ≠ -1 → t'.disc v ≠ -1) :
    (List.range g.length).filter (fun v => t'.disc v = -1) =
      ((List.range g.length).filter fun v => t.disc v = -1).filter fun v => t'.disc v = -1 := by
  rw [List.filter_filter]
  refine List.filter_congr fun v hv => ?_
  by_cases hv' : t'.disc v = -1
  · have : t.disc v = -1 := by
      by_contra hne
      exact h v (List.mem_range.mp hv) hne hv'
    simp [hv', this]
  · simp [hv']

theorem undiscovered_le (h : ∀ v < g.length, t.disc v ≠ -1 → t'.disc v ≠ -1) :
    undiscovered g t' ≤ undiscovered g t := by
  unfold undiscovered
  rw [undiscovered_filter h]
  exact List.length_filter_le _ _

/-- Discovering a vertex of `g` lowers the count. -/
theorem undiscovered_lt (h : ∀ v < g.length, t.disc v ≠ -1 → t'.disc v ≠ -1) {u : Nat}
    (hu : u < g.length) (h₁ : t.disc u = -1) (h₂ : t'.disc u ≠ -1) :
    undiscovered g t' < undiscovered g t := by
  unfold undiscovered
  rw [undiscovered_filter h]
  exact List.length_filter_lt_length_iff_exists.mpr
    ⟨u, List.mem_filter.mpr ⟨List.mem_range.mpr hu, by simpa using h₁⟩, by simpa using h₂⟩

theorem undiscovered_pos {u : Nat} (hu : u < g.length) (h : t.disc u = -1) : 0 < undiscovered g t :=
  List.length_pos_of_mem (List.mem_filter.mpr ⟨List.mem_range.mpr hu, by simpa using h⟩)

end Count

/-! ## The invariant between two steps -/

section Invariant

variable {g : List (List Nat)} {path : List Nat} {t : TarjanSCC} {u : Nat}

/-- The emitted vertices reach only emitted vertices. -/
theorem Inv.done_of_reach (h : Inv g path t) {a b : Nat} (ha : Done t a)
    (hab : ReflTransGen (Arc g) a b) : Done t b :=
  mem_of_reflTransGen (t := {v | Done t v}) (fun v w hv hvw => h.done_closed v hv w hvw) ha hab

/-- The invariant says nothing of `low`. -/
theorem Inv.setLow (h : Inv g path t) (low : Nat → Int) : Inv g path { t with low := low } :=
  ⟨h.undisc_lt, h.disc_lt, h.stackMember_iff, h.st_nodup, h.st_disc, h.path_st, h.st_reach,
    h.succ_disc, h.done_closed, h.mem_emitted, h.emitted_nodup, h.scc_ne, h.scc_comp, h.scc_member,
    h.scc_sorted, h.nscc_eq⟩

theorem done_discover_iff (hu : t.disc u = -1) (v : Nat) : Done (discover t u) v ↔ Done t v := by
  by_cases hvu : v = u
  · subst hvu
    simp [Done, hu]
  · simp [Done, hvu]

/-- `SCCUtil(u)` starts by numbering and pushing an undiscovered `u`, which
becomes the innermost active call. -/
theorem Inv.discover (h : Inv g path t) (hu : t.disc u = -1) :
    Inv g (path ++ [u]) (discover t u) := by
  have hun : u < g.length := h.undisc_lt u hu
  have hust : u ∉ t.st := fun hm => (h.st_disc u hm).2 hu
  constructor
  case undisc_lt =>
    intro v hv
    by_cases hvu : v = u
    · exact hvu ▸ hun
    · exact h.undisc_lt v (by simpa [Function.update_of_ne hvu] using hv)
  case disc_lt =>
    intro v hv hd
    by_cases hvu : v = u
    · subst hvu
      simp
    · have := h.disc_lt v hv (by simpa [Function.update_of_ne hvu] using hd)
      simp only [discover_disc, discover_time, Function.update_of_ne hvu]
      omega
  case stackMember_iff =>
    intro v
    by_cases hvu : v = u
    · subst hvu
      simp
    · simp [h.stackMember_iff, hvu]
  case st_nodup =>
    have hne : ∀ a ∈ t.st, a ≠ u := fun a ha hau => hust (hau ▸ ha)
    simpa [List.nodup_append, h.st_nodup] using hne
  case st_disc =>
    intro v hv
    rcases List.mem_append.mp hv with hv | hv
    · have hvu : v ≠ u := fun hvu => hust (hvu ▸ hv)
      simpa [Function.update_of_ne hvu] using h.st_disc v hv
    · obtain rfl := List.mem_singleton.mp hv
      simp [hun]
  case path_st =>
    intro x hx
    rcases List.mem_append.mp hx with hx | hx
    · exact List.mem_append_left _ (h.path_st x hx)
    · exact List.mem_append_right _ hx
  case st_reach =>
    intro y hy
    rcases List.mem_append.mp hy with hy | hy
    · obtain ⟨x, hx, hyx⟩ := h.st_reach y hy
      exact ⟨x, List.mem_append_left _ hx, hyx⟩
    · exact ⟨u, List.mem_append_right _ List.mem_cons_self, List.mem_singleton.mp hy ▸ ReflTransGen.refl⟩
  case succ_disc =>
    intro v hv hd hvp w hvw
    have hvu : v ≠ u := fun hvu => hvp (List.mem_append_right _ (hvu ▸ List.mem_singleton_self u))
    have hw := h.succ_disc v hv (by simpa [Function.update_of_ne hvu] using hd)
      (fun hm => hvp (List.mem_append_left _ hm)) w hvw
    by_cases hwu : w = u
    · subst hwu
      simp
    · simpa [Function.update_of_ne hwu] using hw
  case done_closed =>
    intro v hv w hvw
    exact (done_discover_iff hu w).mpr (h.done_closed v ((done_discover_iff hu v).mp hv) w hvw)
  case mem_emitted =>
    intro v
    rw [done_discover_iff hu]
    exact h.mem_emitted v
  case emitted_nodup => exact h.emitted_nodup
  case scc_ne => exact h.scc_ne
  case scc_comp => exact h.scc_comp
  case scc_member => exact h.scc_member
  case scc_sorted => exact h.scc_sorted
  case nscc_eq => exact h.nscc_eq

end Invariant

/-! ## One call of `SCCUtil` -/

/-- The call `SCCUtil(u)` entered from the state `t`, once its loop has passed
the arcs `done` of `u`, in the state `tk`. -/
structure Scanning (g : List (List Nat)) (path : List Nat) (t : TarjanSCC) (u : Nat)
    (done : List Nat) (tk : TarjanSCC) : Prop where
  before : Inv g path t
  inv : Inv g (path ++ [u]) tk
  st_ext : ∃ ext, tk.st = t.st ++ u :: ext ∧ ∀ v ∈ ext, t.disc v = -1
  disc_self : tk.disc u = t.time
  disc_keep : ∀ v, t.disc v ≠ -1 → tk.disc v = t.disc v
  disc_new : ∀ v, t.disc v = -1 → tk.disc v ≠ -1 → t.time ≤ tk.disc v
  low_keep : ∀ v, t.disc v ≠ -1 → tk.low v = t.low v
  low_le : tk.low u ≤ t.time
  low_lt : tk.low u < t.time → ∃ w ∈ t.st, t.disc w = tk.low u ∧ ReflTransGen (Arc g) u w
  low_self : ∀ y ∈ done, y ∈ t.st → tk.low u ≤ t.disc y
  low_new : ∀ v, t.disc v = -1 → tk.disc v ≠ -1 → v ≠ u → ∀ y ∈ t.st, Arc g v y →
    tk.low u ≤ t.disc y
  reach_new : ∀ v, t.disc v = -1 → tk.disc v ≠ -1 → ReflTransGen (Arc g) u v
  done_disc : ∀ v ∈ done, tk.disc v ≠ -1

/-- What `SCCUtil(u)` entered from `t` leaves behind in `t'`: the caller's
invariant, the caller's stack extended by vertices discovered in the call,
`u` numbered at the old time, and `low[u]` either that number or the number of a
vertex on the caller's stack that `u` reaches, below every arc from the call
into the caller's stack. -/
structure Finished (g : List (List Nat)) (path : List Nat) (t : TarjanSCC) (u : Nat)
    (t' : TarjanSCC) : Prop where
  inv : Inv g path t'
  st_ext : ∃ ext, t'.st = t.st ++ ext ∧ ∀ v ∈ ext, t.disc v = -1
  disc_self : t'.disc u = t.time
  disc_keep : ∀ v, t.disc v ≠ -1 → t'.disc v = t.disc v
  disc_new : ∀ v, t.disc v = -1 → t'.disc v ≠ -1 → t.time ≤ t'.disc v
  low_keep : ∀ v, t.disc v ≠ -1 → t'.low v = t.low v
  low_le : t'.low u ≤ t.time
  low_lt : t'.low u < t.time → ∃ w ∈ t.st, t.disc w = t'.low u ∧ ReflTransGen (Arc g) u w
  low_arcs : ∀ v, t.disc v = -1 → t'.disc v ≠ -1 → ∀ y ∈ t.st, Arc g v y → t'.low u ≤ t.disc y
  reach_new : ∀ v, t.disc v = -1 → t'.disc v ≠ -1 → ReflTransGen (Arc g) u v

/-- `SCCUtil` run with `fuel` meets its specification from every state. -/
def UtilSpec (g : List (List Nat)) (fuel : Nat) : Prop :=
  ∀ path t u, Inv g path t → t.disc u = -1 → undiscovered g t ≤ fuel →
    ∃ t', sccUtil g fuel t u = .ok t' ∧ Finished g path t u t'

section Scan

variable {g : List (List Nat)} {path done : List Nat} {t tk : TarjanSCC} {u v : Nat}

theorem Scanning.start (h : Inv g path t) (hu : t.disc u = -1) :
    Scanning g path t u [] (discover t u) := by
  have hne : ∀ w, t.disc w ≠ -1 → w ≠ u := fun w hw hwu => hw (hwu ▸ hu)
  have hnew : ∀ w, t.disc w = -1 → (discover t u).disc w ≠ -1 → w = u := by
    intro w hw hw'
    by_contra hwu
    simp [Function.update_of_ne hwu, hw] at hw'
  constructor
  case before => exact h
  case inv => exact h.discover hu
  case st_ext => exact ⟨[], by simp, by simp⟩
  case disc_self => simp
  case disc_keep => exact fun w hw => by simp [Function.update_of_ne (hne w hw)]
  case disc_new =>
    intro w hw hw'
    obtain rfl := hnew w hw hw'
    simp
  case low_keep => exact fun w hw => by simp [Function.update_of_ne (hne w hw)]
  case low_le => simp
  case low_lt => simp
  case low_self => simp
  case low_new => exact fun w hw hw' hwu => absurd (hnew w hw hw') hwu
  case reach_new =>
    intro w hw hw'
    obtain rfl := hnew w hw hw'
    exact ReflTransGen.refl
  case done_disc => simp

theorem Scanning.u_mem (hS : Scanning g path t u done tk) : u ∈ tk.st := by
  obtain ⟨ext, hst, -⟩ := hS.st_ext
  simp [hst]

theorem Scanning.u_lt (hS : Scanning g path t u done tk) : u < g.length :=
  (hS.inv.st_disc u hS.u_mem).1

theorem Scanning.time_lt (hS : Scanning g path t u done tk) : (t.time : Int) < tk.time := by
  have := (hS.inv.disc_lt u hS.u_lt (by rw [hS.disc_self]; omega)).2
  rwa [hS.disc_self] at this

theorem Scanning.u_undisc (hS : Scanning g path t u done tk) : t.disc u = -1 := by
  by_contra hne
  have hlt := (hS.before.disc_lt u hS.u_lt hne).2
  have := hS.disc_keep u hne
  rw [hS.disc_self] at this
  omega

theorem Scanning.disc_ne (hS : Scanning g path t u done tk) {w : Nat} (hw : t.disc w ≠ -1) :
    tk.disc w ≠ -1 := by
  rw [hS.disc_keep w hw]
  exact hw

theorem Scanning.st_sub (hS : Scanning g path t u done tk) {w : Nat} (hw : w ∈ t.st) : w ∈ tk.st := by
  obtain ⟨ext, hst, -⟩ := hS.st_ext
  simp [hst, hw]

/-- The stack vertices numbered before the call are those of the caller. -/
theorem Scanning.old_of_lt (hS : Scanning g path t u done tk) {w : Nat} (hw : w ∈ tk.st)
    (hlt : tk.disc w < t.time) : w ∈ t.st ∧ t.disc w = tk.disc w := by
  have hdw := (hS.inv.st_disc w hw).2
  obtain ⟨ext, hst, hext⟩ := hS.st_ext
  rw [hst] at hw
  rcases List.mem_append.mp hw with hw | hw
  · exact ⟨hw, (hS.disc_keep w (hS.before.st_disc w hw).2).symm⟩
  · exfalso
    rcases List.mem_cons.mp hw with rfl | hw
    · rw [hS.disc_self] at hlt
      exact lt_irrefl _ hlt
    · have := hS.disc_new w (hext w hw) hdw
      omega

theorem Scanning.undiscovered_lt (hS : Scanning g path t u done tk) :
    undiscovered g tk < undiscovered g t :=
  TarjanSCC.undiscovered_lt (fun w _ hw => hS.disc_ne hw) hS.u_lt hS.u_undisc
    (by rw [hS.disc_self]; omega)

/-- A tree arc: `SCCUtil(v)` is called on an undiscovered successor and
`low[u]` lowered to `low[v]`. -/
theorem Scanning.tree {fuel : Nat} (ih : UtilSpec g fuel) (hfuel : undiscovered g t ≤ fuel + 1)
    (hS : Scanning g path t u done tk) (hv : v ∈ g.getD u []) (hd : tk.disc v = -1) :
    ∃ tk', scanArc g fuel u tk v = .ok tk' ∧ Scanning g path t u (done ++ [v]) tk' := by
  obtain ⟨t₁, h₁, hF⟩ := ih (path ++ [u]) tk v hS.inv hd (by have := hS.undiscovered_lt; omega)
  have hdu : tk.disc u ≠ -1 := by rw [hS.disc_self]; omega
  have hu₁ : t₁.low u = tk.low u := hF.low_keep u hdu
  have harc : Arc g u v := ⟨hS.u_lt, hv⟩
  have htime := hS.time_lt
  -- a vertex new at `t₁` was new at `tk`, or discovered in the call of `v`
  have hcases : ∀ w, t.disc w = -1 → t₁.disc w ≠ -1 →
      tk.disc w ≠ -1 ∨ (tk.disc w = -1 ∧ t₁.disc w ≠ -1) := by
    intro w _ hw₁
    by_cases hw : tk.disc w = -1
    · exact .inr ⟨hw, hw₁⟩
    · exact .inl hw
  refine ⟨{ t₁ with low := Function.update t₁.low u (min (t₁.low u) (t₁.low v)) },
    by rw [scanArc, if_pos hd, h₁]; rfl, ?_⟩
  have hlow : Function.update t₁.low u (min (t₁.low u) (t₁.low v)) u = min (tk.low u) (t₁.low v) := by
    simp [hu₁]
  constructor
  case before => exact hS.before
  case inv => exact hF.inv.setLow _
  case st_ext =>
    obtain ⟨ext, hst, hext⟩ := hS.st_ext
    obtain ⟨ext₁, hst₁, hext₁⟩ := hF.st_ext
    refine ⟨ext ++ ext₁, by simp [hst₁, hst], fun w hw => ?_⟩
    rcases List.mem_append.mp hw with hw | hw
    · exact hext w hw
    · by_contra hne
      exact hS.disc_ne hne (hext₁ w hw)
  case disc_self => exact (hF.disc_keep u hdu).trans hS.disc_self
  case disc_keep => exact fun w hw => (hF.disc_keep w (hS.disc_ne hw)).trans (hS.disc_keep w hw)
  case disc_new =>
    intro w hw hw₁
    rcases hcases w hw hw₁ with hk | ⟨hk, hk₁⟩
    · show (t.time : Int) ≤ t₁.disc w
      rw [hF.disc_keep w hk]
      exact hS.disc_new w hw hk
    · have := hF.disc_new w hk hk₁
      show (t.time : Int) ≤ t₁.disc w
      omega
  case low_keep =>
    intro w hw
    have hwu : w ≠ u := fun hwu => hw (hwu ▸ hS.u_undisc)
    show Function.update t₁.low u _ w = t.low w
    rw [Function.update_of_ne hwu, hF.low_keep w (hS.disc_ne hw), hS.low_keep w hw]
  case low_le =>
    show Function.update t₁.low u _ u ≤ t.time
    rw [hlow]
    exact (min_le_left _ _).trans hS.low_le
  case low_lt =>
    show Function.update t₁.low u _ u < t.time →
      ∃ w ∈ t.st, t.disc w = Function.update t₁.low u _ u ∧ _
    rw [hlow]
    intro hlt
    by_cases hvk : t₁.low v < tk.low u
    · rw [min_eq_right hvk.le] at hlt ⊢
      obtain ⟨w, hw, hdw, hvw⟩ := hF.low_lt (by omega)
      obtain ⟨hwt, hdw'⟩ := hS.old_of_lt hw (by omega)
      exact ⟨w, hwt, hdw'.trans hdw, ReflTransGen.head harc hvw⟩
    · rw [min_eq_left (not_lt.mp hvk)] at hlt ⊢
      exact hS.low_lt hlt
  case low_self =>
    intro y hy hyt
    show Function.update t₁.low u _ u ≤ t.disc y
    rw [hlow]
    rcases List.mem_append.mp hy with hy | hy
    · exact (min_le_left _ _).trans (hS.low_self y hy hyt)
    · obtain rfl := List.mem_singleton.mp hy
      exact absurd hd (hS.disc_ne (hS.before.st_disc y hyt).2)
  case low_new =>
    intro w hw hw₁ hwu y hyt hwy
    show Function.update t₁.low u _ u ≤ t.disc y
    rw [hlow]
    rcases hcases w hw hw₁ with hk | ⟨hk, hk₁⟩
    · exact (min_le_left _ _).trans (hS.low_new w hw hk hwu y hyt hwy)
    · have := hF.low_arcs w hk hk₁ y (hS.st_sub hyt) hwy
      rw [hS.disc_keep y (hS.before.st_disc y hyt).2] at this
      exact (min_le_right _ _).trans this
  case reach_new =>
    intro w hw hw₁
    rcases hcases w hw hw₁ with hk | ⟨hk, hk₁⟩
    · exact hS.reach_new w hw hk
    · exact ReflTransGen.head harc (hF.reach_new w hk hk₁)
  case done_disc =>
    intro w hw
    show t₁.disc w ≠ -1
    rcases List.mem_append.mp hw with hw | hw
    · rw [hF.disc_keep w (hS.done_disc w hw)]
      exact hS.done_disc w hw
    · obtain rfl := List.mem_singleton.mp hw
      rw [hF.disc_self]
      omega

/-- An arc to a vertex on the stack: `low[u]` lowered to its number. -/
theorem Scanning.back {fuel : Nat} (hS : Scanning g path t u done tk) (hv : v ∈ g.getD u [])
    (hd : tk.disc v ≠ -1) (hm : tk.stackMember v = true) :
    ∃ tk', scanArc g fuel u tk v = .ok tk' ∧ Scanning g path t u (done ++ [v]) tk' := by
  have hvst : v ∈ tk.st := (hS.inv.stackMember_iff v).mp hm
  have harc : Arc g u v := ⟨hS.u_lt, hv⟩
  refine ⟨{ tk with low := Function.update tk.low u (min (tk.low u) (tk.disc v)) },
    by rw [scanArc, if_neg hd, if_pos hm]; rfl, ?_⟩
  have hlow : Function.update tk.low u (min (tk.low u) (tk.disc v)) u = min (tk.low u) (tk.disc v) := by
    simp
  constructor
  case before => exact hS.before
  case inv => exact hS.inv.setLow _
  case st_ext => exact hS.st_ext
  case disc_self => exact hS.disc_self
  case disc_keep => exact hS.disc_keep
  case disc_new => exact hS.disc_new
  case low_keep =>
    intro w hw
    have hwu : w ≠ u := fun hwu => hw (hwu ▸ hS.u_undisc)
    show Function.update tk.low u _ w = t.low w
    rw [Function.update_of_ne hwu, hS.low_keep w hw]
  case low_le =>
    show Function.update tk.low u _ u ≤ t.time
    rw [hlow]
    exact (min_le_left _ _).trans hS.low_le
  case low_lt =>
    show Function.update tk.low u _ u < t.time →
      ∃ w ∈ t.st, t.disc w = Function.update tk.low u _ u ∧ _
    rw [hlow]
    intro hlt
    by_cases hvk : tk.disc v < tk.low u
    · rw [min_eq_right hvk.le] at hlt ⊢
      obtain ⟨hvt, hdv⟩ := hS.old_of_lt hvst hlt
      exact ⟨v, hvt, hdv, ReflTransGen.single harc⟩
    · rw [min_eq_left (not_lt.mp hvk)] at hlt ⊢
      exact hS.low_lt hlt
  case low_self =>
    intro y hy hyt
    show Function.update tk.low u _ u ≤ t.disc y
    rw [hlow]
    rcases List.mem_append.mp hy with hy | hy
    · exact (min_le_left _ _).trans (hS.low_self y hy hyt)
    · obtain rfl := List.mem_singleton.mp hy
      rw [← hS.disc_keep y (hS.before.st_disc y hyt).2]
      exact min_le_right _ _
  case low_new =>
    intro w hw hw₁ hwu y hyt hwy
    show Function.update tk.low u _ u ≤ t.disc y
    rw [hlow]
    exact (min_le_left _ _).trans (hS.low_new w hw hw₁ hwu y hyt hwy)
  case reach_new => exact hS.reach_new
  case done_disc =>
    intro w hw
    rcases List.mem_append.mp hw with hw | hw
    · exact hS.done_disc w hw
    · obtain rfl := List.mem_singleton.mp hw
      exact hd

/-- An arc to a vertex already emitted changes nothing. -/
theorem Scanning.cross {fuel : Nat} (hS : Scanning g path t u done tk) (hd : tk.disc v ≠ -1)
    (hm : tk.stackMember v = false) :
    ∃ tk', scanArc g fuel u tk v = .ok tk' ∧ Scanning g path t u (done ++ [v]) tk' := by
  refine ⟨tk, by rw [scanArc, if_neg hd, if_neg (by simp [hm])]; rfl, ?_⟩
  refine { hS with low_self := ?_, done_disc := ?_ }
  · intro y hy hyt
    rcases List.mem_append.mp hy with hy | hy
    · exact hS.low_self y hy hyt
    · obtain rfl := List.mem_singleton.mp hy
      have := (hS.inv.stackMember_iff y).mpr (hS.st_sub hyt)
      rw [hm] at this
      cases this
  · intro w hw
    rcases List.mem_append.mp hw with hw | hw
    · exact hS.done_disc w hw
    · obtain rfl := List.mem_singleton.mp hw
      exact hd

theorem Scanning.step {fuel : Nat} (ih : UtilSpec g fuel) (hfuel : undiscovered g t ≤ fuel + 1)
    (hS : Scanning g path t u done tk) (hv : v ∈ g.getD u []) :
    ∃ tk', scanArc g fuel u tk v = .ok tk' ∧ Scanning g path t u (done ++ [v]) tk' := by
  by_cases hd : tk.disc v = -1
  · exact hS.tree ih hfuel hv hd
  · cases hm : tk.stackMember v
    · exact hS.cross hd hm
    · exact hS.back hv hd hm

/-- The loop of `SCCUtil(u)` over the arcs of `u` passes all of them. -/
theorem Scanning.loop {fuel : Nat} (ih : UtilSpec g fuel) (hfuel : undiscovered g t ≤ fuel + 1)
    (h : Inv g path t) (hu : t.disc u = -1) :
    ∃ tk, (g.getD u []).foldlM (scanArc g fuel u) (discover t u) = .ok tk ∧
      Scanning g path t u (g.getD u []) tk :=
  foldlM_ok_of_step (P := fun done tk => Scanning g path t u done tk) (g.getD u [])
    (fun pre v suf _ hl hS => hS.step ih hfuel (by rw [hl]; simp)) _ (Scanning.start h hu)

end Scan

/-! ## The end of a call: the pop -/

section Pop

variable {g : List (List Nat)} {path done : List Nat} {t tk : TarjanSCC} {u : Nat}

theorem Scanning.done_mono (hS : Scanning g path t u done tk) {w : Nat} (hw : Done t w) : Done tk w := by
  refine ⟨hS.disc_ne hw.1, fun hmem => ?_⟩
  obtain ⟨ext, hst, hext⟩ := hS.st_ext
  rw [hst] at hmem
  rcases List.mem_append.mp hmem with hmem | hmem
  · exact hw.2 hmem
  · rcases List.mem_cons.mp hmem with rfl | hmem
    · exact hw.1 hS.u_undisc
    · exact hw.1 (hext w hmem)

variable (hS : Scanning g path t u (g.getD u []) tk)
include hS

/-- Every arc from the call into the caller's stack bounds `low[u]`. -/
theorem Scanning.low_arcs : ∀ v, t.disc v = -1 → tk.disc v ≠ -1 → ∀ y ∈ t.st, Arc g v y →
    tk.low u ≤ t.disc y := by
  intro v hv hv' y hy hvy
  by_cases hvu : v = u
  · subst hvu
    exact hS.low_self y hvy.2 hy
  · exact hS.low_new v hv hv' hvu y hy hvy

/-- Once the loop is over, every successor of a vertex of the call is discovered. -/
theorem Scanning.succ_disc_all : ∀ v, t.disc v = -1 → tk.disc v ≠ -1 → ∀ w, Arc g v w →
    tk.disc w ≠ -1 := by
  intro v hv hv' w hvw
  by_cases hvu : v = u
  · subst hvu
    exact hS.done_disc w hvw.2
  · have hvp : v ∉ path := fun hm => (hS.before.st_disc v (hS.before.path_st v hm)).2 hv
    exact hS.inv.succ_disc v hvw.1 hv' (by simpa [hvu] using hvp) w hvw

/-- For a root, an arc out of the vertices of the call ends at a vertex emitted before it. -/
theorem Scanning.exit_done (hroot : tk.low u = t.time) {v y : Nat} (hv : t.disc v = -1)
    (hv' : tk.disc v ≠ -1) (hvy : Arc g v y) (hy : ¬ (t.disc y = -1 ∧ tk.disc y ≠ -1)) :
    Done t y := by
  have hdy : t.disc y ≠ -1 := fun hdy => hy ⟨hdy, hS.succ_disc_all v hv hv' y hvy⟩
  refine ⟨hdy, fun hyt => ?_⟩
  have hle := hS.low_arcs v hv hv' y hyt hvy
  have hlt := (hS.before.disc_lt y (hS.before.st_disc y hyt).1 hdy).2
  rw [hroot] at hle
  omega

/-- For a root, what reaches `u` and is reached from it was discovered in the call. -/
theorem Scanning.new_of_sameComponent (hroot : tk.low u = t.time) {b : Nat}
    (hb : SameComponent (Arc g) u b) : t.disc b = -1 ∧ tk.disc b ≠ -1 := by
  by_contra hnew
  obtain ⟨x, y, -, hx, hxy, hy, hyb⟩ := exists_exit (S := {v | t.disc v = -1 ∧ tk.disc v ≠ -1}) hb.1
    ⟨hS.u_undisc, by rw [hS.disc_self]; omega⟩ hnew
  have hdone := hS.before.done_of_reach (hS.exit_done hroot hx.1 hx.2 hxy hy) (hyb.trans hb.2)
  exact hdone.1 hS.u_undisc

/-- For a root, every stack vertex discovered in the call reaches `u`. -/
theorem Scanning.reach_root (hroot : tk.low u = t.time) {z : Nat} (hz : t.disc z = -1)
    (hzst : z ∈ tk.st) : ReflTransGen (Arc g) z u := by
  obtain ⟨x, hx, hzx⟩ := hS.inv.st_reach z hzst
  rcases List.mem_append.mp hx with hx | hx
  · exfalso
    have hxt := hS.before.path_st x hx
    have hxd := (hS.before.st_disc x hxt).2
    obtain ⟨v, y, -, hv, hvy, hy, hyx⟩ := exists_exit (S := {v | t.disc v = -1 ∧ tk.disc v ≠ -1}) hzx
      ⟨hz, (hS.inv.st_disc z hzst).2⟩ (fun h => hxd h.1)
    exact (hS.before.done_of_reach (hS.exit_done hroot hv.1 hv.2 hvy hy) hyx).2 hxt
  · obtain rfl := List.mem_singleton.mp hx
    exact hzx

/-- For a root, the vertices from `u` to the top of the stack are its component. -/
theorem Scanning.mem_iff_sameComponent (hroot : tk.low u = t.time) {ext : List Nat}
    (hst : tk.st = t.st ++ u :: ext) (hext : ∀ v ∈ ext, t.disc v = -1) (b : Nat) :
    b ∈ u :: ext ↔ SameComponent (Arc g) u b := by
  constructor
  · intro hb
    have hbd : t.disc b = -1 := by
      rcases List.mem_cons.mp hb with rfl | hb
      · exact hS.u_undisc
      · exact hext b hb
    have hbst : b ∈ tk.st := by simp [hst, hb]
    exact ⟨hS.reach_new b hbd (hS.inv.st_disc b hbst).2, hS.reach_root hroot hbd hbst⟩
  · intro hb
    obtain ⟨hbd, hbd'⟩ := hS.new_of_sameComponent hroot hb
    have hbst : b ∈ tk.st := by
      by_contra hnot
      exact (hS.inv.done_of_reach ⟨hbd', hnot⟩ hb.2).2 hS.u_mem
    rw [hst] at hbst
    rcases List.mem_append.mp hbst with hbt | hb
    · exact absurd hbd (hS.before.st_disc b hbt).2
    · exact hb

/-- A vertex that is not a root stays on the stack, and the caller's stack
reaches the caller's path through it. -/
theorem Scanning.finished_of_ne (hne : tk.low u ≠ tk.disc u) : Finished g path t u tk := by
  have hlt : tk.low u < t.time := lt_of_le_of_ne hS.low_le (hS.disc_self ▸ hne)
  obtain ⟨w, hwt, -, huw⟩ := hS.low_lt hlt
  have hinv : Inv g path tk := by
    refine { hS.inv with path_st := ?_, st_reach := ?_, succ_disc := ?_ }
    · exact fun x hx => hS.inv.path_st x (List.mem_append_left _ hx)
    · intro y hy
      obtain ⟨x, hx, hyx⟩ := hS.inv.st_reach y hy
      rcases List.mem_append.mp hx with hx | hx
      · exact ⟨x, hx, hyx⟩
      · obtain rfl := List.mem_singleton.mp hx
        obtain ⟨x', hx', hwx'⟩ := hS.before.st_reach w hwt
        exact ⟨x', hx', hyx.trans (huw.trans hwx')⟩
    · intro v hv hdv hvp w hvw
      by_cases hvu : v = u
      · subst hvu
        exact hS.done_disc w hvw.2
      · exact hS.inv.succ_disc v hv hdv (by simpa [hvu] using hvp) w hvw
  obtain ⟨ext, hst, hext⟩ := hS.st_ext
  exact
    { inv := hinv
      st_ext := ⟨u :: ext, hst, by simpa [hS.u_undisc] using hext⟩
      disc_self := hS.disc_self
      disc_keep := hS.disc_keep
      disc_new := hS.disc_new
      low_keep := hS.low_keep
      low_le := hS.low_le
      low_lt := hS.low_lt
      low_arcs := hS.low_arcs
      reach_new := hS.reach_new }

/-- A root pops the vertices from the top of the stack down to `u`, which are
its component, and emits them. -/
theorem Scanning.finished_of_eq (hroot : tk.low u = tk.disc u) {ext : List Nat}
    (hst : tk.st = t.st ++ u :: ext) (hext : ∀ v ∈ ext, t.disc v = -1) :
    Finished g path t u { tk with
      st := t.st
      stackMember := (ext.reverse ++ [u]).foldl (fun sm w => Function.update sm w false) tk.stackMember
      sccList := tk.sccList ++ [⟨sortInts (ext.reverse ++ [u]),
        (ext.reverse ++ [u]).foldl (fun m w => Function.update m w true) fun _ => false⟩]
      nscc := tk.nscc + 1 } := by
  have hroot' : tk.low u = t.time := hroot.trans hS.disc_self
  have hnd : (t.st ++ u :: ext).Nodup := hst ▸ hS.inv.st_nodup
  have hC : ∀ v, v ∈ ext.reverse ++ [u] ↔ v ∈ u :: ext := by
    intro v
    simp [or_comm]
  have hCnd : (ext.reverse ++ [u]).Nodup := by
    have hperm : (ext.reverse ++ [u]).Perm (u :: ext) :=
      List.perm_append_comm.trans (List.Perm.cons u (List.reverse_perm ext))
    exact hperm.nodup_iff.mpr (List.nodup_append.mp hnd).2.1
  have hsort : ∀ v, v ∈ sortInts (ext.reverse ++ [u]) ↔ v ∈ u :: ext := fun v =>
    (sortInts_perm _).mem_iff.trans (hC v)
  have hdisj : ∀ v ∈ u :: ext, v ∉ t.st := fun v hv hvt =>
    List.disjoint_of_nodup_append hnd hvt hv
  have htk : ∀ v ∈ u :: ext, v ∈ tk.st := fun v hv => by simp [hst, List.mem_cons.mp hv]
  have hnew : ∀ v ∈ u :: ext, t.disc v = -1 ∧ tk.disc v ≠ -1 := by
    intro v hv
    refine ⟨?_, (hS.inv.st_disc v (htk v hv)).2⟩
    rcases List.mem_cons.mp hv with rfl | hv
    · exact hS.u_undisc
    · exact hext v hv
  have hdone : ∀ v, (tk.disc v ≠ -1 ∧ v ∉ t.st) ↔ Done tk v ∨ v ∈ u :: ext := by
    intro v
    constructor
    · rintro ⟨hdv, hvt⟩
      by_cases hv : v ∈ u :: ext
      · exact .inr hv
      · refine .inl ⟨hdv, fun hvk => ?_⟩
        rw [hst] at hvk
        rcases List.mem_append.mp hvk with hvk | hvk
        · exact hvt hvk
        · exact hv hvk
    · rintro (hv | hv)
      · exact ⟨hv.1, fun hvt => hv.2 (hS.st_sub hvt)⟩
      · exact ⟨(hnew v hv).2, hdisj v hv⟩
  have hcomp := hS.mem_iff_sameComponent hroot' hst hext
  have hinv : Inv g path { tk with
      st := t.st
      stackMember := (ext.reverse ++ [u]).foldl (fun sm w => Function.update sm w false) tk.stackMember
      sccList := tk.sccList ++ [⟨sortInts (ext.reverse ++ [u]),
        (ext.reverse ++ [u]).foldl (fun m w => Function.update m w true) fun _ => false⟩]
      nscc := tk.nscc + 1 } := by
    constructor
    case undisc_lt => exact hS.inv.undisc_lt
    case disc_lt => exact hS.inv.disc_lt
    case stackMember_iff =>
      intro v
      show (ext.reverse ++ [u]).foldl (fun sm w => Function.update sm w false) tk.stackMember v = true ↔
        v ∈ t.st
      rw [foldl_update_const]
      by_cases hv : v ∈ ext.reverse ++ [u]
      · simp [hv, hdisj v ((hC v).mp hv)]
      · have hv' : v ∉ u :: ext := fun h => hv ((hC v).mpr h)
        rw [if_neg hv, hS.inv.stackMember_iff, hst, List.mem_append, or_iff_left hv']
    case st_nodup => exact hS.before.st_nodup
    case st_disc =>
      intro v hv
      exact ⟨(hS.before.st_disc v hv).1, hS.disc_ne (hS.before.st_disc v hv).2⟩
    case path_st => exact hS.before.path_st
    case st_reach => exact hS.before.st_reach
    case succ_disc =>
      intro v hv hdv hvp w hvw
      by_cases hvu : v = u
      · subst hvu
        exact hS.done_disc w hvw.2
      · exact hS.inv.succ_disc v hv hdv (by simpa [hvu] using hvp) w hvw
    case done_closed =>
      intro v hv w hvw
      change tk.disc v ≠ -1 ∧ v ∉ t.st at hv
      show tk.disc w ≠ -1 ∧ w ∉ t.st
      rw [hdone] at hv ⊢
      rcases hv with hv | hv
      · exact .inl (hS.inv.done_closed v hv w hvw)
      · by_cases hw : t.disc w = -1 ∧ tk.disc w ≠ -1
        · by_cases hwst : w ∈ tk.st
          · rw [hst] at hwst
            rcases List.mem_append.mp hwst with hwt | hw'
            · exact absurd hw.1 (hS.before.st_disc w hwt).2
            · exact .inr hw'
          · exact .inl ⟨hw.2, hwst⟩
        · exact .inl (hS.done_mono (hS.exit_done hroot' (hnew v hv).1 (hnew v hv).2 hvw hw))
    case mem_emitted =>
      intro v
      show v ∈ ((tk.sccList ++ _).map SCC.vertices).flatten ↔ v < g.length ∧ (tk.disc v ≠ -1 ∧ v ∉ t.st)
      rw [hdone, List.map_append, List.flatten_append, List.mem_append]
      change v ∈ tk.emitted ∨ v ∈ [sortInts (ext.reverse ++ [u])].flatten ↔ _
      rw [hS.inv.mem_emitted, List.flatten_singleton, hsort]
      have hlt : v ∈ u :: ext → v < g.length := fun hv => (hS.inv.st_disc v (htk v hv)).1
      tauto
    case emitted_nodup =>
      show ((tk.sccList ++ _).map SCC.vertices).flatten.Nodup
      rw [List.map_append, List.flatten_append]
      refine List.nodup_append.mpr ⟨hS.inv.emitted_nodup, by simpa using (sortInts_perm _).nodup_iff.mpr hCnd, ?_⟩
      intro a ha b hb hab
      subst hab
      have hb' : a ∈ u :: ext := by simpa [hsort] using hb
      exact ((hS.inv.mem_emitted a).mp ha).2.2 (htk a hb')
    case scc_ne =>
      intro c hc
      rcases List.mem_append.mp hc with hc | hc
      · exact hS.inv.scc_ne c hc
      · obtain rfl := List.mem_singleton.mp hc
        exact List.ne_nil_of_mem ((hsort u).mpr List.mem_cons_self)
    case scc_comp =>
      intro c hc
      rcases List.mem_append.mp hc with hc | hc
      · exact hS.inv.scc_comp c hc
      · obtain rfl := List.mem_singleton.mp hc
        intro a ha b
        rw [hsort, hcomp] at ha
        rw [hsort, hcomp]
        exact ⟨fun hb => ha.symm.trans hb, fun hb => ha.trans hb⟩
    case scc_member =>
      intro c hc
      rcases List.mem_append.mp hc with hc | hc
      · exact hS.inv.scc_member c hc
      · obtain rfl := List.mem_singleton.mp hc
        intro v
        show (ext.reverse ++ [u]).foldl (fun m w => Function.update m w true) (fun _ => false) v = true ↔ _
        rw [foldl_update_const, hsort, ← hC]
        by_cases hv : v ∈ ext.reverse ++ [u]
        · simp [hv]
        · simp [hv]
    case scc_sorted =>
      intro c hc
      rcases List.mem_append.mp hc with hc | hc
      · exact hS.inv.scc_sorted c hc
      · obtain rfl := List.mem_singleton.mp hc
        exact sortInts_pairwise _
    case nscc_eq =>
      show tk.nscc + 1 = (tk.sccList ++ _).length
      simp [hS.inv.nscc_eq]
  exact
    { inv := hinv
      st_ext := ⟨[], by simp, by simp⟩
      disc_self := hS.disc_self
      disc_keep := hS.disc_keep
      disc_new := hS.disc_new
      low_keep := hS.low_keep
      low_le := hS.low_le
      low_lt := fun h => absurd (hroot' ▸ h) (lt_irrefl _)
      low_arcs := hS.low_arcs
      reach_new := hS.reach_new }

/-- The end of `SCCUtil(u)` returns a finished state. -/
theorem Scanning.emit : ∃ t', emitComponent u tk = .ok t' ∧ Finished g path t u t' := by
  by_cases hroot : tk.low u = tk.disc u
  · obtain ⟨ext, hst, hext⟩ := hS.st_ext
    have hu : u ∉ ext := (List.nodup_cons.mp (List.nodup_append.mp (hst ▸ hS.inv.st_nodup)).2.1).1
    exact ⟨_, emitComponent_of_eq hroot hst hu, hS.finished_of_eq hroot hst hext⟩
  · exact ⟨tk, emitComponent_of_ne hroot, hS.finished_of_ne hroot⟩

end Pop

/-! ## `SCCUtil` and `SCC()` -/

section Search

variable {g : List (List Nat)} {t : TarjanSCC}

/-- `SCCUtil(u)` on an undiscovered `u`, with at least as much fuel as there are
undiscovered vertices, returns a finished state. -/
theorem sccUtil_spec (g : List (List Nat)) (fuel : Nat) : UtilSpec g fuel := by
  induction fuel with
  | zero =>
    intro path t u h hu hfuel
    have := undiscovered_pos (h.undisc_lt u hu) hu
    omega
  | succ fuel ih =>
    intro path t u h hu hfuel
    obtain ⟨tk, hk, hS⟩ := Scanning.loop ih hfuel h hu
    obtain ⟨t', he, hF⟩ := hS.emit
    exact ⟨t', by rw [sccUtil_succ, hk, except_ok_bind, he], hF⟩

theorem undiscovered_le_length (g : List (List Nat)) (t : TarjanSCC) : undiscovered g t ≤ g.length :=
  (List.length_filter_le _ _).trans_eq List.length_range

/-- With no call active the stack is empty. -/
theorem Inv.st_eq_nil (h : Inv g [] t) : t.st = [] :=
  List.eq_nil_iff_forall_not_mem.mpr fun y hy => by
    obtain ⟨x, hx, -⟩ := h.st_reach y hy
    exact List.not_mem_nil hx

/-- A pass of the second loop of `SCC()` keeps the invariant and leaves its
vertex discovered. -/
theorem Inv.visit (h : Inv g [] t) (i : Nat) :
    ∃ t', visitRoot g t i = .ok t' ∧ Inv g [] t' ∧ t'.disc i ≠ -1 ∧
      ∀ v, t.disc v ≠ -1 → t'.disc v ≠ -1 := by
  by_cases hi : t.disc i = -1
  · obtain ⟨t', h', hF⟩ := sccUtil_spec g g.length [] t i h hi (undiscovered_le_length g t)
    refine ⟨t', by rw [visitRoot, if_pos hi, h'], hF.inv, by rw [hF.disc_self]; omega, ?_⟩
    intro v hv
    rw [hF.disc_keep v hv]
    exact hv
  · exact ⟨t, by rw [visitRoot, if_neg hi]; rfl, h, hi, fun v hv => hv⟩

/-- The second loop of `SCC()`, over any list of start vertices, returns with
all of them discovered. -/
theorem Inv.visitAll (h : Inv g [] t) (rs : List Nat) :
    ∃ t', rs.foldlM (visitRoot g) t = .ok t' ∧ Inv g [] t' ∧ ∀ r ∈ rs, t'.disc r ≠ -1 := by
  refine foldlM_ok_of_step (P := fun pre t => Inv g [] t ∧ ∀ r ∈ pre, t.disc r ≠ -1) rs ?_ t
    ⟨h, by simp⟩
  rintro pre i suf t - ⟨hI, hpre⟩
  obtain ⟨t', h', hI', hi, hmono⟩ := hI.visit i
  refine ⟨t', h', hI', fun r hr => ?_⟩
  rcases List.mem_append.mp hr with hr | hr
  · exact hmono r (hpre r hr)
  · obtain rfl := List.mem_singleton.mp hr
    exact hi

theorem resetTables_succ (n : Nat) (t : TarjanSCC) :
    resetTables (n + 1) t = { resetTables n t with
      low := Function.update (resetTables n t).low n (-1)
      disc := Function.update (resetTables n t).disc n (-1) } := by
  simp only [resetTables, List.range_succ, List.foldl_append, List.foldl_cons, List.foldl_nil]

/-- The first loop of `SCC()` marks exactly the vertices below `n` undiscovered. -/
theorem resetTables_eq (t : TarjanSCC) : ∀ n, resetTables n t = { t with
    low := fun v => if v < n then -1 else t.low v
    disc := fun v => if v < n then -1 else t.disc v }
  | 0 => by simp [resetTables]
  | n + 1 => by
    rw [resetTables_succ, resetTables_eq t n]
    dsimp only
    congr 1 <;> funext v <;> by_cases hv : v = n <;> simp [hv] <;> omega

/-- `SCC()` starts its second loop from the invariant with no call active. -/
theorem inv_resetTables (g : List (List Nat)) : Inv g [] (resetTables g.length newTarjanSCC) := by
  rw [resetTables_eq]
  constructor
  case undisc_lt =>
    intro v hv
    by_contra hn
    simp [newTarjanSCC, hn] at hv
  case disc_lt =>
    intro v hv hd
    simp [hv] at hd
  case succ_disc =>
    intro v hv hd
    simp [hv] at hd
  case done_closed =>
    intro v hv w hvw
    exact absurd (by simp [hvw.1]) hv.1
  case mem_emitted =>
    intro v
    simp only [emitted, newTarjanSCC, List.map_nil, List.flatten_nil, List.not_mem_nil, false_iff]
    rintro ⟨hv, hd, -⟩
    simp [hv] at hd
  all_goals simp [newTarjanSCC, emitted]

/-- After a call, `low[u]` is a number: the call's own, or that of a vertex on
the caller's stack. -/
theorem Finished.low_nonneg {path p : List Nat} {t' : TarjanSCC} {u : Nat} (hF : Finished g path t u t')
    (h : Inv g p t) : 0 ≤ t'.low u := by
  by_cases hlt : t'.low u < t.time
  · obtain ⟨w, hw, hdw, -⟩ := hF.low_lt hlt
    rw [← hdw]
    exact (h.disc_lt w (h.st_disc w hw).1 (h.st_disc w hw).2).1
  · omega

/-- `SCC()` returns with every vertex discovered and no call active. -/
theorem scc_spec (g : List (List Nat)) :
    ∃ t, scc g newTarjanSCC = .ok t ∧ Inv g [] t ∧ ∀ v < g.length, t.disc v ≠ -1 := by
  obtain ⟨t, h, hI, hall⟩ := (inv_resetTables g).visitAll (List.range g.length)
  exact ⟨t, by rw [scc_eq]; exact h, hI, fun v hv => hall v (List.mem_range.mpr hv)⟩

/-- Once every vertex is discovered and no call is active, the emitted lists are
the components of `g`, each once. -/
theorem Inv.isComponentList (h : Inv g [] t) (hall : ∀ v < g.length, t.disc v ≠ -1) :
    IsComponentList (Arc g) {v | v < g.length} (t.sccList.map SCC.vertices) where
  nodup := h.emitted_nodup
  ne_nil := by
    simp only [List.mem_map]
    rintro l ⟨c, hc, rfl⟩
    exact h.scc_ne c hc
  mem_flatten := fun a => by
    change a ∈ t.emitted ↔ a < g.length
    rw [h.mem_emitted]
    exact ⟨fun ha => ha.1, fun ha => ⟨ha, hall a ha, by simp [h.st_eq_nil]⟩⟩
  mem_iff := by
    simp only [List.mem_map]
    rintro l ⟨c, hc, rfl⟩
    exact h.scc_comp c hc

end Search

end TarjanSCC

end Nezha
