import Nezha.Models.Graph.JohnsonUnblock
import Nezha.Core.Reach

/-!
# The blocking invariant of Johnson's search (`graph/johnsonce.go`)

A search from `startV` follows the arcs into vertices still to explore
(`Step`). A vertex *escapes* the stack when it reaches `startV` along such
arcs without passing a stack vertex first (`Escapes`). `Blocking` is what
holds of `blocked`, `stack` and `blockedMap` between two steps of the search:

* the stack is a path from `startV` without repeats, and all of it is blocked;
* a blocked vertex off the stack does not escape it, each of its successors is
  blocked and lists it in `blockedMap`;
* the lists of `blockedMap` hold predecessors; those of an unblocked vertex are
  empty, and those of a stack vertex hold no stack vertex below it;
* a blocked vertex off the stack whose list holds a stack vertex `y` does not
  even escape the part of the stack up to `y`.

The last two are what keep a stale entry of `blockedMap` from releasing a stack
vertex (`Blocking.not_released`): when `FindCyclesRecur(v)` found a cycle, `v`
escapes the rest of the stack, and whatever `Unblock(v)` reaches through the
lists reaches `v`. One theorem per step of the search keeps `Blocking`: the
push of `FindCyclesRecur`, its pop after the search from `v` found no cycle,
with `v` added to the lists of its successors, and its pop after `Unblock(v)`.
-/

namespace Nezha

namespace JohnsonCE

open Relation Digraph

/-- The arcs the search follows: into a vertex still to explore. -/
def Step (g : List (List Nat)) (explore : Nat → Bool) (u v : Nat) : Prop :=
  Arc g u v ∧ explore v = true

/-- `w` reaches `startV` along explored arcs without passing a vertex of
`stack` before it. -/
def Escapes (g : List (List Nat)) (explore : Nat → Bool) (startV : Nat) (stack : List Nat)
    (w : Nat) : Prop :=
  TransGen (AvoidArc (Step g explore) {x | x ∈ stack}) w startV

/-- What holds between two steps of a search from `startV`. -/
structure Blocking (g : List (List Nat)) (explore : Nat → Bool) (startV : Nat)
    (blocked : Nat → Bool) (stack : List Nat) (blockedMap : Nat → List Nat) : Prop where
  head : ∀ x ∈ stack.head?, x = startV
  chain : stack.IsChain (Step g explore)
  nodup : stack.Nodup
  blocked_explore : ∀ x, blocked x = true → explore x = true
  stack_blocked : ∀ x ∈ stack, blocked x = true
  map_arc : ∀ x, ∀ y ∈ blockedMap x, Step g explore y x
  map_nil : ∀ x, blocked x = false → blockedMap x = []
  map_above : ∀ x ∈ stack, ∀ y ∈ blockedMap x, y ∈ stack → stack.idxOf x < stack.idxOf y
  escape : stack ≠ [] → ∀ w, blocked w = true → w ∉ stack → ¬ Escapes g explore startV stack w
  succ : ∀ w, blocked w = true → w ∉ stack → ∀ x, Step g explore w x →
    blocked x = true ∧ w ∈ blockedMap x
  stale : stack ≠ [] → ∀ x, blocked x = true → x ∉ stack → ∀ y ∈ blockedMap x, y ∈ stack →
    ¬ Escapes g explore startV (stack.take (stack.idxOf y + 1)) x

section Stack

variable {stack : List Nat} {v y : Nat}

theorem idxOf_append_self (hv : v ∉ stack) : (stack ++ [v]).idxOf v = stack.length := by
  rw [List.idxOf_append_of_notMem hv]
  simp

theorem take_idxOf_append (hy : y ∈ stack) :
    (stack ++ [v]).take ((stack ++ [v]).idxOf y + 1) = stack.take (stack.idxOf y + 1) := by
  rw [List.idxOf_append_of_mem hy,
    List.take_append_of_le_length (List.idxOf_lt_length_of_mem hy)]

theorem setOf_mem_append : {x | x ∈ stack ++ [v]} = insert v {x | x ∈ stack} := by
  ext x
  simp [or_comm]

theorem start_mem_of_head {startV : Nat} (hhead : ∀ x ∈ stack.head?, x = startV) (hne : stack ≠ []) :
    startV ∈ stack := by
  obtain ⟨x, l, rfl⟩ := List.exists_cons_of_ne_nil hne
  obtain rfl := hhead x rfl
  exact List.mem_cons_self

end Stack

section Escapes

variable {g : List (List Nat)} {explore : Nat → Bool} {startV : Nat} {stack stack' : List Nat}
  {v w : Nat}

theorem Escapes.mono (h : Escapes g explore startV stack w) (hsub : ∀ x ∈ stack', x ∈ stack) :
    Escapes g explore startV stack' w :=
  AvoidArc.transGen_mono (fun x hx => hsub x hx) h

/-- A vertex that escapes the stack is off it. -/
theorem Escapes.not_mem (h : Escapes g explore startV stack w) : w ∉ stack := by
  obtain ⟨c, hwc, -⟩ := TransGen.head'_iff.mp h
  exact hwc.2

/-- A path to `startV` avoiding the stack, from a vertex other than `startV`, escapes. -/
theorem escapes_of_reflTransGen
    (h : ReflTransGen (AvoidArc (Step g explore) {x | x ∈ stack}) w startV) (hw : w ≠ startV) :
    Escapes g explore startV stack w :=
  (reflTransGen_iff_eq_or_transGen.mp h).resolve_left (Ne.symm hw)

end Escapes

namespace Blocking

variable {g : List (List Nat)} {explore : Nat → Bool} {startV : Nat}
  {blocked : Nat → Bool} {stack : List Nat} {blockedMap : Nat → List Nat} {v : Nat}

/-- The start is on every non-empty stack. -/
theorem start_mem (h : Blocking g explore startV blocked stack blockedMap) (hne : stack ≠ []) :
    startV ∈ stack :=
  start_mem_of_head h.head hne

/-- The first steps of `FindCyclesRecur(v)`: `v` pushed and blocked. -/
theorem push (h : Blocking g explore startV blocked stack blockedMap)
    (hv : blocked v = false) (hev : explore v = true)
    (harc : ∀ x ∈ stack.getLast?, Step g explore x v)
    (hstart : stack = [] → v = startV ∧ ∀ x, blocked x = false) :
    Blocking g explore startV (Function.update blocked v true) (stack ++ [v]) blockedMap := by
  have hvs : v ∉ stack := fun hvs => by simp [h.stack_blocked v hvs] at hv
  -- a vertex blocked after the push, other than `v`, was blocked below a non-empty stack
  have hold : ∀ w, Function.update blocked v true w = true → w ≠ v → blocked w = true ∧ stack ≠ [] := by
    intro w hw hwv
    rw [Function.update_of_ne hwv] at hw
    refine ⟨hw, fun hnil => ?_⟩
    simp [(hstart hnil).2 w] at hw
  have hmem : ∀ w, w ∉ stack ++ [v] → w ∉ stack ∧ w ≠ v := fun w hw => by simpa [not_or] using hw
  exact {
    head := fun x hx => by
      by_cases hnil : stack = []
      · subst hnil
        simpa [(hstart rfl).1] using hx.symm
      · exact h.head x (by rwa [List.head?_append_of_ne_nil _ hnil] at hx)
    chain := h.chain.append (List.isChain_singleton v) fun x hx y hy => by
      obtain rfl : y = v := by simpa using hy.symm
      exact harc x hx
    nodup := List.nodup_append.mpr ⟨h.nodup, List.nodup_singleton v,
      fun a ha b hb => by obtain rfl := List.mem_singleton.mp hb; exact fun hab => hvs (hab ▸ ha)⟩
    blocked_explore := fun x hx => by
      by_cases hxv : x = v
      · exact hxv ▸ hev
      · exact h.blocked_explore x (by rwa [Function.update_of_ne hxv] at hx)
    stack_blocked := fun x hx => by
      by_cases hxv : x = v
      · simp [hxv]
      · rw [Function.update_of_ne hxv]
        exact h.stack_blocked x (by simpa [hxv] using hx)
    map_arc := h.map_arc
    map_nil := fun x hx => by
      by_cases hxv : x = v
      · simp [hxv] at hx
      · exact h.map_nil x (by rwa [Function.update_of_ne hxv] at hx)
    map_above := fun x hx y hy hys => by
      rcases List.mem_append.mp hx with hxs | hxv
      · rw [List.idxOf_append_of_mem hxs]
        rcases List.mem_append.mp hys with hys | hyv
        · rw [List.idxOf_append_of_mem hys]
          exact h.map_above x hxs y hy hys
        · obtain rfl := List.mem_singleton.mp hyv
          rw [idxOf_append_self hvs]
          exact List.idxOf_lt_length_of_mem hxs
      · obtain rfl := List.mem_singleton.mp hxv
        simp [h.map_nil x hv] at hy
    escape := fun _ w hw hws hesc => by
      obtain ⟨hws, hwv⟩ := hmem w hws
      obtain ⟨hw, hne⟩ := hold w hw hwv
      exact h.escape hne w hw hws (hesc.mono fun x hx => List.mem_append_left _ hx)
    succ := fun w hw hws x hx => by
      obtain ⟨hws, hwv⟩ := hmem w hws
      obtain ⟨hbx, hmx⟩ := h.succ w (hold w hw hwv).1 hws x hx
      refine ⟨?_, hmx⟩
      by_cases hxv : x = v
      · simp [hxv]
      · rwa [Function.update_of_ne hxv]
    stale := fun _ x hx hxs' y hy hys => by
      obtain ⟨hxs, hxv⟩ := hmem x hxs'
      obtain ⟨hbx, hne⟩ := hold x hx hxv
      rcases List.mem_append.mp hys with hys | hyv
      · rw [take_idxOf_append hys]
        exact h.stale hne x hbx hxs y hy hys
      · obtain rfl := List.mem_singleton.mp hyv
        rw [idxOf_append_self hvs, List.take_of_length_le (by simp)]
        exact fun hesc => h.escape hne x hbx hxs (hesc.mono fun z hz => List.mem_append_left _ hz) }

/-- The prefix below the top of the stack keeps the path facts. -/
theorem pop_path (h : Blocking g explore startV blocked (stack ++ [v]) blockedMap) :
    (∀ x ∈ stack.head?, x = startV) ∧ stack.IsChain (Step g explore) ∧ stack.Nodup ∧ v ∉ stack := by
  have hnd := List.nodup_append.mp h.nodup
  refine ⟨fun x hx => h.head x ?_, (List.isChain_append.mp h.chain).1, hnd.1,
    fun hv => hnd.2.2 v hv v (List.mem_singleton_self v) rfl⟩
  by_cases hnil : stack = []
  · simp [hnil] at hx
  · rwa [List.head?_append_of_ne_nil _ hnil]

/-- After the search from the top found no cycle, with every successor of the
top blocked and none the start, the top does not escape the rest of the stack. -/
theorem not_escapes_top (h : Blocking g explore startV blocked (stack ++ [v]) blockedMap)
    (hne : stack ≠ []) (hsucc : ∀ x, Step g explore v x → blocked x = true ∧ x ≠ startV) :
    ¬ Escapes g explore startV stack v := by
  obtain ⟨hhead, -, -, hvs⟩ := h.pop_path
  have hvst : v ≠ startV := fun hv => hvs (hv ▸ start_mem_of_head hhead hne)
  intro hesc
  -- the path leaves `v` for the last time by an arc into a successor `c`
  rcases reflTransGen_avoid_or_last (v := v) hesc.to_reflTransGen with hpath | ⟨c, hvc, hc⟩
  · obtain ⟨c, hvc, -⟩ := TransGen.head'_iff.mp
      ((reflTransGen_iff_eq_or_transGen.mp hpath).resolve_left (Ne.symm hvst))
    exact hvc.2 (Set.mem_insert v _)
  · obtain ⟨hbc, hcs⟩ := hsucc c hvc
    rw [← setOf_mem_append] at hc
    have hcesc : Escapes g explore startV (stack ++ [v]) c := escapes_of_reflTransGen hc hcs
    exact h.escape (by simp) c hbc hcesc.not_mem hcesc

/-- The end of `FindCyclesRecur(v)` when it found no cycle: `v` stays blocked,
is listed in `blockedMap` by each of its successors, and is popped. -/
theorem pop_keep (hloop : Loopless g) (h : Blocking g explore startV blocked (stack ++ [v]) blockedMap)
    (hsucc : ∀ x, Step g explore v x → blocked x = true ∧ x ≠ startV) {blockedMap' : Nat → List Nat}
    (hmem : ∀ x y, y ∈ blockedMap' x ↔ y ∈ blockedMap x ∨ (y = v ∧ Step g explore v x))
    (hsame : ∀ x, ¬ Step g explore v x → blockedMap' x = blockedMap x) :
    Blocking g explore startV blocked stack blockedMap' := by
  obtain ⟨hhead, hchain, hnd, hvs⟩ := h.pop_path
  have hoff : ∀ w, w ∉ stack → w ≠ v → w ∉ stack ++ [v] := fun w hws hwv => by simp [hws, hwv]
  exact {
    head := hhead
    chain := hchain
    nodup := hnd
    blocked_explore := h.blocked_explore
    stack_blocked := fun x hx => h.stack_blocked x (List.mem_append_left _ hx)
    map_arc := fun x y hy => by
      rcases (hmem x y).mp hy with hy | ⟨rfl, hyx⟩
      · exact h.map_arc x y hy
      · exact hyx
    map_nil := fun x hx => by
      have hvx : ¬ Step g explore v x := fun hvx => by simp [(hsucc x hvx).1] at hx
      rw [hsame x hvx, h.map_nil x hx]
    map_above := fun x hx y hy hys => by
      rcases (hmem x y).mp hy with hy | ⟨rfl, -⟩
      · have := h.map_above x (List.mem_append_left _ hx) y hy (List.mem_append_left _ hys)
        rwa [List.idxOf_append_of_mem hx, List.idxOf_append_of_mem hys] at this
      · exact absurd hys hvs
    escape := fun hne w hw hws hesc => by
      by_cases hwv : w = v
      · exact h.not_escapes_top hne hsucc (hwv ▸ hesc)
      · rcases transGen_avoid_or_from (v := v) hesc with hpath | hpath
        · rw [← setOf_mem_append] at hpath
          exact h.escape (by simp) w hw (hoff w hws hwv) hpath
        · exact h.not_escapes_top hne hsucc hpath
    succ := fun w hw hws x hx => by
      by_cases hwv : w = v
      · subst hwv
        exact ⟨(hsucc x hx).1, (hmem x w).mpr (.inr ⟨rfl, hx⟩)⟩
      · obtain ⟨hbx, hwx⟩ := h.succ w hw (hoff w hws hwv) x hx
        exact ⟨hbx, (hmem x w).mpr (.inl hwx)⟩
    stale := fun hne x hx hxs y hy hys => by
      by_cases hxv : x = v
      · -- without a self-loop `v` lists no new vertex, and none of the stack below it
        subst hxv
        rw [hsame x fun hxx => hloop x hxx.1] at hy
        have := h.map_above x (by simp) y hy (List.mem_append_left _ hys)
        rw [idxOf_append_self hvs, List.idxOf_append_of_mem hys] at this
        exact absurd (List.idxOf_lt_length_of_mem hys) (not_lt.mpr this.le)
      · rcases (hmem x y).mp hy with hy | ⟨rfl, -⟩
        · rw [← take_idxOf_append (v := v) hys]
          exact h.stale (by simp) x hx (hoff x hxs hxv) y hy (List.mem_append_left _ hys)
        · exact absurd hys hvs }

/-- A blocked vertex with a path to the top that avoids the rest of the stack
is released by `Unblock` of the top. -/
theorem released_of_path (h : Blocking g explore startV blocked (stack ++ [v]) blockedMap) {w : Nat}
    (hw : ReflTransGen (AvoidArc (Step g explore) {x | x ∈ stack}) w v) (hbw : blocked w = true) :
    Released blocked blockedMap v w := by
  revert hbw
  induction hw using ReflTransGen.head_induction_on with
  | refl => exact fun _ => .refl
  | @head a c hac _ ih =>
    intro hba
    by_cases hav : a = v
    · rw [hav]
      exact .refl
    · obtain ⟨hbc, hac'⟩ := h.succ a hba (by simp [show a ∉ stack from hac.2, hav]) c hac.1
      exact (ih hbc).tail ⟨hac', hba⟩

/-- When the top escapes the rest of the stack, `Unblock` of the top releases no
vertex below it: every released vertex is off the stack and reaches the top
around it. -/
theorem not_released (h : Blocking g explore startV blocked (stack ++ [v]) blockedMap)
    (hesc : Escapes g explore startV stack v) {y : Nat} (hy : Released blocked blockedMap v y) :
    y ∉ stack ∧ ReflTransGen (AvoidArc (Step g explore) {x | x ∈ stack}) y v := by
  obtain ⟨-, -, -, hvs⟩ := h.pop_path
  induction hy with
  | refl => exact ⟨hvs, .refl⟩
  | @tail x y hvx hxy ih =>
    obtain ⟨hxs, hxv⟩ := ih
    have hys : y ∉ stack := by
      intro hys
      by_cases hxeq : x = v
      · -- `v` lists no vertex of the stack below it
        subst hxeq
        have := h.map_above x (by simp) y hxy.1 (List.mem_append_left _ hys)
        rw [idxOf_append_self hvs, List.idxOf_append_of_mem hys] at this
        exact absurd (List.idxOf_lt_length_of_mem hys) (not_lt.mpr this.le)
      · -- `x` escapes the stack through `v`, against what its stale entry `y` allows
        have hstale := h.stale (by simp) x (Released.blocked_of_ne hvx hxeq) (by simp [hxs, hxeq]) y hxy.1
          (List.mem_append_left _ hys)
        rw [take_idxOf_append hys] at hstale
        exact hstale (Escapes.mono (TransGen.trans_right hxv hesc) fun z hz => List.mem_of_mem_take hz)
    exact ⟨hys, .head ⟨h.map_arc x y hxy.1, hys⟩ hxv⟩

/-- The end of `FindCyclesRecur(v)` when it found a cycle: `Unblock(v)`, then the pop. -/
theorem pop_release (h : Blocking g explore startV blocked (stack ++ [v]) blockedMap)
    (hesc : Escapes g explore startV stack v) {blocked' : Nat → Bool} {blockedMap' : Nat → List Nat}
    (hU : Unblocked blocked blockedMap v blocked' blockedMap') :
    Blocking g explore startV blocked' stack blockedMap' := by
  obtain ⟨hhead, hchain, hnd, hvs⟩ := h.pop_path
  have hb' : ∀ y, blocked' y = true → blocked y = true ∧ ¬ Released blocked blockedMap v y :=
    fun y => (hU.blocked_iff y).mp
  have hsub : ∀ x, ∀ y ∈ blockedMap' x, y ∈ blockedMap x := fun x y hy => by
    by_cases hx : Released blocked blockedMap v x
    · simp [hU.map_released x hx] at hy
    · rwa [hU.map_other x hx] at hy
  have hoff : ∀ w, blocked' w = true → w ∉ stack → w ∉ stack ++ [v] := fun w hw hws => by
    have hwv : w ≠ v := fun hwv => (hb' w hw).2 (hwv ▸ .refl)
    simp [hws, hwv]
  exact {
    head := hhead
    chain := hchain
    nodup := hnd
    blocked_explore := fun x hx => h.blocked_explore x (hb' x hx).1
    stack_blocked := fun x hx => (hU.blocked_iff x).mpr
      ⟨h.stack_blocked x (List.mem_append_left _ hx), fun hr => (h.not_released hesc hr).1 hx⟩
    map_arc := fun x y hy => h.map_arc x y (hsub x y hy)
    map_nil := fun x hx => by
      by_cases hr : Released blocked blockedMap v x
      · exact hU.map_released x hr
      · rw [hU.map_other x hr]
        cases hbx : blocked x with
        | false => exact h.map_nil x hbx
        | true => simp [(hU.blocked_iff x).mpr ⟨hbx, hr⟩] at hx
    map_above := fun x hx y hy hys => by
      have := h.map_above x (List.mem_append_left _ hx) y (hsub x y hy) (List.mem_append_left _ hys)
      rwa [List.idxOf_append_of_mem hx, List.idxOf_append_of_mem hys] at this
    escape := fun hne w hw hws hesc' => by
      obtain ⟨hbw, hrw⟩ := hb' w hw
      -- a path of `w` that avoids the stack passes `v`, or escapes the stack with `v` on it
      rcases reflTransGen_avoid_or_to (v := v) hesc'.to_reflTransGen with hpath | hpath
      · rw [← setOf_mem_append] at hpath
        have hwst : w ≠ startV := fun hw' => hws (hw' ▸ start_mem_of_head hhead hne)
        exact h.escape (by simp) w hbw (hoff w hw hws) (escapes_of_reflTransGen hpath hwst)
      · exact hrw (h.released_of_path hpath hbw)
    succ := fun w hw hws x hx => by
      obtain ⟨hbw, hrw⟩ := hb' w hw
      obtain ⟨hbx, hwx⟩ := h.succ w hbw (hoff w hw hws) x hx
      have hrx : ¬ Released blocked blockedMap v x := fun hr => hrw (hr.tail ⟨hwx, hbw⟩)
      exact ⟨(hU.blocked_iff x).mpr ⟨hbx, hrx⟩, by rwa [hU.map_other x hrx]⟩
    stale := fun hne x hx hxs y hy hys => by
      obtain ⟨hbx, hrx⟩ := hb' x hx
      rw [hU.map_other x hrx] at hy
      rw [← take_idxOf_append (v := v) hys]
      exact h.stale (by simp) x hbx (hoff x hx hxs) y hy (List.mem_append_left _ hys) }

end Blocking

end JohnsonCE

end Nezha
