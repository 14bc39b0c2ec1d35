import Nezha.Models.Graph.JohnsonCE
import Mathlib.Data.Finset.Card
import Mathlib.Logic.Relation

/-!
# Recording a cycle and `Unblock` (`graph/johnsonce.go`)

The loop that records a cycle adds the stack as a list, its 0/1 row, one to
the column of each of its vertices and its length to `sum` (`recordCycle_eq`).

`Unblock(v)` releases exactly the vertices reached from `v` by following the
lists of `blockedMap` through vertices that are blocked, and empties their
lists (`unblock_spec`). The loop over `blockedMap[v]` is tracked by the set of
vertices released so far: all of them reached from `v`, closed under the lists
of every released vertex but `v`, and holding every blocked vertex of the part
of `blockedMap[v]` passed. At the end of the loop it is closed under `v`'s list
too, so it holds all the vertices reached. A nested call is only made for a
blocked vertex and unblocks it first, so the blocked vertices below the number
of vertices bound the depth of the recursion.
-/

namespace Nezha

namespace JohnsonCE

open Relation

/-- The 0/1 row of `cyclesMap` for the vertices of `c`. -/
def indicator (c : List Nat) (v : Nat) : Int := if v ∈ c then 1 else 0

theorem foldl_record (l : List Nat) (acc : Int × (Nat → Int) × (Nat → Int)) :
    l.foldl (fun (acc : Int × (Nat → Int) × (Nat → Int)) iter =>
      (acc.1 + 1, Function.update acc.2.1 iter 1, Function.update acc.2.2 iter (acc.2.2 iter + 1))) acc =
    (acc.1 + l.length, fun v => if v ∈ l then 1 else acc.2.1 v, fun v => acc.2.2 v + l.count v) := by
  induction l generalizing acc with
  | nil => simp
  | cons x l ih =>
    rw [List.foldl_cons, ih]
    simp only [Prod.mk.injEq]
    refine ⟨?_, funext fun v => ?_, funext fun v => ?_⟩
    · simp only [List.length_cons]
      push_cast
      omega
    · by_cases hv : v = x <;> simp [hv]
    · by_cases hv : v = x
      · subst hv
        simp only [Function.update_self, List.count_cons_self]
        push_cast
        omega
      · simp [hv, Ne.symm hv]

/-- Recording the stack as a cycle. -/
theorem recordCycle_eq (s : Search) : recordCycle s = { s with
    sum := s.sum + s.stack.length
    sumArray := fun v => s.sumArray v + s.stack.count v
    cycles := s.cycles ++ [s.stack]
    cyclesMap := s.cyclesMap ++ [indicator s.stack] } := by
  simp only [recordCycle, foldl_record]
  rfl

@[simp] theorem recordCycle_blocked (s : Search) : (recordCycle s).blocked = s.blocked := by
  rw [recordCycle_eq]

@[simp] theorem recordCycle_stack (s : Search) : (recordCycle s).stack = s.stack := by
  rw [recordCycle_eq]

@[simp] theorem recordCycle_blockedMap (s : Search) : (recordCycle s).blockedMap = s.blockedMap := by
  rw [recordCycle_eq]

@[simp] theorem recordCycle_cycles (s : Search) : (recordCycle s).cycles = s.cycles ++ [s.stack] := by
  rw [recordCycle_eq]

/-! ### `Unblock` -/

/-- The blocked vertices below `n`; the depth of `Unblock` is at most their number. -/
def blockedCount (n : Nat) (blocked : Nat → Bool) : Nat :=
  ((Finset.range n).filter fun x => blocked x = true).card

theorem blockedCount_mono {n : Nat} {b b' : Nat → Bool} (h : ∀ x, b' x = true → b x = true) :
    blockedCount n b' ≤ blockedCount n b :=
  Finset.card_le_card fun x hx => by
    simp only [Finset.mem_filter] at hx ⊢
    exact ⟨hx.1, h x hx.2⟩

theorem blockedCount_update {n v : Nat} {b : Nat → Bool} (hv : v < n) (hb : b v = true) :
    blockedCount n (Function.update b v false) + 1 = blockedCount n b := by
  have hset : ((Finset.range n).filter fun x => Function.update b v false x = true) =
      ((Finset.range n).filter fun x => b x = true).erase v := by
    ext x
    by_cases hx : x = v <;> simp [hx]
  rw [blockedCount, hset, Finset.card_erase_of_mem (by simp [hv, hb])]
  have : 0 < ((Finset.range n).filter fun x => b x = true).card :=
    Finset.card_pos.mpr ⟨v, by simp [hv, hb]⟩
  simp only [blockedCount]
  omega

/-- The vertices `Unblock(v)` releases: reached from `v` through the lists of
`blockedMap`, each one blocked. -/
def Released (blocked : Nat → Bool) (blockedMap : Nat → List Nat) (v : Nat) : Nat → Prop :=
  ReflTransGen (fun x y => y ∈ blockedMap x ∧ blocked y = true) v

/-- A released vertex other than the first is blocked. -/
theorem Released.blocked_of_ne {blocked : Nat → Bool} {blockedMap : Nat → List Nat} {v y : Nat}
    (h : Released blocked blockedMap v y) (hy : y ≠ v) : blocked y = true := by
  rcases ReflTransGen.cases_tail h with rfl | ⟨x, -, hxy⟩
  · exact absurd rfl hy
  · exact hxy.2

/-- What `Unblock(v)` leaves: the released vertices unblocked and their lists
emptied, everything else as it was. -/
structure Unblocked (blocked : Nat → Bool) (blockedMap : Nat → List Nat) (v : Nat)
    (blocked' : Nat → Bool) (blockedMap' : Nat → List Nat) : Prop where
  blocked_iff : ∀ y, blocked' y = true ↔ blocked y = true ∧ ¬ Released blocked blockedMap v y
  map_released : ∀ y, Released blocked blockedMap v y → blockedMap' y = []
  map_other : ∀ y, ¬ Released blocked blockedMap v y → blockedMap' y = blockedMap y

/-- `Unblock` with `fuel` releases what it should from every state with a
blocked first vertex and at most `fuel` blocked vertices, all below `n`. -/
def UnblockSpec (n fuel : Nat) : Prop :=
  ∀ blocked blockedMap v, blocked v = true → (∀ x, blocked x = true → x < n) →
    blockedCount n blocked ≤ fuel →
    ∃ blocked' blockedMap', unblock fuel blocked blockedMap v = .ok (blocked', blockedMap') ∧
      Unblocked blocked blockedMap v blocked' blockedMap'

/-- Where the loop of `Unblock(v)` over `blockedMap[v]` stands, with the
elements `done` passed: the vertices `D` released so far. -/
structure Releasing (blocked : Nat → Bool) (blockedMap : Nat → List Nat) (v : Nat)
    (done : List Nat) (D : Nat → Prop) (acc : (Nat → Bool) × (Nat → List Nat)) : Prop where
  self : D v
  released : ∀ y, D y → Released blocked blockedMap v y
  blocked_iff : ∀ y, acc.1 y = true ↔ blocked y = true ∧ ¬ D y
  map_self : acc.2 v = blockedMap v
  map_released : ∀ y, D y → y ≠ v → acc.2 y = []
  map_other : ∀ y, ¬ D y → acc.2 y = blockedMap y
  closed : ∀ x, D x → x ≠ v → ∀ y ∈ blockedMap x, blocked y = true → D y
  done_released : ∀ y ∈ done, blocked y = true → D y

section Releasing

variable {n fuel : Nat} {blocked : Nat → Bool} {blockedMap : Nat → List Nat} {v : Nat}

theorem Releasing.init :
    Releasing blocked blockedMap v [] (· = v) (Function.update blocked v false, blockedMap) where
  self := rfl
  released := fun y hy => hy ▸ ReflTransGen.refl
  blocked_iff := fun y => by by_cases hy : y = v <;> simp [hy]
  map_self := rfl
  map_released := fun y hy hne => absurd hy hne
  map_other := fun _ _ => rfl
  closed := fun x hx hne => absurd hx hne
  done_released := fun _ hy => by simp at hy

/-- A vertex of the list that is no longer blocked is passed over: it was
released already, or never blocked. -/
theorem Releasing.skip {done : List Nat} {D : Nat → Prop} {acc : (Nat → Bool) × (Nat → List Nat)}
    {w : Nat} (h : Releasing blocked blockedMap v done D acc) (hwb : acc.1 w = false) :
    Releasing blocked blockedMap v (done ++ [w]) D acc := by
  refine { h with done_released := fun y hy hby => ?_ }
  rcases List.mem_append.mp hy with hy | hy
  · exact h.done_released y hy hby
  · obtain rfl := List.mem_singleton.mp hy
    by_contra hyD
    simp [(h.blocked_iff y).mpr ⟨hby, hyD⟩] at hwb

/-- A nested `Unblock(w)` from the loop adds what it releases to `D`. -/
theorem Releasing.call {done : List Nat} {D : Nat → Prop} {acc : (Nat → Bool) × (Nat → List Nat)}
    {w : Nat} {bl' : Nat → Bool} {bm' : Nat → List Nat}
    (h : Releasing blocked blockedMap v done D acc) (hw : w ∈ blockedMap v) (hwb : acc.1 w = true)
    (hU : Unblocked acc.1 acc.2 w bl' bm') :
    Releasing blocked blockedMap v (done ++ [w]) (fun y => D y ∨ Released acc.1 acc.2 w y) (bl', bm') := by
  -- what the nested call releases was blocked and not yet released
  have hfresh : ∀ y, Released acc.1 acc.2 w y → acc.1 y = true := fun y hy => by
    by_cases hyw : y = w
    · exact hyw ▸ hwb
    · exact hy.blocked_of_ne hyw
  have hnotD : ∀ y, Released acc.1 acc.2 w y → ¬ D y := fun y hy => ((h.blocked_iff y).mp (hfresh y hy)).2
  have hnotv : ¬ Released acc.1 acc.2 w v := fun hv => hnotD v hv h.self
  have hwv : Released blocked blockedMap v w :=
    ReflTransGen.single ⟨hw, ((h.blocked_iff w).mp hwb).1⟩
  refine ⟨.inl h.self, fun y hy => ?_, fun y => ?_, ?_, fun y hy hne => ?_, fun y hy => ?_,
    fun x hx hne y hy hby => ?_, fun y hy hby => ?_⟩
  · rcases hy with hy | hy
    · exact h.released y hy
    · refine hwv.trans (ReflTransGen.mono (fun a b hab => ⟨?_, ((h.blocked_iff b).mp hab.2).1⟩) w y hy)
      by_cases ha : D a
      · by_cases hav : a = v
        · subst hav
          rw [← h.map_self]
          exact hab.1
        · simp [h.map_released a ha hav] at hab
      · rw [← h.map_other a ha]
        exact hab.1
  · rw [hU.blocked_iff, h.blocked_iff]
    tauto
  · show bm' v = blockedMap v
    rw [hU.map_other v hnotv, h.map_self]
  · show bm' y = []
    rcases hy with hy | hy
    · by_cases hyw : Released acc.1 acc.2 w y
      · exact hU.map_released y hyw
      · rw [hU.map_other y hyw, h.map_released y hy hne]
    · exact hU.map_released y hy
  · show bm' y = blockedMap y
    rw [not_or] at hy
    rw [hU.map_other y hy.2, h.map_other y hy.1]
  · rcases hx with hx | hx
    · exact .inl (h.closed x hx hne y hy hby)
    · by_cases hyD : D y
      · exact .inl hyD
      · refine .inr (hx.tail ⟨?_, (h.blocked_iff y).mpr ⟨hby, hyD⟩⟩)
        rw [h.map_other x (hnotD x hx)]
        exact hy
  · rcases List.mem_append.mp hy with hy | hy
    · exact .inl (h.done_released y hy hby)
    · obtain rfl := List.mem_singleton.mp hy
      exact .inr ReflTransGen.refl

/-- At the end of the loop every vertex reached from `v` is released. -/
theorem Releasing.unblocked {D : Nat → Prop} {acc : (Nat → Bool) × (Nat → List Nat)}
    (h : Releasing blocked blockedMap v (blockedMap v) D acc) :
    Unblocked blocked blockedMap v acc.1 (Function.update acc.2 v []) := by
  have hD : ∀ y, Released blocked blockedMap v y → D y := fun y hy => by
    induction hy with
    | refl => exact h.self
    | @tail x y _ hxy ih =>
      by_cases hxv : x = v
      · subst hxv
        exact h.done_released y hxy.1 hxy.2
      · exact h.closed x ih hxv y hxy.1 hxy.2
  have hiff : ∀ y, D y ↔ Released blocked blockedMap v y := fun y => ⟨h.released y, hD y⟩
  refine ⟨fun y => by rw [h.blocked_iff, hiff], fun y hy => ?_, fun y hy => ?_⟩
  · by_cases hyv : y = v
    · subst hyv
      simp
    · rw [Function.update_of_ne hyv, h.map_released y (hD y hy) hyv]
  · have hyv : y ≠ v := fun hyv => hy (hyv ▸ ReflTransGen.refl)
    rw [Function.update_of_ne hyv, h.map_other y ((hiff y).not.mpr hy)]

end Releasing

/-- `Unblock(v)` releases exactly the vertices reached from `v` through the
lists of blocked vertices, with as much fuel as there are blocked vertices. -/
theorem unblock_spec (n : Nat) : ∀ fuel, UnblockSpec n fuel := by
  intro fuel
  induction fuel with
  | zero =>
    intro blocked blockedMap v hv hlt hcount
    have : 0 < blockedCount n blocked := Finset.card_pos.mpr ⟨v, by simp [hlt v hv, hv]⟩
    omega
  | succ fuel ih =>
    intro blocked blockedMap v hv hlt hcount
    have hcount' : blockedCount n (Function.update blocked v false) ≤ fuel := by
      have := blockedCount_update (hlt v hv) hv
      omega
    -- the loop keeps `Releasing`, each nested call on fewer blocked vertices than `fuel`
    obtain ⟨acc, hloop, hacc⟩ := foldlM_ok_of_step
      (P := fun done acc => ∃ D, Releasing blocked blockedMap v done D acc)
      (f := fun (acc : (Nat → Bool) × (Nat → List Nat)) n =>
        if acc.1 n then unblock fuel acc.1 acc.2 n else pure acc) (blockedMap v)
      (fun pre w suf acc hsplit ⟨D, hR⟩ => by
        have hw : w ∈ blockedMap v := by rw [hsplit]; simp
        cases hwb : acc.1 w with
        | false => exact ⟨acc, rfl, D, hR.skip hwb⟩
        | true =>
          have hle : blockedCount n acc.1 ≤ fuel := le_trans (blockedCount_mono fun x hx => by
            have := (hR.blocked_iff x).mp hx
            have hxv : x ≠ v := fun hxv => this.2 (hxv ▸ hR.self)
            simpa [Function.update_of_ne hxv] using this.1) hcount'
          obtain ⟨bl', bm', hcall, hU⟩ := ih acc.1 acc.2 w hwb
            (fun x hx => hlt x ((hR.blocked_iff x).mp hx).1) hle
          exact ⟨(bl', bm'), by simp [hcall], _, hR.call hw hwb hU⟩)
      _ ⟨_, Releasing.init⟩
    obtain ⟨D, hR⟩ := hacc
    refine ⟨acc.1, Function.update acc.2 v [], ?_, hR.unblocked⟩
    simp only [unblock, hloop, except_ok_bind]
    rfl

end JohnsonCE

end Nezha
