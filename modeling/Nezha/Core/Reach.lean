import Nezha.Core.Digraph
import Mathlib.Data.Set.Card

/-!
# Reachability and strongly connected components

Strongly connected components are the classes of mutual reachability. A list
of vertex lists that are pairwise disjoint, non-empty, each one whole class and
together covering a vertex set lists every class of that set once
(`IsComponentList`), so it has as many entries as the set has components, and
two such lists of sorted lists differ only in order.

A path that starts inside a set and ends outside it leaves the set by an arc;
the depth-first searches below argue about the first such arc. A path that
passes no vertex of a set before its end (`AvoidArc`) splits at the first or
the last visit of any other vertex into paths of the same kind.
-/

namespace Digraph

open Relation

variable {α : Type*} {r : α → α → Prop}

theorem SameComponent.refl (a : α) : SameComponent r a a := ⟨ReflTransGen.refl, ReflTransGen.refl⟩

theorem SameComponent.symm {a b : α} (h : SameComponent r a b) : SameComponent r b a := ⟨h.2, h.1⟩

theorem SameComponent.trans {a b c : α} (h₁ : SameComponent r a b) (h₂ : SameComponent r b c) :
    SameComponent r a c :=
  ⟨h₁.1.trans h₂.1, h₂.2.trans h₁.2⟩

/-- The strongly connected component of `a`. -/
def componentOf (r : α → α → Prop) (a : α) : Set α := {b | SameComponent r a b}

/-- The strongly connected components of the vertices in `V`. -/
def components (r : α → α → Prop) (V : Set α) : Set (Set α) := componentOf r '' V

/-- A path from inside `S` to outside it leaves `S` by an arc. -/
theorem exists_exit {S : Set α} {a b : α} (hab : ReflTransGen r a b) (ha : a ∈ S) (hb : b ∉ S) :
    ∃ x y, ReflTransGen r a x ∧ x ∈ S ∧ r x y ∧ y ∉ S ∧ ReflTransGen r y b := by
  induction hab using ReflTransGen.head_induction_on with
  | refl => exact absurd ha hb
  | @head a c hac hcb ih =>
    by_cases hc : c ∈ S
    · obtain ⟨x, y, hcx, hx, hxy, hy, hyb⟩ := ih hc
      exact ⟨x, y, ReflTransGen.head hac hcx, hx, hxy, hy, hyb⟩
    · exact ⟨a, c, ReflTransGen.refl, ha, hac, hc, hcb⟩

section Avoid

/-- The arcs of `r` out of a vertex outside `X`: a path of them passes no vertex
of `X` before its last one. -/
def AvoidArc (r : α → α → Prop) (X : Set α) (a b : α) : Prop := r a b ∧ a ∉ X

variable {X Y : Set α} {a b v : α}

/-- A path that avoids a set avoids each of its subsets. -/
theorem AvoidArc.transGen_mono (hXY : X ⊆ Y) (h : TransGen (AvoidArc r Y) a b) :
    TransGen (AvoidArc r X) a b :=
  TransGen.mono (fun _ _ hxy => ⟨hxy.1, fun hx => hxy.2 (hXY hx)⟩) a b h

/-- A path avoiding `X` either avoids `v` too, or its part after a visit of
`v` is a path from `v` avoiding `X`. -/
theorem transGen_avoid_or_from (h : TransGen (AvoidArc r X) a b) :
    TransGen (AvoidArc r (insert v X)) a b ∨ TransGen (AvoidArc r X) v b := by
  induction h using TransGen.head_induction_on with
  | @single a hab =>
    by_cases hav : a = v
    · subst hav
      exact .inr (.single hab)
    · exact .inl (.single ⟨hab.1, by simp [hav, hab.2]⟩)
  | @head a c hac hcb ih =>
    by_cases hav : a = v
    · subst hav
      exact .inr (.head hac hcb)
    · rcases ih with ih | ih
      · exact .inl (.head ⟨hac.1, by simp [hav, hac.2]⟩ ih)
      · exact .inr ih

/-- A path avoiding `X` either avoids `v` too, or its part up to its first
visit of `v` is a path to `v` avoiding `X`. -/
theorem reflTransGen_avoid_or_to (h : ReflTransGen (AvoidArc r X) a b) :
    ReflTransGen (AvoidArc r (insert v X)) a b ∨ ReflTransGen (AvoidArc r X) a v := by
  induction h using ReflTransGen.head_induction_on with
  | refl => exact .inl .refl
  | @head a c hac hcb ih =>
    by_cases hav : a = v
    · subst hav
      exact .inr .refl
    · rcases ih with ih | ih
      · exact .inl (.head ⟨hac.1, by simp [hav, hac.2]⟩ ih)
      · exact .inr (.head hac ih)

/-- A path avoiding `X` either avoids `v` too, or after its last visit of `v`
it continues by an arc out of `v` into a path avoiding `v` and `X`. -/
theorem reflTransGen_avoid_or_last (h : ReflTransGen (AvoidArc r X) a b) :
    ReflTransGen (AvoidArc r (insert v X)) a b ∨
      ∃ c, r v c ∧ ReflTransGen (AvoidArc r (insert v X)) c b := by
  induction h using ReflTransGen.head_induction_on with
  | refl => exact .inl .refl
  | @head a c hac hcb ih =>
    rcases ih with ih | ih
    · by_cases hav : a = v
      · subst hav
        exact .inr ⟨c, hac.1, ih⟩
      · exact .inl (.head ⟨hac.1, by simp [hav, hac.2]⟩ ih)
    · exact .inr ih

end Avoid

/-- `L` lists the strongly connected components of the vertices in `V`, each
once: disjoint non-empty lists, each a whole component, that together hold
exactly the vertices of `V`. -/
structure IsComponentList (r : α → α → Prop) (V : Set α) (L : List (List α)) : Prop where
  nodup : L.flatten.Nodup
  ne_nil : ∀ l ∈ L, l ≠ []
  mem_flatten : ∀ a, a ∈ L.flatten ↔ a ∈ V
  mem_iff : ∀ l ∈ L, ∀ a ∈ l, ∀ b, b ∈ l ↔ SameComponent r a b

namespace IsComponentList

variable {V : Set α} {L L₁ L₂ : List (List α)}

theorem exists_mem (h : IsComponentList r V L) {a : α} (ha : a ∈ V) : ∃ l ∈ L, a ∈ l :=
  List.mem_flatten.mp ((h.mem_flatten a).mpr ha)

/-- Two vertices share a list exactly when they lie in one component. -/
theorem sameComponent_iff (h : IsComponentList r V L) {a b : α} (ha : a ∈ V) :
    (∃ l ∈ L, a ∈ l ∧ b ∈ l) ↔ SameComponent r a b := by
  constructor
  · rintro ⟨l, hl, hal, hbl⟩
    exact (h.mem_iff l hl a hal b).mp hbl
  · intro hab
    obtain ⟨l, hl, hal⟩ := h.exists_mem ha
    exact ⟨l, hl, hal, (h.mem_iff l hl a hal b).mpr hab⟩

/-- Disjoint non-empty lists are distinct. -/
theorem nodup_lists (h : IsComponentList r V L) : L.Nodup := by
  refine (List.nodup_flatten.mp h.nodup).2.imp_of_mem fun {l₁ l₂} hl₁ _ hdis heq => ?_
  obtain ⟨a, ha⟩ := List.exists_mem_of_ne_nil l₁ (h.ne_nil l₁ hl₁)
  exact hdis ha (heq ▸ ha)

/-- The lists are as many as the components of `V`. -/
theorem ncard_components (h : IsComponentList r V L) : (components r V).ncard = L.length := by
  classical
  let F : List α → Set α := fun l => {a | a ∈ l}
  have hF : ∀ l ∈ L, ∀ a ∈ l, F l = componentOf r a := fun l hl a ha =>
    Set.ext fun b => h.mem_iff l hl a ha b
  -- distinct entries are disjoint and non-empty, so they name distinct sets
  have hmap : (L.map F).Nodup := by
    refine List.pairwise_map.mpr ((List.nodup_flatten.mp h.nodup).2.imp_of_mem
      fun {l₁ l₂} hl₁ _ hdis heq => ?_)
    obtain ⟨a, ha⟩ := List.exists_mem_of_ne_nil l₁ (h.ne_nil l₁ hl₁)
    have ha₂ : a ∈ F l₂ := heq ▸ (show a ∈ F l₁ from ha)
    exact hdis ha ha₂
  have hset : components r V = ↑(L.map F).toFinset := by
    ext S
    simp only [components, Set.mem_image, Finset.mem_coe, List.mem_toFinset, List.mem_map]
    constructor
    · rintro ⟨a, haV, rfl⟩
      obtain ⟨l, hl, ha⟩ := h.exists_mem haV
      exact ⟨l, hl, hF l hl a ha⟩
    · rintro ⟨l, hl, rfl⟩
      obtain ⟨a, ha⟩ := List.exists_mem_of_ne_nil l (h.ne_nil l hl)
      exact ⟨a, (h.mem_flatten a).mp (List.mem_flatten.mpr ⟨l, hl, ha⟩), (hF l hl a ha).symm⟩
  rw [hset, Set.ncard_coe_finset, List.toFinset_card_of_nodup hmap, List.length_map]

/-- Lists that are, one by one, reorderings of a component list form one too. -/
theorem of_map_perm {f : List α → List α} (hf : ∀ l, (f l).Perm l)
    (h : IsComponentList r V (L.map f)) : IsComponentList r V L := by
  have hflat : (L.map f).flatten.Perm L.flatten := by
    simpa [List.flatMap_def] using List.Perm.flatMap_left L fun l _ => hf l
  refine ⟨hflat.nodup_iff.mp h.nodup, fun l hl hnil => ?_, fun a => ?_, fun l hl a ha b => ?_⟩
  · subst hnil
    exact h.ne_nil (f []) (List.mem_map_of_mem hl) (hf []).eq_nil
  · rw [← hflat.mem_iff]
    exact h.mem_flatten a
  · have := h.mem_iff (f l) (List.mem_map_of_mem hl) a ((hf l).mem_iff.mpr ha) b
    rwa [(hf l).mem_iff] at this

section Sorted

variable [LinearOrder α]

theorem mem_of_pairwise (h₁ : IsComponentList r V L₁) (h₂ : IsComponentList r V L₂)
    (hs₁ : ∀ l ∈ L₁, l.Pairwise (· ≤ ·)) (hs₂ : ∀ l ∈ L₂, l.Pairwise (· ≤ ·)) {l : List α}
    (hl : l ∈ L₁) : l ∈ L₂ := by
  obtain ⟨a, ha⟩ := List.exists_mem_of_ne_nil l (h₁.ne_nil l hl)
  obtain ⟨l', hl', ha'⟩ := h₂.exists_mem ((h₁.mem_flatten a).mp (List.mem_flatten.mpr ⟨l, hl, ha⟩))
  have hperm : l.Perm l' := by
    refine (List.perm_ext_iff_of_nodup ((List.nodup_flatten.mp h₁.nodup).1 l hl)
      ((List.nodup_flatten.mp h₂.nodup).1 l' hl')).mpr fun b => ?_
    rw [h₁.mem_iff l hl a ha b, h₂.mem_iff l' hl' a ha' b]
  rw [List.Perm.eq_of_pairwise' (hs₁ l hl) (hs₂ l' hl') hperm]
  exact hl'

/-- Two component lists of one vertex set, each list sorted, hold the same
lists up to order. -/
theorem perm_of_pairwise (h₁ : IsComponentList r V L₁) (h₂ : IsComponentList r V L₂)
    (hs₁ : ∀ l ∈ L₁, l.Pairwise (· ≤ ·)) (hs₂ : ∀ l ∈ L₂, l.Pairwise (· ≤ ·)) : L₁.Perm L₂ :=
  (List.perm_ext_iff_of_nodup h₁.nodup_lists h₂.nodup_lists).mpr fun _ =>
    ⟨h₁.mem_of_pairwise h₂ hs₁ hs₂, h₂.mem_of_pairwise h₁ hs₂ hs₁⟩

end Sorted

end IsComponentList

end Digraph
