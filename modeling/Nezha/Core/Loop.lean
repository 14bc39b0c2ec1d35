import Mathlib.Order.Basic
import Mathlib.Tactic.Common
import Mathlib.Algebra.GroupWithZero.Nat
import Mathlib.Logic.Function.Iterate
import Mathlib.Order.Monotone.Basic

/-!
# Runtime faults and fuel-bounded loops

Go programs stop with a panic on an out-of-range slice index; a `for cond { }`
loop may also run forever. Both are observable outcomes of the model: a step
returns `Except Fault`, and an unbounded loop runs for at most `fuel`
iterations, reporting `outOfFuel` when it would go on. The invariant rule below
is the only way the later proofs reason about such a loop: an invariant kept by
every iteration and a variant that strictly decreases give a normal exit, with
the invariant and the negated guard, for every fuel above the variant.
-/

/-- The ways a modelled run stops abnormally. -/
inductive Fault where
  /-- `s[i]` with `i` outside `s`: a Go runtime panic. -/
  | indexOutOfRange
  /-- The loop was still running when its fuel ran out. -/
  | outOfFuel
  deriving DecidableEq, Repr

@[simp] theorem except_ok_bind {ε α β : Type} (a : α) (f : α → Except ε β) :
    (Except.ok a >>= f) = f a := rfl

@[simp] theorem except_error_bind {ε α β : Type} (e : ε) (f : α → Except ε β) :
    (Except.error e >>= f) = .error e := rfl

/-- A bind over `Except` that returns normally took a normal first step. -/
theorem except_bind_eq_ok {ε α β : Type} {x : Except ε α} {f : α → Except ε β} {b : β}
    (h : (x >>= f) = .ok b) : ∃ a, x = .ok a ∧ f a = .ok b := by
  cases x with
  | error e => cases h
  | ok a => exact ⟨a, rfl, h⟩

/-- `s[i]` for a Go slice: the element, or a panic. -/
def sliceIndex {α : Type} (s : List α) (i : Nat) : Except Fault α :=
  match s[i]? with
  | some a => .ok a
  | none => .error .indexOutOfRange

theorem sliceIndex_of_lt {α : Type} {s : List α} {i : Nat} (h : i < s.length) :
    sliceIndex s i = .ok s[i] := by
  simp [sliceIndex, List.getElem?_eq_getElem h]

/-- `s[i] = a` for a Go slice: the slice with its entry `i` replaced, or a panic. -/
def sliceSet {α : Type} (s : List α) (i : Nat) (a : α) : Except Fault (List α) :=
  if i < s.length then .ok (s.set i a) else .error .indexOutOfRange

/-- An invariant that every normal pass of a loop over `Except` keeps holds at
every normal exit of the loop. -/
theorem foldlM_invariant {α γ ε : Type} {P : γ → Prop} {f : γ → α → Except ε γ} :
    ∀ (l : List α), (∀ a, ∀ x ∈ l, ∀ b, P a → f a x = .ok b → P b) →
      ∀ a b, P a → l.foldlM f a = .ok b → P b
  | [], _, a, b, ha, h => by
    cases h
    exact ha
  | x :: l, hf, a, b, ha, h => by
    rw [List.foldlM_cons] at h
    cases hx : f a x with
    | error e =>
      rw [hx] at h
      cases h
    | ok c =>
      rw [hx, except_ok_bind] at h
      exact foldlM_invariant l (fun a' y hy => hf a' y (List.mem_cons_of_mem x hy)) c b
        (hf a x List.mem_cons_self c ha hx) h

/-- A loop over `Except` whose every pass returns normally returns normally. -/
theorem foldlM_ok {α γ ε : Type} {f : γ → α → Except ε γ} :
    ∀ (l : List α), (∀ a, ∀ x ∈ l, ∃ b, f a x = .ok b) → ∀ a, ∃ b, l.foldlM f a = .ok b
  | [], _, a => ⟨a, rfl⟩
  | x :: l, hf, a => by
    obtain ⟨c, hc⟩ := hf a x List.mem_cons_self
    rw [List.foldlM_cons, hc, except_ok_bind]
    exact foldlM_ok l (fun a' y hy => hf a' y (List.mem_cons_of_mem x hy)) c

/-- A search over `Except` whose every test returns normally returns what the
tests say. -/
theorem anyM_eq_ok {α ε : Type} {f : α → Except ε Bool} {g : α → Bool} :
    ∀ (l : List α), (∀ a ∈ l, f a = .ok (g a)) → l.anyM f = .ok (l.any g)
  | [], _ => rfl
  | a :: l, hf => by
    rw [List.anyM, hf a List.mem_cons_self, except_ok_bind, List.any_cons]
    cases g a with
    | true => rfl
    | false => exact anyM_eq_ok l fun b hb => hf b (List.mem_cons_of_mem a hb)

/-- A loop over `Except` with an invariant on the passes done so far: when the
pass over each element returns normally from the invariant at the elements
before it, into the invariant with that element done, the loop returns
normally with the whole list done. -/
theorem foldlM_ok_of_step {α γ ε : Type} {P : List α → γ → Prop} {f : γ → α → Except ε γ}
    (l : List α) (hstep : ∀ pre x suf a, l = pre ++ x :: suf → P pre a → ∃ b, f a x = .ok b ∧ P (pre ++ [x]) b) :
    ∀ a, P [] a → ∃ b, l.foldlM f a = .ok b ∧ P l b := by
  -- the loop over the elements still to do, from the invariant at those done
  have hrest : ∀ suf pre, l = pre ++ suf → ∀ a, P pre a → ∃ b, suf.foldlM f a = .ok b ∧ P l b := by
    intro suf
    induction suf with
    | nil =>
      intro pre hl a ha
      rw [List.append_nil] at hl
      subst hl
      exact ⟨a, rfl, ha⟩
    | cons x suf ih =>
      intro pre hl a ha
      obtain ⟨b, hb, hPb⟩ := hstep pre x suf a hl ha
      obtain ⟨c, hc, hPc⟩ := ih (pre ++ [x]) (by rw [hl, List.append_assoc, List.singleton_append]) b hPb
      exact ⟨c, by rw [List.foldlM_cons, hb, except_ok_bind, hc], hPc⟩
  exact fun a ha => hrest l [] rfl a ha

/-- Two loops over one list whose passes keep a relation between their
states: when the first returns normally, the second does too, in a related
state. -/
theorem foldlM_sim {α γ δ ε : Type} {R : γ → δ → Prop} {f : γ → α → Except ε γ}
    {f' : δ → α → Except ε δ} :
    ∀ (l : List α), (∀ a b x a', x ∈ l → R a b → f a x = .ok a' → ∃ b', f' b x = .ok b' ∧ R a' b') →
      ∀ a b a', R a b → l.foldlM f a = .ok a' → ∃ b', l.foldlM f' b = .ok b' ∧ R a' b'
  | [], _, a, b, a', hR, h => by
    cases h
    exact ⟨b, rfl, hR⟩
  | x :: l, hstep, a, b, a', hR, h => by
    rw [List.foldlM_cons] at h
    obtain ⟨c, hc, hrest⟩ := except_bind_eq_ok h
    obtain ⟨d, hd, hRcd⟩ := hstep a b x c List.mem_cons_self hR hc
    rw [List.foldlM_cons, hd, except_ok_bind]
    exact foldlM_sim l (fun a b y a' hy => hstep a b y a' (List.mem_cons_of_mem x hy)) c d a' hRcd hrest

/-- A reflexive and transitive relation that every pass of a loop over a list
establishes between the state before and after it holds between the start
and the end of the loop. -/
theorem foldl_rel_of_mem {α γ : Type} {R : γ → γ → Prop} (hrefl : ∀ a, R a a)
    (htrans : ∀ {a b c}, R a b → R b c → R a c) {f : γ → α → γ} :
    ∀ (l : List α), (∀ a, ∀ x ∈ l, R a (f a x)) → ∀ a, R a (l.foldl f a)
  | [], _, a => hrefl a
  | x :: l, hf, a =>
    htrans (hf a x List.mem_cons_self)
      (foldl_rel_of_mem hrefl htrans l (fun b y hy => hf b y (List.mem_cons_of_mem x hy)) (f a x))

theorem foldl_rel {α γ : Type} {R : γ → γ → Prop} (hrefl : ∀ a, R a a)
    (htrans : ∀ {a b c}, R a b → R b c → R a c) {f : γ → α → γ} (hf : ∀ a x, R a (f a x)) :
    ∀ (l : List α) (a : γ), R a (l.foldl f a) :=
  fun l => foldl_rel_of_mem hrefl htrans l fun a x _ => hf a x

/-- `foldl_rel` under an invariant of the loop that the passes may use. -/
theorem foldl_rel_of_invariant {α γ : Type} {I : γ → Prop} {R : γ → γ → Prop} (hrefl : ∀ a, R a a)
    (htrans : ∀ {a b c}, R a b → R b c → R a c) {f : γ → α → γ}
    (hf : ∀ a x, I a → I (f a x) ∧ R a (f a x)) :
    ∀ (l : List α) (a : γ), I a → I (l.foldl f a) ∧ R a (l.foldl f a)
  | [], a, ha => ⟨ha, hrefl a⟩
  | x :: l, a, ha => by
    obtain ⟨h₁, h₂⟩ := hf a x ha
    obtain ⟨h₃, h₄⟩ := foldl_rel_of_invariant hrefl htrans hf l (f a x) h₁
    exact ⟨h₃, htrans h₂ h₄⟩

/-- An invariant that every pass over an element of the list keeps holds at the end. -/
theorem foldl_invariant {α γ : Type} {P : γ → Prop} {f : γ → α → γ} (l : List α)
    (hstep : ∀ a, ∀ x ∈ l, P a → P (f a x)) : ∀ a, P a → P (l.foldl f a) :=
  foldl_rel_of_mem (R := fun a b => P a → P b) (fun _ h => h) (fun h₁ h₂ h => h₂ (h₁ h)) l hstep

/-- A property of one element that every later pass keeps, and that the pass
over that element establishes, holds at the end of the loop for every element. -/
theorem foldl_establishes {α γ : Type} {P : α → γ → Prop} {f : γ → α → γ}
    (hstep : ∀ a x, P x (f a x)) (hmono : ∀ a x y, P y a → P y (f a x)) :
    ∀ (l : List α) (a : γ), ∀ y ∈ l, P y (l.foldl f a)
  | [], _, y, hy => absurd hy List.not_mem_nil
  | x :: l, a, y, hy => by
    rw [List.foldl_cons]
    by_cases hyl : y ∈ l
    · exact foldl_establishes hstep hmono l (f a x) y hyl
    · obtain rfl : y = x := by simpa [hyl] using hy
      exact foldl_rel (R := fun a b => P y a → P y b) (fun _ h => h) (fun h₁ h₂ h => h₂ (h₁ h))
        (fun a x h => hmono a x y h) l (f a y) (hstep a y)

/-- `foldl_establishes` under an invariant of the loop that the passes may use. -/
theorem foldl_establishes_of_invariant {α γ : Type} {I : γ → Prop} {P : α → γ → Prop}
    {f : γ → α → γ} : ∀ (l : List α), (∀ a, ∀ x ∈ l, I a → I (f a x)) →
    (∀ a, ∀ x ∈ l, I a → P x (f a x)) → (∀ a, ∀ x ∈ l, ∀ y, I a → P y a → P y (f a x)) →
    ∀ a, I a → ∀ y ∈ l, P y (l.foldl f a)
  | [], _, _, _, _, _, y, hy => absurd hy List.not_mem_nil
  | x :: l, hI, hstep, hmono, a, ha, y, hy => by
    rw [List.foldl_cons]
    have hI' : ∀ b, ∀ z ∈ l, I b → I (f b z) := fun b z hz => hI b z (List.mem_cons_of_mem x hz)
    have hmono' : ∀ b, ∀ z ∈ l, ∀ y, I b → P y b → P y (f b z) :=
      fun b z hz => hmono b z (List.mem_cons_of_mem x hz)
    have ha' := hI a x List.mem_cons_self ha
    by_cases hyl : y ∈ l
    · exact foldl_establishes_of_invariant l hI'
        (fun b z hz => hstep b z (List.mem_cons_of_mem x hz)) hmono' (f a x) ha' y hyl
    · obtain rfl : y = x := by simpa [hyl] using hy
      -- the pass over `y` establishes the property, and every later pass keeps it
      have hkeep := foldl_rel_of_mem (R := fun a b => I a → I b ∧ (P y a → P y b))
        (fun _ h => ⟨h, id⟩)
        (fun h₁ h₂ hIa => ⟨(h₂ (h₁ hIa).1).1, (h₂ (h₁ hIa).1).2 ∘ (h₁ hIa).2⟩) l
        (fun b z hz hIb => ⟨hI' b z hz hIb, hmono' b z hz y hIb⟩) (f a y)
      exact (hkeep ha').2 (hstep a y List.mem_cons_self ha)

/-- A graded invariant: a pass over `x` that keeps the invariant at grade `B`
up to grade `B + g x` leaves it, after the whole loop, at the grade raised by
the sum of `g` over the list. -/
theorem foldl_graded {α γ : Type} {I : Nat → γ → Prop} {f : γ → α → γ} (g : α → Nat) :
    ∀ (l : List α), (∀ a, ∀ x ∈ l, ∀ B, I B a → I (B + g x) (f a x)) →
    ∀ a B, I B a → I (B + (l.map g).sum) (l.foldl f a)
  | [], _, _, B, h => by simpa using h
  | x :: l, hstep, a, B, h => by
    rw [List.foldl_cons, List.map_cons, List.sum_cons, ← Nat.add_assoc]
    exact foldl_graded g l (fun b z hz => hstep b z (List.mem_cons_of_mem x hz)) (f a x) (B + g x)
      (hstep a x List.mem_cons_self B h)

/-- A loop whose passes never lower the measure `μ` ends at least where it starts. -/
theorem le_foldl_of_mono {α γ β : Type} [Preorder β] {g : γ → α → γ} (μ : γ → β)
    (hmono : ∀ a x, μ a ≤ μ (g a x)) (l : List α) (a : γ) : μ a ≤ μ (l.foldl g a) :=
  foldl_rel (R := fun a b => μ a ≤ μ b) (fun _ => le_rfl) (fun h₁ h₂ => le_trans h₁ h₂) hmono l a

/-- Two loops over one list agree when the passes of the second never lower a
measure `μ`, and the passes of both agree on every state at or above `m` whose
pass of the second ends below `B`: it is enough that the whole second loop
ends below `B`. -/
theorem foldl_eq_of_mono {α γ β : Type} [Preorder β] {f g : γ → α → γ} (μ : γ → β) {m B : β}
    (hmono : ∀ a x, μ a ≤ μ (g a x)) (hagree : ∀ a x, m ≤ μ a → μ (g a x) < B → f a x = g a x) :
    ∀ (l : List α) (a : γ), m ≤ μ a → μ (l.foldl g a) < B → l.foldl f a = l.foldl g a
  | [], _, _, _ => rfl
  | x :: l, a, hm, hB => by
    -- the later passes only raise the measure, so this pass ends below `B` too
    have hrest := le_foldl_of_mono μ hmono l (g a x)
    rw [List.foldl_cons, List.foldl_cons, hagree a x hm (lt_of_le_of_lt hrest hB)]
    exact foldl_eq_of_mono μ hmono hagree l (g a x) (le_trans hm (hmono a x)) hB

/-- `for cond(s) { s = body(s) }`, for at most `fuel` iterations. -/
def whileM {σ : Type} (cond : σ → Bool) (body : σ → Except Fault σ) : Nat → σ → Except Fault σ
  | 0, s => if cond s then .error .outOfFuel else .ok s
  | fuel + 1, s => if cond s then body s >>= whileM cond body fuel else .ok s

namespace whileM

variable {σ : Type} {cond : σ → Bool} {body : σ → Except Fault σ}

theorem of_not_cond {s : σ} (h : cond s = false) (fuel : Nat) :
    whileM cond body fuel s = .ok s := by
  cases fuel <;> simp [whileM, h]

theorem succ_of_cond {s : σ} (h : cond s = true) (fuel : Nat) :
    whileM cond body (fuel + 1) s = body s >>= whileM cond body fuel := by
  simp [whileM, h]

/-- A finished loop finishes in the same state with more fuel. -/
theorem mono {fuel : Nat} {s r : σ} (h : whileM cond body fuel s = .ok r) :
    ∀ {fuel'}, fuel ≤ fuel' → whileM cond body fuel' s = .ok r := by
  induction fuel generalizing s with
  | zero =>
    intro fuel' _
    cases hc : cond s
    · simp only [whileM, hc] at h
      obtain rfl := Except.ok.inj h
      exact of_not_cond hc fuel'
    · simp [whileM, hc] at h
  | succ fuel ih =>
    intro fuel' hle
    obtain ⟨fuel', rfl⟩ : ∃ f, fuel' = f + 1 := ⟨fuel' - 1, by omega⟩
    cases hc : cond s
    · simp only [whileM, hc] at h
      obtain rfl := Except.ok.inj h
      exact of_not_cond hc _
    · rw [succ_of_cond hc] at h ⊢
      cases hb : body s with
      | error e => simp [hb] at h
      | ok s' =>
        simp only [hb, except_ok_bind] at h ⊢
        exact ih h (by omega)

/-- The loop rule: an invariant kept by each iteration and a strictly
decreasing variant give a normal exit for every fuel above the variant. -/
theorem invariant (Inv : σ → Prop) (μ : σ → Nat)
    (step : ∀ s, Inv s → cond s = true → ∃ s', body s = .ok s' ∧ Inv s' ∧ μ s' < μ s) :
    ∀ (fuel : Nat) (s : σ), Inv s → μ s ≤ fuel →
      ∃ r, whileM cond body fuel s = .ok r ∧ Inv r ∧ cond r = false := by
  intro fuel
  induction fuel with
  | zero =>
    intro s hs hμ
    cases hc : cond s
    · exact ⟨s, of_not_cond hc 0, hs, hc⟩
    · obtain ⟨s', _, _, hlt⟩ := step s hs hc
      omega
  | succ fuel ih =>
    intro s hs hμ
    cases hc : cond s
    · exact ⟨s, of_not_cond hc _, hs, hc⟩
    · obtain ⟨s', hb, hs', hlt⟩ := step s hs hc
      obtain ⟨r, hr, hInv, hcr⟩ := ih s' hs' (by omega)
      refine ⟨r, ?_, hInv, hcr⟩
      rw [succ_of_cond hc, hb, except_ok_bind, hr]

/-- A loop that never leaves an invariant under which its guard holds and its
body returns normally exhausts every fuel. -/
theorem outOfFuel_of_invariant (Inv : σ → Prop) (hcond : ∀ s, Inv s → cond s = true)
    (step : ∀ s, Inv s → ∃ s', body s = .ok s' ∧ Inv s') :
    ∀ (fuel : Nat) (s : σ), Inv s → whileM cond body fuel s = .error .outOfFuel := by
  intro fuel
  induction fuel with
  | zero =>
    intro s hs
    simp [whileM, hcond s hs]
  | succ fuel ih =>
    intro s hs
    obtain ⟨s', hb, hs'⟩ := step s hs
    rw [succ_of_cond (hcond s hs), hb, except_ok_bind]
    exact ih s' hs'

end whileM

/-! ## The trajectory of a loop that always moves forward

A loop whose every pass moves its position forward visits the points of the
orbit of the start under the pass, in increasing order; between two
consecutive ones there is no other. -/

section Trajectory

variable {f : Nat → Nat} (hf : ∀ x, x < f x)
include hf

theorem strictMono_iterate (a : Nat) : StrictMono fun n => f^[n] a :=
  strictMono_nat_of_lt_succ fun n => by
    rw [Function.iterate_succ_apply']
    exact hf _

/-- No point of the orbit lies strictly between a point and the next one. -/
theorem iterate_next_le {a i j : Nat} (hlt : f^[i] a < f^[j] a) : f (f^[i] a) ≤ f^[j] a := by
  have hij : i < j := (strictMono_iterate hf a).lt_iff_lt.mp hlt
  rw [← Function.iterate_succ_apply' f i a]
  exact (strictMono_iterate hf a).monotone hij

end Trajectory
