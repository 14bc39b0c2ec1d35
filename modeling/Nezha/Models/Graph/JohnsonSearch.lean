import Nezha.Models.Graph.JohnsonBlocking
import Nezha.Core.Loop

/-!
# `FindCyclesRecur` lists the elementary cycles through its start (`graph/johnsonce.go`)

`FindCyclesRecur(v)`, called with the stack `P` and `v` not blocked, records
exactly the elementary cycles that continue the stack `P ++ [v]` and return to
the start (`Extends`), each once when no vertex lists a successor twice, and
leaves the blocking invariant with the stack `P` (`findCyclesRecur_spec`).

The proof follows the loop over the successors of `v` (`Scan`): the cycles
recorded so far are those whose vertex after `v` (`succOf`) is a successor
already passed. A successor that is still blocked starts no such cycle, since
it does not escape the stack; one that is not blocked is searched from, and
the recursive call records the cycles through it. Distinct successors start
distinct cycles. When the loop found no cycle, each explored successor is
blocked and none is the start, which is what `Blocking.pop_keep` needs; when it
found one, `v` escapes the stack below it, which is what `Blocking.pop_release`
needs. The stack has no repeats, so the recursion goes at most as deep as there
are vertices.
-/

namespace Nezha

namespace JohnsonCE

open Relation Digraph

/-! ### `FindCyclesRecur` in pieces -/

/-- The first lines of `FindCyclesRecur(currentV)`: `currentV` pushed and blocked. -/
def enterRecur (s : Search) (currentV : Nat) : Search :=
  { s with stack := s.stack ++ [currentV], blocked := Function.update s.blocked currentV true }

/-- One pass of the loop of `FindCyclesRecur` over the successors of
`currentV`; `visit` is the recursive call. -/
def searchArc (g : List (List Nat)) (explore : Nat → Bool) (startV : Nat)
    (visit : Search → Nat → Except Fault (Search × Bool)) (acc : Search × Bool) (n : Nat) :
    Except Fault (Search × Bool) :=
  if g.length ≤ n then .error .indexOutOfRange
  else if explore n = false then pure acc
  else if n = startV then pure (recordCycle acc.1, true)
  else if acc.1.blocked n = false then do
    let (s, ret) ← visit acc.1 n
    pure (s, acc.2 || ret)
  else pure acc

/-- The loop adding `currentV` to the list of each explored successor. -/
def appendBlocked (g : List (List Nat)) (explore : Nat → Bool) (currentV : Nat)
    (blockedMap : Nat → List Nat) : Nat → List Nat :=
  (g.getD currentV []).foldl (fun bm v =>
    if explore v then Function.update bm v (bm v ++ [currentV]) else bm) blockedMap

/-- The end of `FindCyclesRecur(currentV)`: `Unblock(currentV)` after a cycle,
`currentV` listed by its successors otherwise, and the pop. -/
def finishRecur (g : List (List Nat)) (explore : Nat → Bool) (currentV : Nat) (acc : Search × Bool) :
    Except Fault (Search × Bool) := do
  let s ← if acc.2 then do
      let (blocked, blockedMap) ← unblock g.length acc.1.blocked acc.1.blockedMap currentV
      pure { acc.1 with blocked := blocked, blockedMap := blockedMap }
    else
      pure { acc.1 with blockedMap := appendBlocked g explore currentV acc.1.blockedMap }
  pure ({ s with stack := s.stack.dropLast }, acc.2)

theorem findCyclesRecur_succ (g : List (List Nat)) (explore : Nat → Bool) (startV fuel : Nat)
    (s : Search) (currentV : Nat) :
    findCyclesRecur g explore startV (fuel + 1) s currentV =
      (g.getD currentV []).foldlM (searchArc g explore startV (findCyclesRecur g explore startV fuel))
        (enterRecur s currentV, false) >>= finishRecur g explore currentV :=
  rfl

section AppendBlocked

variable {explore : Nat → Bool} {currentV : Nat}

theorem mem_foldl_append (l : List Nat) (bm : Nat → List Nat) (x y : Nat) :
    y ∈ l.foldl (fun bm v => if explore v then Function.update bm v (bm v ++ [currentV]) else bm) bm x ↔
      y ∈ bm x ∨ (y = currentV ∧ x ∈ l ∧ explore x = true) := by
  induction l generalizing bm with
  | nil => simp
  | cons w l ih =>
    rw [List.foldl_cons, ih]
    by_cases hw : explore w = true
    · by_cases hxw : x = w
      · subst hxw
        simp only [hw, ↓reduceIte, Function.update_self, List.mem_append, List.mem_cons, true_or,
          and_true]
        tauto
      · simp only [hw, ↓reduceIte, Function.update_of_ne hxw, List.mem_cons, hxw, false_or]
    · have hw' : explore w = false := by simpa using hw
      simp only [hw', Bool.false_eq_true, ↓reduceIte, List.mem_cons]
      constructor
      · rintro (h | ⟨rfl, hx, he⟩)
        · exact .inl h
        · exact .inr ⟨rfl, .inr hx, he⟩
      · rintro (h | ⟨rfl, rfl | hx, he⟩)
        · exact .inl h
        · exact absurd he (by simp [hw'])
        · exact .inr ⟨rfl, hx, he⟩

theorem foldl_append_of_not_mem (l : List Nat) (bm : Nat → List Nat) {x : Nat}
    (hx : ¬ (x ∈ l ∧ explore x = true)) :
    l.foldl (fun bm v => if explore v then Function.update bm v (bm v ++ [currentV]) else bm) bm x = bm x := by
  induction l generalizing bm with
  | nil => rfl
  | cons w l ih =>
    rw [List.foldl_cons, ih _ fun h => hx ⟨.tail w h.1, h.2⟩]
    by_cases hw : explore w = true
    · have hxw : x ≠ w := fun hxw => hx ⟨hxw ▸ List.mem_cons_self, hxw ▸ hw⟩
      simp [hw, Function.update_of_ne hxw]
    · simp [hw]

end AppendBlocked

/-! ### The cycles recorded -/

/-- `s'` is `s` with the cycles `N` recorded after those of `s`. -/
structure Appended (s s' : Search) (N : List (List Nat)) : Prop where
  cycles : s'.cycles = s.cycles ++ N
  cyclesMap : s'.cyclesMap = s.cyclesMap ++ N.map indicator
  sumArray : ∀ x, s'.sumArray x = s.sumArray x + (N.map fun c => (c.count x : Int)).sum
  sum : s'.sum = s.sum + (N.map fun c => (c.length : Int)).sum

namespace Appended

variable {s s' s'' : Search} {N N' : List (List Nat)}

theorem of_eq (h₁ : s'.cycles = s.cycles) (h₂ : s'.cyclesMap = s.cyclesMap)
    (h₃ : s'.sumArray = s.sumArray) (h₄ : s'.sum = s.sum) : Appended s s' [] :=
  ⟨by simp [h₁], by simp [h₂], fun x => by simp [h₃], by simp [h₄]⟩

theorem trans (h : Appended s s' N) (h' : Appended s' s'' N') : Appended s s'' (N ++ N') where
  cycles := by rw [h'.cycles, h.cycles, List.append_assoc]
  cyclesMap := by rw [h'.cyclesMap, h.cyclesMap, List.map_append, List.append_assoc]
  sumArray := fun x => by rw [h'.sumArray, h.sumArray, List.map_append, List.sum_append, add_assoc]
  sum := by rw [h'.sum, h.sum, List.map_append, List.sum_append, add_assoc]

/-- A change of the other fields keeps what was recorded. -/
theorem frame (h : Appended s s' N) (h₁ : s''.cycles = s'.cycles) (h₂ : s''.cyclesMap = s'.cyclesMap)
    (h₃ : s''.sumArray = s'.sumArray) (h₄ : s''.sum = s'.sum) : Appended s s'' N := by
  simpa using h.trans (of_eq h₁ h₂ h₃ h₄)

theorem record (s : Search) : Appended s (recordCycle s) [s.stack] := by
  rw [recordCycle_eq]
  exact ⟨rfl, rfl, fun x => by simp, by simp⟩

end Appended

/-- `c` is an elementary cycle through the start that continues the stack:
the stack is a prefix of it, it has no repeats, and it follows explored arcs,
back to the start at its end. -/
def Extends (g : List (List Nat)) (explore : Nat → Bool) (startV : Nat) (stack c : List Nat) : Prop :=
  stack <+: c ∧ c.Nodup ∧ c.IsChain (Step g explore) ∧ ∀ x ∈ c.getLast?, Step g explore x startV

/-- The vertex after the top of the stack on the cycle `c`: the start when `c`
closes there. -/
def succOf (startV : Nat) (stack cycle : List Nat) : Nat := cycle[stack.length]?.getD startV

section Extends

variable {g : List (List Nat)} {explore : Nat → Bool} {startV : Nat} {P c : List Nat} {v n : Nat}

@[simp] theorem succOf_self : succOf startV P P = startV := by
  simp [succOf]

@[simp] theorem succOf_append_cons (rest : List Nat) : succOf startV P (P ++ n :: rest) = n := by
  simp [succOf]

theorem Extends.mono (h : Extends g explore startV (P ++ [n]) c) : Extends g explore startV P c :=
  ⟨(List.prefix_append P [n]).trans h.1, h.2⟩

/-- A cycle continuing the stack `P ++ [n]` takes `n` after `P`. -/
theorem Extends.succOf_eq (h : Extends g explore startV (P ++ [n]) c) : succOf startV P c = n := by
  obtain ⟨rest, rfl⟩ := h.1
  rw [List.append_assoc, List.singleton_append, succOf_append_cons]

/-- The cycle that closes at the top of the stack is the stack itself. -/
theorem Extends.self (hnd : P.Nodup) (hchain : P.IsChain (Step g explore))
    (hclose : ∀ x ∈ P.getLast?, Step g explore x startV) : Extends g explore startV P P :=
  ⟨List.prefix_refl P, hnd, hchain, hclose⟩

/-- A cycle through the start, continuing a stack that starts there, that
returns to the start after the top is the stack itself. -/
theorem Extends.eq_of_succOf (h : Extends g explore startV P c) (hP : startV ∈ P)
    (hs : succOf startV P c = startV) : c = P := by
  obtain ⟨rest, rfl⟩ := h.1
  cases rest with
  | nil => simp
  | cons m rest =>
    rw [succOf_append_cons] at hs
    subst hs
    have := (List.nodup_append.mp h.2.1).2.2 m hP m List.mem_cons_self
    exact absurd rfl this

/-- The top of the stack has an explored arc to the vertex after it. -/
theorem Extends.step_succOf (h : Extends g explore startV (P ++ [v]) c) :
    Step g explore v (succOf startV (P ++ [v]) c) := by
  obtain ⟨rest, rfl⟩ := h.1
  obtain ⟨-, -, hchain, hclose⟩ := h
  cases rest with
  | nil =>
    rw [List.append_nil, succOf_self]
    exact hclose v (by simp)
  | cons m rest =>
    rw [succOf_append_cons]
    exact (List.isChain_append.mp hchain).2.2 v (by simp) m rfl

/-- A path along explored arcs off the stack, ending with an arc to the start, escapes. -/
theorem escapes_of_chain {stack : List Nat} :
    ∀ (l : List Nat) (v : Nat), (v :: l).IsChain (Step g explore) → (∀ x ∈ v :: l, x ∉ stack) →
      (∀ x ∈ (v :: l).getLast?, Step g explore x startV) → Escapes g explore startV stack v := by
  intro l
  induction l with
  | nil =>
    intro v _ hoff hclose
    exact .single ⟨hclose v rfl, hoff v List.mem_cons_self⟩
  | cons m l ih =>
    intro v hchain hoff hclose
    rw [List.isChain_cons_cons] at hchain
    refine .head ⟨hchain.1, hoff v List.mem_cons_self⟩ (ih m hchain.2 (fun x hx => hoff x (.tail v hx)) ?_)
    simpa [List.getLast?_cons_cons] using hclose

/-- The top of the stack escapes the rest of it along any cycle continuing the stack. -/
theorem Extends.escapes (h : Extends g explore startV (P ++ [v]) c) : Escapes g explore startV P v := by
  obtain ⟨rest, rfl⟩ := h.1
  obtain ⟨-, hnd, hchain, hclose⟩ := h
  rw [List.append_assoc, List.singleton_append] at hnd hchain hclose
  refine escapes_of_chain rest v (List.isChain_append.mp hchain).2.1 (fun x hx hxP => ?_) ?_
  · exact (List.nodup_append.mp hnd).2.2 x hxP x hx rfl
  · intro x hx
    exact hclose x (by rw [List.getLast?_append_of_ne_nil _ (List.cons_ne_nil v rest)]; exact hx)

end Extends

/-! ### The search from one vertex -/

/-- Where `FindCyclesRecur(v)` may be called on `s`: the blocking invariant,
`v` explored and not blocked, an arc to it from the top of the stack, and a
fresh state when the stack is empty. -/
structure Pushable (g : List (List Nat)) (explore : Nat → Bool) (startV : Nat) (s : Search) (v : Nat) :
    Prop where
  blocking : Blocking g explore startV s.blocked s.stack s.blockedMap
  unblocked : s.blocked v = false
  explored : explore v = true
  arc : ∀ x ∈ s.stack.getLast?, Step g explore x v
  start : s.stack = [] → v = startV ∧ ∀ x, s.blocked x = false

/-- What `FindCyclesRecur(v)` leaves, called on `s`: the blocking invariant
with the stack of `s`, exactly the cycles continuing `s.stack ++ [v]` recorded,
each once without parallel arcs, `found` when there is one, and, when there is
none, every vertex blocked before still blocked, and `v` too. -/
structure Searched (g : List (List Nat)) (explore : Nat → Bool) (startV : Nat) (s : Search) (v : Nat)
    (s' : Search) (found : Bool) : Prop where
  blocking : Blocking g explore startV s'.blocked s'.stack s'.blockedMap
  stack_eq : s'.stack = s.stack
  cycles : ∃ N, Appended s s' N ∧ (∀ c, c ∈ N ↔ Extends g explore startV (s.stack ++ [v]) c) ∧
    (NoParallel g → N.Nodup) ∧ (found = true ↔ N ≠ [])
  keep : found = false → (∀ x, s.blocked x = true → s'.blocked x = true) ∧ s'.blocked v = true

/-- `FindCyclesRecur` with `fuel` does what it should wherever it may be called
with a stack of at least `g.length - fuel` vertices. -/
def RecurSpec (g : List (List Nat)) (explore : Nat → Bool) (startV fuel : Nat) : Prop :=
  ∀ s v, Pushable g explore startV s v → g.length ≤ s.stack.length + fuel →
    ∃ r, findCyclesRecur g explore startV fuel s v = .ok r ∧ Searched g explore startV s v r.1 r.2

/-- Where the loop of `FindCyclesRecur(v)` stands, with the successors `done`
passed: the cycles `N` recorded are the cycles continuing `s.stack ++ [v]`
whose vertex after `v` is one of `done`. -/
structure Scan (g : List (List Nat)) (explore : Nat → Bool) (startV : Nat) (s : Search) (v : Nat)
    (done : List Nat) (N : List (List Nat)) (acc : Search × Bool) : Prop where
  blocking : Blocking g explore startV acc.1.blocked acc.1.stack acc.1.blockedMap
  stack_eq : acc.1.stack = s.stack ++ [v]
  appended : Appended s acc.1 N
  sound : ∀ c ∈ N, Extends g explore startV (s.stack ++ [v]) c
  complete : ∀ c, Extends g explore startV (s.stack ++ [v]) c → succOf startV (s.stack ++ [v]) c ∈ done →
    c ∈ N
  branch : ∀ c ∈ N, succOf startV (s.stack ++ [v]) c ∈ done
  nodup : NoParallel g → N.Nodup
  found_iff : acc.2 = true ↔ N ≠ []
  keep : acc.2 = false → (∀ x, (enterRecur s v).blocked x = true → acc.1.blocked x = true) ∧
    ∀ n ∈ done, Step g explore v n → acc.1.blocked n = true ∧ n ≠ startV

section Scan

variable {g : List (List Nat)} {explore : Nat → Bool} {startV : Nat} {s : Search} {v n : Nat}
  {pre : List Nat} {N : List (List Nat)} {acc : Search × Bool}

/-- A cycle continuing the stack that takes `n ≠ startV` after the top continues `P ++ [n]`. -/
theorem Extends.of_succOf {P c : List Nat} (h : Extends g explore startV P c)
    (hs : succOf startV P c = n) (hn : n ≠ startV) : Extends g explore startV (P ++ [n]) c := by
  obtain ⟨rest, rfl⟩ := h.1
  cases rest with
  | nil => exact absurd (by simpa using hs.symm) hn
  | cons m rest =>
    rw [succOf_append_cons] at hs
    subst hs
    exact ⟨⟨rest, by simp⟩, h.2⟩

theorem Scan.init (h : Pushable g explore startV s v) : Scan g explore startV s v [] [] (enterRecur s v, false) where
  blocking := h.blocking.push h.unblocked h.explored h.arc h.start
  stack_eq := rfl
  appended := Appended.of_eq rfl rfl rfl rfl
  sound := fun _ hc => by simp at hc
  complete := fun _ _ hs => by simp at hs
  branch := fun _ hc => by simp at hc
  nodup := fun _ => List.nodup_nil
  found_iff := by simp
  keep := fun _ => ⟨fun _ hx => hx, fun _ hn => by simp at hn⟩

/-- An unexplored successor is passed over, and no cycle continues through it. -/
theorem Scan.skip (h : Scan g explore startV s v pre N acc) (hn : explore n = false) :
    Scan g explore startV s v (pre ++ [n]) N acc := by
  refine ⟨h.blocking, h.stack_eq, h.appended, h.sound, fun c hc hs => ?_,
    fun c hc => List.mem_append_left _ (h.branch c hc), h.nodup, h.found_iff,
    fun hf => ⟨(h.keep hf).1, fun m hm hvm => ?_⟩⟩
  · rcases List.mem_append.mp hs with hs | hs
    · exact h.complete c hc hs
    · obtain ⟨-, he⟩ := hc.step_succOf
      rw [List.mem_singleton.mp hs, hn] at he
      exact absurd he Bool.false_ne_true
  · rcases List.mem_append.mp hm with hm | hm
    · exact (h.keep hf).2 m hm hvm
    · obtain rfl := List.mem_singleton.mp hm
      exact absurd hvm.2 (by simp [hn])

/-- The arc back to the start records the stack. -/
theorem Scan.record (h : Scan g explore startV s v pre N acc) (hfresh : NoParallel g → startV ∉ pre)
    (hvs : Step g explore v startV) :
    Scan g explore startV s v (pre ++ [startV]) (N ++ [s.stack ++ [v]]) (recordCycle acc.1, true) := by
  have hB := h.blocking
  rw [h.stack_eq] at hB
  have hself : Extends g explore startV (s.stack ++ [v]) (s.stack ++ [v]) :=
    Extends.self hB.nodup hB.chain fun x hx => by simp at hx; exact hx ▸ hvs
  refine ⟨?_, ?_, ?_, fun c hc => ?_, fun c hc hs => ?_, fun c hc => ?_, fun hnp => ?_, by simp,
    fun hf => by simp at hf⟩
  · simpa only [recordCycle_blocked, recordCycle_stack, recordCycle_blockedMap] using h.blocking
  · simpa using h.stack_eq
  · simpa [h.stack_eq] using h.appended.trans (Appended.record acc.1)
  · rcases List.mem_append.mp hc with hc | hc
    · exact h.sound c hc
    · exact (List.mem_singleton.mp hc) ▸ hself
  · rcases List.mem_append.mp hs with hs | hs
    · exact List.mem_append_left _ (h.complete c hc hs)
    · rw [hc.eq_of_succOf (hB.start_mem (by simp)) (List.mem_singleton.mp hs)]
      exact List.mem_append_right _ (List.mem_singleton_self _)
  · rcases List.mem_append.mp hc with hc | hc
    · exact List.mem_append_left _ (h.branch c hc)
    · rw [List.mem_singleton.mp hc, succOf_self]
      exact List.mem_append_right _ (List.mem_singleton_self _)
  · refine List.nodup_append.mpr ⟨h.nodup hnp, List.nodup_singleton _, fun c hc d hd hcd => ?_⟩
    rw [List.mem_singleton.mp hd] at hcd
    have := h.branch c hc
    rw [hcd, succOf_self] at this
    exact hfresh hnp this

/-- A successor that is not blocked is searched from, and the call records the
cycles through it. -/
theorem Scan.visit {s' : Search} {ret : Bool} (h : Scan g explore startV s v pre N acc)
    (hfresh : NoParallel g → n ∉ pre) (hn : n ≠ startV) (hS : Searched g explore startV acc.1 n s' ret) :
    ∃ N', Scan g explore startV s v (pre ++ [n]) N' (s', acc.2 || ret) := by
  obtain ⟨Nc, happ, hiff, hnd, hfound⟩ := hS.cycles
  rw [h.stack_eq] at hiff
  refine ⟨N ++ Nc, hS.blocking, hS.stack_eq.trans h.stack_eq, h.appended.trans happ, fun c hc => ?_,
    fun c hc hs => ?_, fun c hc => ?_, fun hnp => ?_, ?_, fun hf => ?_⟩
  · rcases List.mem_append.mp hc with hc | hc
    · exact h.sound c hc
    · exact ((hiff c).mp hc).mono
  · rcases List.mem_append.mp hs with hs | hs
    · exact List.mem_append_left _ (h.complete c hc hs)
    · exact List.mem_append_right _ ((hiff c).mpr (hc.of_succOf (List.mem_singleton.mp hs) hn))
  · rcases List.mem_append.mp hc with hc | hc
    · exact List.mem_append_left _ (h.branch c hc)
    · rw [((hiff c).mp hc).succOf_eq]
      exact List.mem_append_right _ (List.mem_singleton_self _)
  · refine List.nodup_append.mpr ⟨h.nodup hnp, hnd hnp, fun c hc d hd hcd => hfresh hnp ?_⟩
    have := h.branch c hc
    rwa [hcd, ((hiff d).mp hd).succOf_eq] at this
  · simp only [Bool.or_eq_true, h.found_iff, hfound, ne_eq, List.append_eq_nil_iff]
    tauto
  · obtain ⟨hacc, hret⟩ := Bool.or_eq_false_iff.mp hf
    obtain ⟨hkeep, hsucc⟩ := h.keep hacc
    obtain ⟨hmono, hnb⟩ := hS.keep hret
    refine ⟨fun x hx => hmono x (hkeep x hx), fun m hm hvm => ?_⟩
    rcases List.mem_append.mp hm with hm | hm
    · exact ⟨hmono m (hsucc m hm hvm).1, (hsucc m hm hvm).2⟩
    · obtain rfl := List.mem_singleton.mp hm
      exact ⟨hnb, hn⟩

/-- A successor still blocked does not escape the stack, so no cycle continues
through it. -/
theorem Scan.blocked (h : Scan g explore startV s v pre N acc) (hb : acc.1.blocked n = true)
    (hn : n ≠ startV) : Scan g explore startV s v (pre ++ [n]) N acc := by
  refine ⟨h.blocking, h.stack_eq, h.appended, h.sound, fun c hc hs => ?_,
    fun c hc => List.mem_append_left _ (h.branch c hc), h.nodup, h.found_iff,
    fun hf => ⟨(h.keep hf).1, fun m hm hvm => ?_⟩⟩
  · rcases List.mem_append.mp hs with hs | hs
    · exact h.complete c hc hs
    · have hesc := (hc.of_succOf (List.mem_singleton.mp hs) hn).escapes
      rw [← h.stack_eq] at hesc
      exact absurd hesc (h.blocking.escape (by simp [h.stack_eq]) n hb hesc.not_mem)
  · rcases List.mem_append.mp hm with hm | hm
    · exact (h.keep hf).2 m hm hvm
    · obtain rfl := List.mem_singleton.mp hm
      exact ⟨hb, hn⟩

end Scan

section Recur

variable {g : List (List Nat)} {explore : Nat → Bool} {startV fuel : Nat} {s : Search} {v n : Nat}
  {visit : Search → Nat → Except Fault (Search × Bool)} {acc : Search × Bool}

theorem searchArc_unexplored (hlt : n < g.length) (hn : explore n = false) :
    searchArc g explore startV visit acc n = .ok acc := by
  rw [searchArc, if_neg (Nat.not_le.mpr hlt), if_pos hn]
  rfl

theorem searchArc_start (hlt : startV < g.length) (hn : explore startV = true) :
    searchArc g explore startV visit acc startV = .ok (recordCycle acc.1, true) := by
  rw [searchArc, if_neg (Nat.not_le.mpr hlt), if_neg (by simp [hn]), if_pos rfl]
  rfl

theorem searchArc_visit {r : Search × Bool} (hlt : n < g.length) (hn : explore n = true) (hns : n ≠ startV)
    (hb : acc.1.blocked n = false) (hr : visit acc.1 n = .ok r) :
    searchArc g explore startV visit acc n = .ok (r.1, acc.2 || r.2) := by
  rw [searchArc, if_neg (Nat.not_le.mpr hlt), if_neg (by simp [hn]), if_neg hns, if_pos hb, hr]
  rfl

theorem searchArc_blocked (hlt : n < g.length) (hn : explore n = true) (hns : n ≠ startV)
    (hb : acc.1.blocked n = true) : searchArc g explore startV visit acc n = .ok acc := by
  rw [searchArc, if_neg (Nat.not_le.mpr hlt), if_neg (by simp [hn]), if_neg hns, if_neg (by simp [hb])]
  rfl

/-- One pass of the loop keeps `Scan`, with the recursive calls done by `ih`. -/
theorem scan_step (hR : InRange g) (hE : ∀ x, explore x = true → x < g.length) (ih : RecurSpec g explore startV fuel)
    (hp : Pushable g explore startV s v) (hfuel : g.length ≤ s.stack.length + (fuel + 1))
    {pre suf : List Nat} {N : List (List Nat)} (hsplit : g.getD v [] = pre ++ n :: suf)
    (hS : Scan g explore startV s v pre N acc) :
    ∃ acc', searchArc g explore startV (findCyclesRecur g explore startV fuel) acc n = .ok acc' ∧
      ∃ N', Scan g explore startV s v (pre ++ [n]) N' acc' := by
  have hv : v < g.length := hE v hp.explored
  have hmem : n ∈ g.getD v [] := by rw [hsplit]; simp
  have hn : n < g.length := hR.lt ⟨hv, hmem⟩
  have hfresh : NoParallel g → n ∉ pre := fun hnp hn => by
    have := hnp.getD v
    rw [hsplit] at this
    exact (List.nodup_append.mp this).2.2 n hn n List.mem_cons_self rfl
  cases hexp : explore n with
  | false => exact ⟨acc, searchArc_unexplored hn hexp, N, hS.skip hexp⟩
  | true =>
    by_cases hns : n = startV
    · subst hns
      exact ⟨_, searchArc_start hn hexp, _, hS.record hfresh ⟨⟨hv, hmem⟩, hexp⟩⟩
    · cases hb : acc.1.blocked n with
      | true => exact ⟨acc, searchArc_blocked hn hexp hns hb, N, hS.blocked hb hns⟩
      | false =>
        -- a successor not blocked: the recursive call, one level deeper
        have hp' : Pushable g explore startV acc.1 n := by
          refine ⟨hS.blocking, hb, hexp, fun x hx => ?_, fun hnil => by simp [hS.stack_eq] at hnil⟩
          rw [hS.stack_eq, List.getLast?_concat, Option.mem_some_iff] at hx
          exact hx ▸ ⟨⟨hv, hmem⟩, hexp⟩
        obtain ⟨r, hr, hSr⟩ := ih acc.1 n hp' (by rw [hS.stack_eq, List.length_append]; simp; omega)
        obtain ⟨N', hS'⟩ := hS.visit hfresh hns hSr
        exact ⟨_, searchArc_visit hn hexp hns hb hr, N', hS'⟩

/-- The loop of `FindCyclesRecur(v)` runs through all successors of `v`. -/
theorem scan_loop (hR : InRange g) (hE : ∀ x, explore x = true → x < g.length) (ih : RecurSpec g explore startV fuel)
    (hp : Pushable g explore startV s v) (hfuel : g.length ≤ s.stack.length + (fuel + 1)) :
    ∃ acc, (g.getD v []).foldlM (searchArc g explore startV (findCyclesRecur g explore startV fuel))
      (enterRecur s v, false) = .ok acc ∧ ∃ N, Scan g explore startV s v (g.getD v []) N acc :=
  foldlM_ok_of_step (P := fun done acc => ∃ N, Scan g explore startV s v done N acc) (g.getD v [])
    (fun _ _ _ _ hsplit ⟨_, hS⟩ => scan_step hR hE ih hp hfuel hsplit hS) _ ⟨[], Scan.init hp⟩

/-- The end of `FindCyclesRecur(v)` after the whole loop. -/
theorem Scan.finish (hloop : Loopless g) (hE : ∀ x, explore x = true → x < g.length)
    {N : List (List Nat)} (h : Scan g explore startV s v (g.getD v []) N acc)
    (hp : Pushable g explore startV s v) :
    ∃ r, finishRecur g explore v acc = .ok r ∧ Searched g explore startV s v r.1 r.2 := by
  have hv : v < g.length := hE v hp.explored
  have hB : Blocking g explore startV acc.1.blocked (s.stack ++ [v]) acc.1.blockedMap :=
    h.stack_eq ▸ h.blocking
  have hpop : acc.1.stack.dropLast = s.stack := by rw [h.stack_eq, List.dropLast_concat]
  -- every cycle continuing the stack takes a successor of `v`, all of them passed
  have hall : ∀ c, c ∈ N ↔ Extends g explore startV (s.stack ++ [v]) c :=
    fun c => ⟨h.sound c, fun hc => h.complete c hc hc.step_succOf.1.2⟩
  cases hf : acc.2 with
  | true =>
    obtain ⟨c, hc⟩ := List.exists_mem_of_ne_nil N (h.found_iff.mp hf)
    obtain ⟨bl', bm', hun, hU⟩ := unblock_spec g.length g.length acc.1.blocked acc.1.blockedMap v
      (hB.stack_blocked v (by simp)) (fun x hx => hE x (hB.blocked_explore x hx))
      ((Finset.card_filter_le _ _).trans (by simp))
    refine ⟨({ acc.1 with blocked := bl', blockedMap := bm', stack := acc.1.stack.dropLast }, true),
      by simp [finishRecur, hf, hun, pure, Except.pure], ?_, hpop, ⟨N, h.appended.frame rfl rfl rfl rfl, hall, h.nodup,
        by simpa [hf] using h.found_iff⟩, fun h' => by simp at h'⟩
    show Blocking g explore startV bl' acc.1.stack.dropLast bm'
    rw [hpop]
    exact hB.pop_release (h.sound c hc).escapes hU
  | false =>
    have hstep : ∀ x, Step g explore v x ↔ x ∈ g.getD v [] ∧ explore x = true :=
      fun x => ⟨fun hx => ⟨hx.1.2, hx.2⟩, fun hx => ⟨⟨hv, hx.1⟩, hx.2⟩⟩
    obtain ⟨hkeep, hsucc⟩ := h.keep hf
    refine ⟨({ acc.1 with
        blockedMap := appendBlocked g explore v acc.1.blockedMap
        stack := acc.1.stack.dropLast }, false), by simp [finishRecur, hf, pure, Except.pure], ?_, hpop,
      ⟨N, h.appended.frame rfl rfl rfl rfl, hall, h.nodup, by simpa [hf] using h.found_iff⟩,
      fun _ => ⟨fun x hx => hkeep x ?_, hkeep v (by simp [enterRecur])⟩⟩
    · show Blocking g explore startV acc.1.blocked acc.1.stack.dropLast
        (appendBlocked g explore v acc.1.blockedMap)
      rw [hpop]
      refine hB.pop_keep hloop (fun x hx => hsucc x hx.1.2 hx) (fun x y => ?_) (fun x hx => ?_)
      · rw [appendBlocked, mem_foldl_append, hstep]
      · exact foldl_append_of_not_mem _ _ (by rwa [hstep] at hx)
    · by_cases hxv : x = v
      · simp [enterRecur, hxv]
      · simpa [enterRecur, Function.update_of_ne hxv] using hx

/-- `FindCyclesRecur(v)` records exactly the elementary cycles that continue
the stack through `v`, with every fuel that covers the vertices off the stack. -/
theorem findCyclesRecur_spec (hR : InRange g) (hloop : Loopless g) (hE : ∀ x, explore x = true → x < g.length) :
    ∀ fuel, RecurSpec g explore startV fuel := by
  intro fuel
  induction fuel with
  | zero =>
    intro s v hp hfuel
    -- the stack with `v` pushed has no repeats and lies below `g.length`
    have hB := hp.blocking.push hp.unblocked hp.explored hp.arc hp.start
    have hlen := length_le_of_nodup hB.nodup fun x hx =>
      hE x (hB.blocked_explore x (hB.stack_blocked x hx))
    simp only [List.length_append, List.length_singleton] at hlen
    omega
  | succ fuel ih =>
    intro s v hp hfuel
    obtain ⟨acc, hacc, N, hS⟩ := scan_loop hR hE ih hp hfuel
    obtain ⟨r, hr, hSr⟩ := hS.finish hloop hE hp
    exact ⟨r, by rw [findCyclesRecur_succ, hacc, except_ok_bind, hr], hSr⟩

end Recur

end JohnsonCE

end Nezha
