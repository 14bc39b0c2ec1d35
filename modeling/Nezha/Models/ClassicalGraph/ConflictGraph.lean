import Nezha.Models.ClassicalGraph.AlGraph
import Nezha.Models.RWSet
import Nezha.Core.Digraph
import Nezha.Core.GoMap

/-!
# The conflict graphs of the CG baseline (`core/classical_graph.go`)

`BuildConflictGraph` and its light version `NewBuildConflictGraph` both turn a
batch into adjacency lists, with an arc `i → j` when `j` must commit after
`i`: `j` writes a key `i` read, or `j` comes later and both write a common key.
The reference version compares keys with `reflect.DeepEqual`, scans the later
transactions for both kinds of conflict and the earlier ones for read-write
conflicts, and never repeats an arc. The light version compares the
hexadecimal names of the keys, adds a write-write arc for every matching
write node (so arcs may repeat), and finds read-write conflicts through an
index `wSet` of the writers of every key, built in a first pass. The two
comparisons part only on a nil key and an empty one, which print alike and are
not deeply equal; on a batch without such a pair both builders compute the
conflict relation.

Each row `gSlice[i]` of the reference version is written only by iteration
`i` of its outer loop, so it is modelled row by row. The light version keeps
its two passes over the whole table. Its `rKeys` and `rSet` are built and
never read, and are left out.
-/

namespace Nezha

open Digraph

/-- `isExistForByte`: `reflect.DeepEqual` on two `[]byte` holds when both are
nil, or neither is and they hold the same bytes. -/
def isExistForByte (slice : List (Option Bytes)) (n : Option Bytes) : Bool := slice.contains n

/-- `isExistForString`. -/
def isExistForString (slice : List Bytes) (n : Bytes) : Bool := slice.contains n

/-- `if !isExistForInt(s, j) { s = append(s, j) }`. -/
def appendNew (s : List Nat) (j : Nat) : List Nat := if isExistForInt s j then s else s ++ [j]

/-! ## `BuildConflictGraph` -/

/-- `rKeys` and `wKeys`: the keys of the nodes labelled `"r"`, and of all others. -/
def splitKeys (v : List RWNode) : List (Option Bytes) × List (Option Bytes) :=
  v.foldl (fun acc rw => if rw.label = .r then (acc.1 ++ [rw.rwSet.key], acc.2)
    else (acc.1, acc.2 ++ [rw.rwSet.key])) ([], [])

/-- The loop over `j > i`: `j` when one of its writes hits a key in `rKeys` or in `wKeys`. -/
def laterArcs (txs : List (List RWNode)) (i : Nat) (rKeys wKeys : List (Option Bytes)) (row : List Nat) :
    List Nat :=
  (List.range' (i + 1) (txs.length - (i + 1))).foldl (fun row j =>
    (txs.getD j []).foldl (fun row rw =>
      if rw.label = .w ∧ isExistForByte rKeys rw.rwSet.key then appendNew row j
      else if rw.label = .w ∧ isExistForByte wKeys rw.rwSet.key then appendNew row j
      else row) row) row

/-- The loop over `k` from `i - 1` down to `0`: `k` when one of its writes hits a key in `rKeys`. -/
def earlierArcs (txs : List (List RWNode)) (i : Nat) (rKeys : List (Option Bytes)) (row : List Nat) :
    List Nat :=
  (List.range i).reverse.foldl (fun row k =>
    (txs.getD k []).foldl (fun row rw =>
      if rw.label = .w ∧ isExistForByte rKeys rw.rwSet.key then appendNew row k else row) row) row

/-- `gSlice[i]` of `BuildConflictGraph`. -/
def buildRow (txs : List (List RWNode)) (i : Nat) : List Nat :=
  let (rKeys, wKeys) := splitKeys (txs.getD i [])
  earlierArcs txs i rKeys (laterArcs txs i rKeys wKeys [])

/-- `BuildConflictGraph`. -/
def buildConflictGraph (txs : List (List RWNode)) : List (List Nat) :=
  (List.range txs.length).map (buildRow txs)

/-! ## `NewBuildConflictGraph` -/

/-- One node of transaction `i` in the first loop: a write appends the name of
its key to `wKeys` and `i` to that name's entry of `wSet`. -/
def fileWrite (i : Nat) (acc : List Bytes × GoMap Bytes (List Nat)) (rw : RWNode) :
    List Bytes × GoMap Bytes (List Nat) :=
  if rw.label = .r then acc
  else
    let wKey := convertByte2String rw.rwSet.key
    (acc.1 ++ [wKey], acc.2.insert wKey (acc.2.findD wKey [] ++ [i]))

/-- The nodes of transaction `i` in the first loop: `wKeys`, and `wSet` updated. -/
def fileWrites (i : Nat) (v : List RWNode) (wSet : GoMap Bytes (List Nat)) :
    List Bytes × GoMap Bytes (List Nat) :=
  v.foldl (fileWrite i) ([], wSet)

/-- The loop over `j > i`: one arc `i → j` per write node of `j` whose key `i` also writes. -/
def laterWriteArcs (txs : List (List RWNode)) (i : Nat) (wKeys : List Bytes) (row : List Nat) :
    List Nat :=
  (List.range' (i + 1) (txs.length - (i + 1))).foldl (fun row j =>
    (txs.getD j []).foldl (fun row rw =>
      if rw.label = .w ∧ isExistForString wKeys (convertByte2String rw.rwSet.key) then row ++ [j]
      else row) row) row

/-- The first loop of `NewBuildConflictGraph`: the write-write arcs and the index `wSet`. -/
def newFirstLoop (txs : List (List RWNode)) : List (List Nat) × GoMap Bytes (List Nat) :=
  (List.range txs.length).foldl (fun acc i =>
    let (wKeys, wSet) := fileWrites i (txs.getD i []) acc.2
    (acc.1.set i (laterWriteArcs txs i wKeys (acc.1.getD i [])), wSet))
    (List.replicate txs.length [], GoMap.empty)

/-- The body of the second loop for transaction `i`: every writer of a key it
reads, other than itself, is added to its row once. -/
def readWriteArcs (wSet : GoMap Bytes (List Nat)) (i : Nat) (v : List RWNode)
    (gSlice : List (List Nat)) : List (List Nat) :=
  v.foldl (fun gSlice rw =>
    if rw.label = .r then
      (wSet.findD (convertByte2String rw.rwSet.key) []).foldl (fun gSlice w =>
        if w ≠ i ∧ !isExistForInt (gSlice.getD i []) w then gSlice.modify i (· ++ [w])
        else gSlice) gSlice
    else gSlice) gSlice

/-- `NewBuildConflictGraph`. -/
def newBuildConflictGraph (txs : List (List RWNode)) : List (List Nat) :=
  let (gSlice, wSet) := newFirstLoop txs
  (List.range txs.length).foldl (fun gSlice i => readWriteArcs wSet i (txs.getD i []) gSlice) gSlice

/-! ## The conflict relation -/

/-- The arcs both builders are meant to compute: `j` writes a key `i` reads, or
`j` comes after `i` and both write a common key. -/
def Conflict (txs : List (List RWNode)) (i j : Nat) : Prop :=
  i ≠ j ∧ ((∃ k ∈ readKeys (txs.getD i []), k ∈ writeKeys (txs.getD j [])) ∨
    (i < j ∧ ∃ k ∈ writeKeys (txs.getD i []), k ∈ writeKeys (txs.getD j [])))

instance (txs : List (List RWNode)) (i j : Nat) : Decidable (Conflict txs i j) :=
  inferInstanceAs (Decidable (i ≠ j ∧ _))

/-! ### Small steps -/

@[simp] theorem mem_appendNew {s : List Nat} {j m : Nat} : m ∈ appendNew s j ↔ m ∈ s ∨ m = j := by
  unfold appendNew isExistForInt
  split
  · rename_i h
    constructor
    · exact Or.inl
    · rintro (hm | rfl)
      · exact hm
      · exact List.contains_iff_mem.mp h
  · simp

theorem splitKeys_eq (v : List RWNode) : splitKeys v = (readKeys v, writeKeys v) := by
  have : ∀ (l : List RWNode) (a b : List (Option Bytes)), l.foldl (fun acc rw =>
      if rw.label = .r then (acc.1 ++ [rw.rwSet.key], acc.2) else (acc.1, acc.2 ++ [rw.rwSet.key]))
      (a, b) = (a ++ readKeys l, b ++ writeKeys l) := by
    intro l
    induction l with
    | nil => simp [readKeys, writeKeys]
    | cons rw l ih =>
      intro a b
      cases hl : rw.label <;> simp [hl, ih, readKeys, writeKeys]
  simpa [splitKeys] using this v [] []

/-- A key of a write node is a written key. -/
theorem exists_write_iff {tx : List RWNode} {keys : List (Option Bytes)} :
    (∃ rw ∈ tx, rw.label = .w ∧ rw.rwSet.key ∈ keys) ↔ ∃ k ∈ keys, k ∈ writeKeys tx := by
  simp only [mem_writeKeys]
  constructor
  · rintro ⟨rw, hrw, hw, hk⟩
    exact ⟨rw.rwSet.key, hk, rw, hrw, hw, rfl⟩
  · rintro ⟨k, hk, rw, hrw, hw, rfl⟩
    exact ⟨rw, hrw, hw, hk⟩

theorem lt_length_of_mem_writeKeys {txs : List (List RWNode)} {j : Nat} {k : Option Bytes}
    (h : k ∈ writeKeys (txs.getD j [])) : j < txs.length := by
  by_contra hj
  rw [List.getD_eq_default _ _ (by omega)] at h
  simp [writeKeys] at h

theorem lt_length_of_mem_readKeys {txs : List (List RWNode)} {j : Nat} {k : Option Bytes}
    (h : k ∈ readKeys (txs.getD j [])) : j < txs.length := by
  by_contra hj
  rw [List.getD_eq_default _ _ (by omega)] at h
  simp [readKeys] at h

/-- Only transactions of the batch conflict. -/
theorem Conflict.lt_length {txs : List (List RWNode)} {i j : Nat} (h : Conflict txs i j) :
    i < txs.length := by
  rcases h.2 with ⟨k, hk, -⟩ | ⟨-, k, hk, -⟩
  · exact lt_length_of_mem_readKeys hk
  · exact lt_length_of_mem_writeKeys hk

/-! ### `BuildConflictGraph` computes the relation -/

theorem mem_laterArcs {txs : List (List RWNode)} {i : Nat} {rKeys wKeys : List (Option Bytes)} {m : Nat} :
    m ∈ laterArcs txs i rKeys wKeys [] ↔ i < m ∧ m < txs.length ∧
      ∃ rw ∈ txs.getD m [], rw.label = .w ∧ (rw.rwSet.key ∈ rKeys ∨ rw.rwSet.key ∈ wKeys) := by
  have hinner : ∀ (j : Nat) (row : List Nat) (m : Nat), m ∈ (txs.getD j []).foldl (fun row rw =>
      if rw.label = .w ∧ isExistForByte rKeys rw.rwSet.key then appendNew row j
      else if rw.label = .w ∧ isExistForByte wKeys rw.rwSet.key then appendNew row j
      else row) row ↔ m ∈ row ∨ ∃ rw ∈ txs.getD j [],
        (rw.label = .w ∧ (rw.rwSet.key ∈ rKeys ∨ rw.rwSet.key ∈ wKeys)) ∧ m = j := by
    intro j
    apply mem_foldl_of_step
    intro row rw m
    simp only [isExistForByte, List.contains_iff_mem]
    split_ifs <;> simp_all
  unfold laterArcs
  rw [mem_foldl_of_step (fun row j m => hinner j row m)]
  simp only [List.not_mem_nil, false_or, List.mem_range'_1]
  constructor
  · rintro ⟨j, ⟨hj₁, hj₂⟩, rw, hrw, hcond, rfl⟩
    exact ⟨by omega, by omega, rw, hrw, hcond⟩
  · rintro ⟨hm₁, hm₂, rw, hrw, hcond⟩
    exact ⟨m, ⟨by omega, by omega⟩, rw, hrw, hcond, rfl⟩

theorem mem_earlierArcs {txs : List (List RWNode)} {i : Nat} {rKeys : List (Option Bytes)}
    {row : List Nat} {m : Nat} :
    m ∈ earlierArcs txs i rKeys row ↔ m ∈ row ∨ m < i ∧
      ∃ rw ∈ txs.getD m [], rw.label = .w ∧ rw.rwSet.key ∈ rKeys := by
  have hinner : ∀ (k : Nat) (row : List Nat) (m : Nat), m ∈ (txs.getD k []).foldl (fun row rw =>
      if rw.label = .w ∧ isExistForByte rKeys rw.rwSet.key then appendNew row k else row) row ↔
      m ∈ row ∨ ∃ rw ∈ txs.getD k [], (rw.label = .w ∧ rw.rwSet.key ∈ rKeys) ∧ m = k := by
    intro k
    apply mem_foldl_of_step
    intro row rw m
    simp only [isExistForByte, List.contains_iff_mem]
    split_ifs <;> simp_all
  unfold earlierArcs
  rw [mem_foldl_of_step (fun row k m => hinner k row m)]
  simp only [List.mem_reverse, List.mem_range]
  constructor
  · rintro (hm | ⟨k, hk, rw, hrw, hcond, rfl⟩)
    · exact Or.inl hm
    · exact Or.inr ⟨hk, rw, hrw, hcond⟩
  · rintro (hm | ⟨hm, rw, hrw, hcond⟩)
    · exact Or.inl hm
    · exact Or.inr ⟨m, hm, rw, hrw, hcond, rfl⟩

/-- Row `i` of `BuildConflictGraph` lists exactly the conflicts of `i`. -/
theorem mem_buildRow {txs : List (List RWNode)} {i j : Nat} :
    j ∈ buildRow txs i ↔ Conflict txs i j := by
  simp only [buildRow, splitKeys_eq, mem_earlierArcs, mem_laterArcs, Conflict]
  have hw : ∀ keys : List (Option Bytes), (∃ rw ∈ txs.getD j [], rw.label = .w ∧ rw.rwSet.key ∈ keys) ↔
      ∃ k ∈ keys, k ∈ writeKeys (txs.getD j []) := fun _ => exists_write_iff
  constructor
  · rintro (⟨hij, hj, rw, hrw, hlab, hk⟩ | ⟨hji, hex⟩)
    · refine ⟨by omega, ?_⟩
      rcases hk with hk | hk
      · exact Or.inl ((hw _).mp ⟨rw, hrw, hlab, hk⟩)
      · exact Or.inr ⟨hij, (hw _).mp ⟨rw, hrw, hlab, hk⟩⟩
    · exact ⟨by omega, Or.inl ((hw _).mp hex)⟩
  · rintro ⟨hne, hread | ⟨hij, hwrite⟩⟩
    · obtain ⟨k, hk, hkj⟩ := hread
      have hj := lt_length_of_mem_writeKeys hkj
      obtain ⟨rw, hrw, hlab, hkey⟩ := (hw _).mpr ⟨k, hk, hkj⟩
      rcases Nat.lt_or_gt_of_ne hne with hij | hji
      · exact Or.inl ⟨hij, hj, rw, hrw, hlab, Or.inl hkey⟩
      · exact Or.inr ⟨hji, rw, hrw, hlab, hkey⟩
    · obtain ⟨k, hk, hkj⟩ := hwrite
      have hj := lt_length_of_mem_writeKeys hkj
      obtain ⟨rw, hrw, hlab, hkey⟩ := (hw _).mpr ⟨k, hk, hkj⟩
      exact Or.inl ⟨hij, hj, rw, hrw, hlab, Or.inr hkey⟩


theorem mem_buildConflictGraph {txs : List (List RWNode)} {i j : Nat} (hi : i < txs.length) :
    j ∈ (buildConflictGraph txs).getD i [] ↔ Conflict txs i j := by
  rw [buildConflictGraph, List.getD_eq_getElem?_getD, List.getElem?_map, List.getElem?_range hi]
  exact mem_buildRow

/-! ### `NewBuildConflictGraph` computes the relation -/

theorem getD_modify_self {l : List (List Nat)} {i : Nat} (hi : i < l.length)
    (f : List Nat → List Nat) : (l.modify i f).getD i [] = f (l.getD i []) := by
  simp [List.getD_eq_getElem?_getD, List.getElem?_eq_getElem hi]

theorem getD_modify_of_ne (l : List (List Nat)) {i j : Nat} (h : j ≠ i) (f : List Nat → List Nat) :
    (l.modify i f).getD j [] = l.getD j [] := by
  simp only [List.getD_eq_getElem?_getD, List.getElem?_modify]
  cases l[j]? <;> simp [Ne.symm h]

theorem getD_set_of_ne (l : List (List Nat)) {i j : Nat} (h : j ≠ i) (x : List Nat) :
    (l.set i x).getD j [] = l.getD j [] := by
  simp [List.getD_eq_getElem?_getD, Ne.symm h]

theorem getD_set_self {l : List (List Nat)} {i : Nat} (hi : i < l.length) (x : List Nat) :
    (l.set i x).getD i [] = x := by
  simp [List.getD_eq_getElem?_getD, hi]

/-- A pass over a table that only adds entries `P` to row `i`. -/
structure RowGrows (i : Nat) (P : Nat → Prop) (g g' : List (List Nat)) : Prop where
  length_eq : g'.length = g.length
  other : ∀ j ≠ i, g'.getD j [] = g.getD j []
  mem_iff : ∀ m, m ∈ g'.getD i [] ↔ m ∈ g.getD i [] ∨ P m

/-- A loop of passes that each add to row `i` adds the union of what they add. -/
theorem RowGrows.foldl {α : Type} {i : Nat} {step : List (List Nat) → α → List (List Nat)}
    {P : α → Nat → Prop} (h : ∀ g x, i < g.length → RowGrows i (P x) g (step g x)) :
    ∀ (xs : List α) (g : List (List Nat)), i < g.length →
      RowGrows i (fun m => ∃ x ∈ xs, P x m) g (xs.foldl step g)
  | [], g, _ => ⟨rfl, fun _ _ => rfl, fun m => by simp⟩
  | x :: xs, g, hi => by
    have h₁ := h g x hi
    have h₂ := RowGrows.foldl h xs (step g x) (h₁.length_eq ▸ hi)
    refine ⟨h₂.length_eq.trans h₁.length_eq, fun j hj => (h₂.other j hj).trans (h₁.other j hj),
      fun m => ?_⟩
    rw [List.foldl_cons, h₂.mem_iff, h₁.mem_iff]
    simp only [List.mem_cons, exists_eq_or_imp]
    tauto

/-- The second loop's body adds to row `i` every recorded writer of a key `i` reads. -/
theorem readWriteArcs_grows (wSet : GoMap Bytes (List Nat)) (i : Nat) (v : List RWNode)
    (g : List (List Nat)) (hi : i < g.length) :
    RowGrows i (fun m => m ≠ i ∧ ∃ rw ∈ v, rw.label = .r ∧
      m ∈ wSet.findD (convertByte2String rw.rwSet.key) []) g (readWriteArcs wSet i v g) := by
  -- one recorded writer: appended unless it is `i` itself or already listed
  have hwriter : ∀ g w, i < g.length → RowGrows i (fun m => m ≠ i ∧ m = w) g
      (if w ≠ i ∧ !isExistForInt (g.getD i []) w then g.modify i (· ++ [w]) else g) := by
    intro g w hi
    split
    · rename_i hc
      refine ⟨by simp, fun j hj => getD_modify_of_ne g hj _, fun m => ?_⟩
      rw [getD_modify_self hi, List.mem_append, List.mem_singleton]
      constructor
      · rintro (hm | rfl)
        · exact Or.inl hm
        · exact Or.inr ⟨hc.1, rfl⟩
      · rintro (hm | ⟨-, rfl⟩)
        · exact Or.inl hm
        · exact Or.inr rfl
    · rename_i hc
      have hlisted : w ≠ i → w ∈ g.getD i [] := fun hwi => by
        by_contra hn
        exact hc ⟨hwi, by simpa [isExistForInt] using hn⟩
      refine ⟨rfl, fun _ _ => rfl, fun m => ?_⟩
      constructor
      · exact Or.inl
      · rintro (hm | ⟨hmi, rfl⟩)
        · exact hm
        · exact hlisted hmi
  -- one node of `i`: a read adds the writers recorded for its key
  have hnode : ∀ g (rw : RWNode), i < g.length → RowGrows i (fun m => rw.label = .r ∧ m ≠ i ∧
      m ∈ wSet.findD (convertByte2String rw.rwSet.key) []) g
      (if rw.label = .r then (wSet.findD (convertByte2String rw.rwSet.key) []).foldl (fun g w =>
        if w ≠ i ∧ !isExistForInt (g.getD i []) w then g.modify i (· ++ [w]) else g) g else g) := by
    intro g rw hi
    split
    · rename_i hr
      have := RowGrows.foldl (fun g w hi => hwriter g w hi)
        (wSet.findD (convertByte2String rw.rwSet.key) []) g hi
      refine ⟨this.length_eq, this.other, fun m => ?_⟩
      rw [this.mem_iff]
      constructor
      · rintro (hm | ⟨w, hw, hmi, rfl⟩)
        · exact Or.inl hm
        · exact Or.inr ⟨hr, hmi, hw⟩
      · rintro (hm | ⟨-, hmi, hw⟩)
        · exact Or.inl hm
        · exact Or.inr ⟨m, hw, hmi, rfl⟩
    · rename_i hr
      exact ⟨rfl, fun _ _ => rfl, fun m => by simp [hr]⟩
  have := RowGrows.foldl (fun g rw hi => hnode g rw hi) v g hi
  refine ⟨this.length_eq, this.other, fun m => ?_⟩
  rw [readWriteArcs, this.mem_iff]
  constructor
  · rintro (hm | ⟨rw, hrw, hr, hmi, hw⟩)
    · exact Or.inl hm
    · exact Or.inr ⟨hmi, rw, hrw, hr, hw⟩
  · rintro (hm | ⟨hmi, rw, hrw, hr, hw⟩)
    · exact Or.inl hm
    · exact Or.inr ⟨rw, hrw, hr, hmi, hw⟩

/-- `fileWrites` appends the names of the written keys and records `i` under each. -/
theorem fileWrites_spec (i : Nat) : ∀ (v : List RWNode) (keys : List Bytes)
    (wSet : GoMap Bytes (List Nat)),
    (v.foldl (fileWrite i) (keys, wSet)).1 = keys ++ (writeKeys v).map convertByte2String ∧
      ∀ name m, m ∈ (v.foldl (fileWrite i) (keys, wSet)).2.findD name [] ↔
        m ∈ wSet.findD name [] ∨
          m = i ∧ ∃ rw ∈ v, rw.label = .w ∧ convertByte2String rw.rwSet.key = name
  | [], keys, wSet => by simp [writeKeys]
  | rw :: v, keys, wSet => by
    cases hl : rw.label with
    | r =>
      have ih := fileWrites_spec i v keys wSet
      simp only [List.foldl_cons, fileWrite, hl, if_true]
      refine ⟨by simpa [writeKeys, hl] using ih.1, fun name m => ?_⟩
      rw [ih.2]
      simp [hl]
    | w =>
      have ih := fileWrites_spec i v (keys ++ [convertByte2String rw.rwSet.key])
        (wSet.insert (convertByte2String rw.rwSet.key)
          (wSet.findD (convertByte2String rw.rwSet.key) [] ++ [i]))
      simp only [List.foldl_cons, fileWrite, hl, reduceCtorEq, if_false]
      refine ⟨by simpa [writeKeys, hl] using ih.1, fun name m => ?_⟩
      rw [ih.2, GoMap.findD_insert]
      by_cases hn : name = convertByte2String rw.rwSet.key
      · subst hn
        simp only [if_true, List.mem_append, List.mem_cons, exists_eq_or_imp, hl, true_and]
        tauto
      · simp only [hn, if_false, List.mem_cons, exists_eq_or_imp, hl, true_and, Ne.symm hn]
        tauto

theorem mem_laterWriteArcs {txs : List (List RWNode)} {i : Nat} {wKeys : List Bytes}
    {row : List Nat} {m : Nat} :
    m ∈ laterWriteArcs txs i wKeys row ↔ m ∈ row ∨ i < m ∧ m < txs.length ∧
      ∃ rw ∈ txs.getD m [], rw.label = .w ∧ convertByte2String rw.rwSet.key ∈ wKeys := by
  have hinner : ∀ (j : Nat) (row : List Nat) (m : Nat), m ∈ (txs.getD j []).foldl (fun row rw =>
      if rw.label = .w ∧ isExistForString wKeys (convertByte2String rw.rwSet.key) then row ++ [j]
      else row) row ↔ m ∈ row ∨ ∃ rw ∈ txs.getD j [],
        (rw.label = .w ∧ convertByte2String rw.rwSet.key ∈ wKeys) ∧ m = j := by
    intro j
    apply mem_foldl_of_step
    intro row rw m
    simp only [isExistForString, List.contains_iff_mem]
    split_ifs <;> simp_all
  unfold laterWriteArcs
  rw [mem_foldl_of_step (fun row j m => hinner j row m)]
  simp only [List.mem_range'_1]
  constructor
  · rintro (hm | ⟨j, ⟨hj₁, hj₂⟩, rw, hrw, hcond, rfl⟩)
    · exact Or.inl hm
    · exact Or.inr ⟨by omega, by omega, rw, hrw, hcond⟩
  · rintro (hm | ⟨hm₁, hm₂, rw, hrw, hcond⟩)
    · exact Or.inl hm
    · exact Or.inr ⟨m, ⟨by omega, by omega⟩, rw, hrw, hcond, rfl⟩

/-- The first loop of `NewBuildConflictGraph` after its first `k` transactions. -/
structure FirstLoopAt (txs : List (List RWNode)) (k : Nat)
    (acc : List (List Nat) × GoMap Bytes (List Nat)) : Prop where
  length_eq : acc.1.length = txs.length
  row : ∀ i < k, ∀ m, m ∈ acc.1.getD i [] ↔ i < m ∧ m < txs.length ∧
    ∃ rw ∈ txs.getD m [], rw.label = .w ∧
      convertByte2String rw.rwSet.key ∈ (writeKeys (txs.getD i [])).map convertByte2String
  fresh : ∀ i, k ≤ i → acc.1.getD i [] = []
  wSet : ∀ name m, m ∈ acc.2.findD name [] ↔ m < k ∧
    ∃ rw ∈ txs.getD m [], rw.label = .w ∧ convertByte2String rw.rwSet.key = name

theorem firstLoopAt_zero (txs : List (List RWNode)) :
    FirstLoopAt txs 0 (List.replicate txs.length [], GoMap.empty) where
  length_eq := by simp
  row := fun _ h => absurd h (Nat.not_lt_zero _)
  fresh := fun i _ => by
    rw [List.getD_eq_getElem?_getD, List.getElem?_replicate]
    split <;> rfl
  wSet := fun name m => by simp [GoMap.findD]

theorem FirstLoopAt.step {txs : List (List RWNode)} {k : Nat}
    {acc : List (List Nat) × GoMap Bytes (List Nat)} (h : FirstLoopAt txs k acc)
    (hk : k < txs.length) :
    FirstLoopAt txs (k + 1)
      (let (wKeys, wSet) := fileWrites k (txs.getD k []) acc.2
       (acc.1.set k (laterWriteArcs txs k wKeys (acc.1.getD k [])), wSet)) := by
  obtain ⟨hkeys, hwSet⟩ := fileWrites_spec k (txs.getD k []) [] acc.2
  simp only [List.nil_append] at hkeys
  simp only [fileWrites]
  have hlen : k < acc.1.length := h.length_eq ▸ hk
  refine ⟨by simpa using h.length_eq, fun i hi m => ?_, fun i hi => ?_, fun name m => ?_⟩
  · by_cases hik : i = k
    · subst hik
      rw [getD_set_self hlen, mem_laterWriteArcs, h.fresh i le_rfl, hkeys]
      simp
    · rw [getD_set_of_ne _ hik]
      exact h.row i (by omega) m
  · rw [getD_set_of_ne _ (by omega)]
    exact h.fresh i (by omega)
  · rw [hwSet, h.wSet]
    constructor
    · rintro (⟨hm, hex⟩ | ⟨rfl, hex⟩)
      · exact ⟨by omega, hex⟩
      · exact ⟨by omega, hex⟩
    · rintro ⟨hm, hex⟩
      by_cases hmk : m = k
      · exact Or.inr ⟨hmk, hmk ▸ hex⟩
      · exact Or.inl ⟨by omega, hex⟩

theorem newFirstLoop_spec (txs : List (List RWNode)) :
    FirstLoopAt txs txs.length (newFirstLoop txs) := by
  have : ∀ k ≤ txs.length, FirstLoopAt txs k ((List.range k).foldl (fun acc i =>
      let (wKeys, wSet) := fileWrites i (txs.getD i []) acc.2
      (acc.1.set i (laterWriteArcs txs i wKeys (acc.1.getD i [])), wSet))
      (List.replicate txs.length [], GoMap.empty)) := by
    intro k
    induction k with
    | zero => exact fun _ => firstLoopAt_zero txs
    | succ k ih =>
      intro hk
      rw [List.range_succ, List.foldl_append, List.foldl_cons, List.foldl_nil]
      exact (ih (by omega)).step (by omega)
  exact this txs.length le_rfl

/-- The second loop of `NewBuildConflictGraph` after its first `k` transactions:
rows below `k` have their read-write arcs, the others are untouched. -/
theorem secondLoop_spec (txs : List (List RWNode)) (wSet : GoMap Bytes (List Nat))
    {g₀ : List (List Nat)} (hlen : g₀.length = txs.length) : ∀ k ≤ txs.length,
    ((List.range k).foldl (fun g i => readWriteArcs wSet i (txs.getD i []) g) g₀).length =
        txs.length ∧
      (∀ j, k ≤ j → ((List.range k).foldl (fun g i => readWriteArcs wSet i (txs.getD i []) g)
        g₀).getD j [] = g₀.getD j []) ∧
      ∀ j < k, ∀ m, m ∈ ((List.range k).foldl (fun g i => readWriteArcs wSet i (txs.getD i []) g)
        g₀).getD j [] ↔ m ∈ g₀.getD j [] ∨ m ≠ j ∧ ∃ rw ∈ txs.getD j [], rw.label = .r ∧
          m ∈ wSet.findD (convertByte2String rw.rwSet.key) [] := by
  intro k
  induction k with
  | zero => exact fun _ => ⟨hlen, fun _ _ => rfl, fun _ h => absurd h (Nat.not_lt_zero _)⟩
  | succ k ih =>
    intro hk
    obtain ⟨hl, hrest, hdone⟩ := ih (by omega)
    rw [List.range_succ, List.foldl_append, List.foldl_cons, List.foldl_nil]
    have hg := readWriteArcs_grows wSet k (txs.getD k [])
      ((List.range k).foldl (fun g i => readWriteArcs wSet i (txs.getD i []) g) g₀) (by omega)
    refine ⟨hg.length_eq.trans hl, fun j hj => ?_, fun j hj m => ?_⟩
    · rw [hg.other j (by omega), hrest j (by omega)]
    · by_cases hjk : j = k
      · subst hjk
        rw [hg.mem_iff, hrest j le_rfl]
      · rw [hg.other j hjk]
        exact hdone j (by omega) m

theorem newBuildConflictGraph_eq (txs : List (List RWNode)) :
    newBuildConflictGraph txs = (List.range txs.length).foldl
      (fun g i => readWriteArcs (newFirstLoop txs).2 i (txs.getD i []) g) (newFirstLoop txs).1 := rfl

theorem length_newBuildConflictGraph (txs : List (List RWNode)) :
    (newBuildConflictGraph txs).length = txs.length := by
  rw [newBuildConflictGraph_eq]
  exact (secondLoop_spec txs _ (newFirstLoop_spec txs).length_eq txs.length le_rfl).1

theorem mem_newBuildConflictGraph_row {txs : List (List RWNode)} {i : Nat} (hi : i < txs.length)
    (m : Nat) :
    m ∈ (newBuildConflictGraph txs).getD i [] ↔ m ∈ (newFirstLoop txs).1.getD i [] ∨
      m ≠ i ∧ ∃ rw ∈ txs.getD i [], rw.label = .r ∧
        m ∈ (newFirstLoop txs).2.findD (convertByte2String rw.rwSet.key) [] := by
  rw [newBuildConflictGraph_eq]
  exact (secondLoop_spec txs _ (newFirstLoop_spec txs).length_eq txs.length le_rfl).2.2 i hi m

/-- Row `i` of `NewBuildConflictGraph` lists the conflicts of `i` with keys
compared by the names they print as. -/
theorem mem_newBuildConflictGraph_names {txs : List (List RWNode)} {i j : Nat} (hi : i < txs.length) :
    j ∈ (newBuildConflictGraph txs).getD i [] ↔ i ≠ j ∧
      ((∃ k ∈ readKeys (txs.getD i []), ∃ k' ∈ writeKeys (txs.getD j []),
          convertByte2String k = convertByte2String k') ∨
        (i < j ∧ ∃ k ∈ writeKeys (txs.getD i []), ∃ k' ∈ writeKeys (txs.getD j []),
          convertByte2String k = convertByte2String k')) := by
  have hfirst := newFirstLoop_spec txs
  rw [mem_newBuildConflictGraph_row hi, hfirst.row i hi]
  simp only [hfirst.wSet, List.mem_map]
  constructor
  · rintro (⟨hij, hj, rw, hrw, hlab, k, hk, hkey⟩ | ⟨hne, r, hr, hrl, -, rw, hrw, hlab, hkey⟩)
    · exact ⟨by omega, Or.inr ⟨hij, k, hk, rw.rwSet.key, mem_writeKeys.mpr ⟨rw, hrw, hlab, rfl⟩, hkey⟩⟩
    · exact ⟨Ne.symm hne, Or.inl ⟨r.rwSet.key, mem_readKeys.mpr ⟨r, hr, hrl, rfl⟩,
        rw.rwSet.key, mem_writeKeys.mpr ⟨rw, hrw, hlab, rfl⟩, hkey.symm⟩⟩
  · rintro ⟨hne, ⟨k, hk, k', hk', hkey⟩ | ⟨hij, k, hk, k', hk', hkey⟩⟩
    · obtain ⟨r, hr, hrl, rfl⟩ := mem_readKeys.mp hk
      obtain ⟨rw, hrw, hlab, rfl⟩ := mem_writeKeys.mp hk'
      exact Or.inr ⟨Ne.symm hne, r, hr, hrl, lt_length_of_mem_writeKeys hk', rw, hrw, hlab, hkey.symm⟩
    · obtain ⟨rw, hrw, hlab, rfl⟩ := mem_writeKeys.mp hk'
      exact Or.inl ⟨hij, lt_length_of_mem_writeKeys hk', rw, hrw, hlab, k, hk, hkey⟩

/-- Row `i` of `NewBuildConflictGraph` lists exactly the conflicts of `i`, on a
batch where no nil key meets an empty one. -/
theorem mem_newBuildConflictGraph {txs : List (List RWNode)} (hkeys : NoNilEmptyClash txs) {i j : Nat}
    (hi : i < txs.length) : j ∈ (newBuildConflictGraph txs).getD i [] ↔ Conflict txs i j := by
  rw [mem_newBuildConflictGraph_names hi, Conflict]
  -- a key `i` touches and one `j` writes print alike only when they are equal
  have hname : ∀ {k k' : Option Bytes}, k ∈ batchKeys txs → k' ∈ writeKeys (txs.getD j []) →
      (convertByte2String k = convertByte2String k' ↔ k = k') :=
    fun hk hk' => hkeys.name_eq_iff hk (mem_batchKeys_of_writeKeys hk')
  constructor
  · rintro ⟨hne, ⟨k, hk, k', hk', hkey⟩ | ⟨hij, k, hk, k', hk', hkey⟩⟩
    · rw [← (hname (mem_batchKeys_of_readKeys hk) hk').mp hkey] at hk'
      exact ⟨hne, Or.inl ⟨k, hk, hk'⟩⟩
    · rw [← (hname (mem_batchKeys_of_writeKeys hk) hk').mp hkey] at hk'
      exact ⟨hne, Or.inr ⟨hij, k, hk, hk'⟩⟩
  · rintro ⟨hne, ⟨k, hk, hk'⟩ | ⟨hij, k, hk, hk'⟩⟩
    · exact ⟨hne, Or.inl ⟨k, hk, k, hk', rfl⟩⟩
    · exact ⟨hne, Or.inr ⟨hij, k, hk, k, hk', rfl⟩⟩

/-- On a batch where no nil key meets an empty one, the two builders agree row
by row, as sets, and both compute `Conflict`. -/
theorem conflictGraphs_agree {txs : List (List RWNode)} (hkeys : NoNilEmptyClash txs) (i j : Nat) :
    (j ∈ (newBuildConflictGraph txs).getD i [] ↔ j ∈ (buildConflictGraph txs).getD i []) ∧
      (j ∈ (buildConflictGraph txs).getD i [] ↔ Conflict txs i j) := by
  by_cases hi : i < txs.length
  · exact ⟨(mem_newBuildConflictGraph hkeys hi).trans (mem_buildConflictGraph hi).symm,
      mem_buildConflictGraph hi⟩
  · -- past the last transaction both tables read the zero row, and nothing conflicts
    have hB : (buildConflictGraph txs).getD i [] = [] :=
      List.getD_eq_default _ _ (by simp [buildConflictGraph]; omega)
    have hN : (newBuildConflictGraph txs).getD i [] = [] :=
      List.getD_eq_default _ _ (by rw [length_newBuildConflictGraph]; omega)
    have hC : ¬ Conflict txs i j := fun h => hi h.lt_length
    rw [hB, hN]
    simp [hC]

/-- A node of transaction `id` with a given label and key, value `"1"`. -/
def cgNode (id : Bytes) (label : Label) (key : Option Bytes) : RWNode :=
  ⟨⟨key, some [49]⟩, ⟨id, 0⟩, label, 0, false⟩

/-- Two transactions that write the keys `0x00` and `0x01`. -/
def twoWriters : List (List RWNode) :=
  [[cgNode [48] .w (some [0]), cgNode [48] .w (some [1])], [cgNode [49] .w (some [0]), cgNode [49] .w (some [1])]]

/-- On `twoWriters` the second transaction is in the first's row of both tables. -/
theorem twoWriters_graphs_agree :
    NoNilEmptyClash twoWriters ∧
      (1 ∈ (newBuildConflictGraph twoWriters).getD 0 [] ↔ 1 ∈ (buildConflictGraph twoWriters).getD 0 []) ∧
      (1 ∈ (buildConflictGraph twoWriters).getD 0 [] ↔ Conflict twoWriters 0 1) :=
  have hkeys : NoNilEmptyClash twoWriters := by decide
  ⟨hkeys, conflictGraphs_agree hkeys 0 1⟩

/-- Equal as sets, not as lists: the light version repeats a write-write arc
for every common written key. -/
example : buildConflictGraph twoWriters = [[1], []] ∧ newBuildConflictGraph twoWriters = [[1, 1], []] := by
  decide

/-- A transaction that reads the nil key and one that writes the empty key. -/
def nilReadEmptyWrite : List (List RWNode) := [[cgNode [48] .r none], [cgNode [49] .w (some [])]]

/-- On `nilReadEmptyWrite` the light builder finds the arc `0 → 1` through the
name `""` both keys print as, and the reference builder, comparing with
`reflect.DeepEqual`, does not. -/
theorem nilReadEmptyWrite_graphs_differ :
    newBuildConflictGraph nilReadEmptyWrite = [[1], []] ∧ buildConflictGraph nilReadEmptyWrite = [[], []] ∧
      ¬ (1 ∈ (newBuildConflictGraph nilReadEmptyWrite).getD 0 [] ↔
        1 ∈ (buildConflictGraph nilReadEmptyWrite).getD 0 []) := by
  decide

end Nezha
